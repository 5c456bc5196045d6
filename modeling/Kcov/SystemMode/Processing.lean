import Kcov.SystemMode.ProcessedFile

/-! What `getProcessedData` writes: where its writes go in the block, and which part of the processed
file each of them belongs to. -/

namespace Kcov.SystemMode

open Bytes

/-- The parts of a processed file. -/
inductive Region where
  | raw
  | filename
  | options
  | entries
  | trailer
  deriving DecidableEq, Repr

/-- Bytes that are written to an offset of the block, for a part of the file. -/
structure RegionWrite where
  region : Region
  offset : Nat
  bytes : List Byte
  deriving DecidableEq, Repr

/-- The offsets at which a part starts and ends. -/
def Layout.area (l : Layout) : Region → Nat × Nat
  | .raw => (0, l.padded)
  | .filename => (l.padded, l.options)
  | .options => (l.options, l.entries)
  | .entries => (l.entries, l.trailerStart)
  | .trailer => (l.trailerStart, l.outSize)

/-- The writes of `getProcessedData` in order. -/
def SystemModeFile.writes (host : Endian) (f : SystemModeFile) : List RegionWrite :=
  if f.entries.length = 0 then [⟨.raw, 0, f.data⟩]
  else
    let l := f.layout
    [⟨.raw, 0, f.data⟩,
      ⟨.filename, l.padded, cString f.filename ++ [0]⟩,
      -- the terminator of the file name, stored through the pointer to the options
      ⟨.filename, l.options + (l.filenameSize - 1).toNat, [0]⟩,
      ⟨.options, l.options, cString f.options ++ [0]⟩,
      ⟨.options, l.options + (l.optionsSize - 1).toNat, [0]⟩,
      ⟨.entries, l.entries, entryBytes host f.entries⟩,
      ⟨.trailer, l.trailerStart, f.trailer.encode host⟩]

/-- A write that does not touch any of the bytes between two offsets. -/
def RegionWrite.Misses (w : RegionWrite) (area : Nat × Nat) : Prop :=
  w.offset + w.bytes.length ≤ area.1 ∨ area.2 ≤ w.offset

/-- All of the writes are inside the block, so that it gets filled in, none of them touches another
part that has been filled in before, and the trailer is aligned. -/
structure WritesSafely (host : Endian) (f : SystemModeFile) : Prop where
  filled : (f.getProcessedData host).isSome
  inside : ∀ w ∈ f.writes host, w.offset + w.bytes.length ≤ f.layout.outSize
  apart : (f.writes host).Pairwise fun v w => v.region ≠ w.region → w.Misses (f.layout.area v.region)
  aligned : f.layout.trailerStart % 8 = 0

section Writes

variable {host : Endian} {f : SystemModeFile}

theorem getProcessedData_eq_writeAll (hentries : f.entries ≠ []) : f.getProcessedData host =
    writeAll (zeros f.layout.outSize) ((f.writes host).map fun w => (w.offset, w.bytes)) := by
  have hlen : ¬f.entries.length = 0 := by simpa using hentries
  rw [SystemModeFile.getProcessedData, SystemModeFile.writes, if_neg hlen, if_neg hlen]
  simp [writeAll]

/-- The processed data is there exactly if every write is inside the block. -/
theorem getProcessedData_isSome (hentries : f.entries ≠ []) : (f.getProcessedData host).isSome ↔
    ∀ w ∈ f.writes host, w.offset + w.bytes.length ≤ f.layout.outSize := by
  rw [getProcessedData_eq_writeAll hentries, writeAll_isSome, List.length_replicate,
    List.forall_mem_map]

/-- The writes keep to the block exactly if the terminator that is stored behind the start of the
options, at the size of the file name, does. -/
theorem writesSafely_iff (host : Endian) (hentries : f.entries ≠ [])
    (hcount : f.entries.length < 2 ^ 29)
    (hsizes : padTo8 (f.filename.length + 1) + padTo8 (f.options.length + 1) < 2 ^ 32) :
    WritesSafely host f ↔ padTo8 (f.filename.length + 1) ≤
      padTo8 (f.options.length + 1) + 8 * f.entries.length + sizeofTrailer := by
  have hF := layout_filenameSize (f := f) (by omega)
  have hO := layout_optionsSize (f := f) (by omega)
  have hC := layout_compressedSize hcount
  have hP : f.layout.padded = padTo8 f.data.length := rfl
  have hd := le_padTo8 f.data.length
  have hf := le_padTo8 (f.filename.length + 1)
  have ho := le_padTo8 (f.options.length + 1)
  have hdmod := padTo8_mod f.data.length
  have hfmod := padTo8_mod (f.filename.length + 1)
  have homod := padTo8_mod (f.options.length + 1)
  have hF1 := toNat_sub_one (x := f.layout.filenameSize) (by omega)
  have hO1 := toNat_sub_one (x := f.layout.optionsSize) (by omega)
  have hname := length_cString f.filename
  have hopts := length_cString f.options
  have hoptions : f.layout.options = f.layout.padded + padTo8 (f.filename.length + 1) := by
    rw [Layout.options, hF]
  have hentry : f.layout.entries = f.layout.options + padTo8 (f.options.length + 1) := by
    rw [Layout.entries, hO]
  have htrailer : f.layout.trailerStart = f.layout.entries + 8 * f.entries.length := by
    rw [Layout.trailerStart, hC]
  have hout : f.layout.outSize = f.layout.trailerStart + 32 := rfl
  have hlen : ¬f.entries.length = 0 := by simpa using hentries
  constructor
  · intro h
    have hterm := h.inside ⟨.filename, f.layout.options + (f.layout.filenameSize - 1).toNat, [0]⟩
      (by simp [SystemModeFile.writes, hlen])
    simp only [List.length_singleton, sizeofTrailer] at hterm ⊢
    omega
  · intro hterm
    simp only [sizeofTrailer] at hterm
    have hinside : ∀ w ∈ f.writes host, w.offset + w.bytes.length ≤ f.layout.outSize := by
      simp only [SystemModeFile.writes, hlen, if_false, List.forall_mem_cons, List.length_append,
        List.length_singleton, length_entryBytes, length_encode, List.not_mem_nil, false_imp_iff,
        implies_true, and_true, hF1, hO1, hF, hO]
      omega
    refine ⟨(getProcessedData_isSome hentries).mpr hinside, hinside, ?_, by omega⟩
    -- a part that is filled in ends before every write for another part that follows
    suffices hends : (f.writes host).Pairwise fun v w =>
        v.region ≠ w.region → (f.layout.area v.region).2 ≤ w.offset from
      hends.imp fun hend hne => Or.inr (hend hne)
    simp only [SystemModeFile.writes, hlen, if_false, List.pairwise_cons, List.forall_mem_cons,
      List.not_mem_nil, false_imp_iff, implies_true, and_true, Layout.area, List.Pairwise.nil,
      ne_eq, reduceCtorEq, not_false_eq_true, not_true_eq_false, true_imp_iff, true_and, hF1, hO1]
    omega

end Writes

/-- A file with a short name and short options. -/
def shortFile : SystemModeFile where
  filename := ascii "/a"
  options := ascii " "
  id := 7
  data := [1]
  entries := [5]

theorem writesSafely_short : WritesSafely .little shortFile :=
  (writesSafely_iff .little (by decide) (by decide) (by decide)).mpr (by decide)

/-- A file whose name takes more room than the options, the entry and the trailer. -/
def longNameFile : SystemModeFile :=
  { shortFile with filename := ascii "/" ++ List.replicate 47 0x61 }

theorem not_writesSafely_long : ¬WritesSafely .little longNameFile := by
  intro h
  have hterm := h.inside ⟨.filename, 119, [0]⟩ (by decide)
  revert hterm
  decide

end Kcov.SystemMode
