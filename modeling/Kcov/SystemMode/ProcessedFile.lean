import Kcov.SystemMode.FileData
import Mathlib.Data.List.Basic

/-! The processed-file round trip: the image that `getProcessedData` builds, what
`fromProcessedFile` reads from it, and exactly when the two agree. -/

namespace Kcov.SystemMode

open Bytes

/-! ### Padding -/

theorem le_padTo8 (n : Nat) : n ≤ padTo8 n := by unfold padTo8; split <;> omega

theorem padTo8_lt (n : Nat) : padTo8 n < n + 8 := by unfold padTo8; split <;> omega

theorem padTo8_mod (n : Nat) : padTo8 n % 8 = 0 := by unfold padTo8; split <;> omega

theorem padTo8_of_mod {n : Nat} (h : n % 8 = 0) : padTo8 n = n := by simp [padTo8, h]

/-- The low three bits of a 32-bit size that is a multiple of 8 are clear. -/
theorem and_seven_eq_zero {n : Nat} (h : n % 8 = 0) : BitVec.ofNat 32 n &&& 7 = 0 := by
  apply BitVec.eq_of_toNat_eq
  have hmask : (7 : BitVec 32).toNat = 2 ^ 3 - 1 := rfl
  rw [BitVec.toNat_and, hmask, Nat.and_two_pow_sub_one_eq_mod, BitVec.toNat_ofNat]
  simp only [BitVec.ofNat_eq_ofNat, BitVec.toNat_ofNat, Nat.zero_mod]
  omega

/-! ### The trailer in memory -/

@[simp] theorem length_encode (host : Endian) (t : Trailer) : (t.encode host).length = 30 := by
  simp [Trailer.encode]

theorem decode_encode (host : Endian) (t : Trailer) (rest : List Byte) :
    Trailer.decode host (t.encode host ++ rest) = t := by
  have h4 := fun x : BitVec 32 => ofNat_mod_pow (n := 4) rfl x
  have h2 := fun x : BitVec 16 => ofNat_mod_pow (n := 2) rfl x
  simp only [Trailer.decode, Trailer.encode, List.append_assoc, field_skip, field_encode, h4, h2,
    Nat.reduceLeDiff, Nat.reduceSub, le_refl]

/-! ### The entry table -/

@[simp] theorem length_entryBytes (host : Endian) (entries : List (BitVec 64)) :
    (entryBytes host entries).length = 8 * entries.length :=
  length_flatMap_of_length (fun e : BitVec 64 => host.length_encode 8 e.toNat) entries

theorem read_entryBytes (host : Endian) (entries : List (BitVec 64)) {i : Nat}
    (hi : i < entries.length) :
    read (entryBytes host entries) (8 * i) 8 = some (host.encode 8 (entries[i]).toNat) := by
  have hread := @read_flatMap _ _ _ (fun e : BitVec 64 => host.length_encode 8 e.toNat) [] [] (8 * i)
    i entries (by simp) hi
  rw [List.nil_append, List.append_nil] at hread
  exact hread

theorem addEntry_next (f : SystemModeFile) {i : Nat} (v : BitVec 64) (hlen : f.entries.length = i)
    (hi : i + 1 < 2 ^ 32) :
    f.addEntry (BitVec.ofNat 32 i) v = some { f with entries := f.entries ++ [v] } := by
  have h1 : (BitVec.ofNat 32 i).toNat = i := by rw [BitVec.toNat_ofNat]; omega
  have h2 : (BitVec.ofNat 32 i + 1).toNat = i + 1 := by
    rw [BitVec.toNat_add, h1, show (1 : BitVec 32).toNat = 1 from rfl]; omega
  have hresize : resize f.entries (i + 1) = f.entries ++ [0] := by
    rw [resize, hlen, List.take_of_length_le (by omega), Nat.add_sub_cancel_left]
    rfl
  have hset : (f.entries ++ [0]).set i v = f.entries ++ [v] := by
    rw [List.set_append_right _ _ (by omega), hlen, Nat.sub_self]
    rfl
  simp only [SystemModeFile.addEntry, h1, h2, hlen, le_refl, if_true, hresize, List.length_append,
    List.length_cons, List.length_nil, hset]
  simp

/-- The last value that the loop of `parse` takes. -/
theorem takeEntries_succ (host : Endian) (block : List Byte) (n : Nat) (f : SystemModeFile) :
    takeEntries host block (n + 1) f = (takeEntries host block n f >>= fun g =>
      inBounds (read block (8 * n) 8) >>= fun bytes =>
        inBounds (g.addEntry (BitVec.ofNat 32 n) (BitVec.ofNat 64 (host.decode bytes)))) :=
  foldlM_range_succ _ f n

/-- The loop of `parse` reads back the entries that were stored. -/
theorem takeEntries_entryBytes (host : Endian) (f : SystemModeFile) (entries : List (BitVec 64))
    (hf : f.entries = []) (hlen : entries.length < 65536) {k : Nat} (hk : k ≤ entries.length) :
    takeEntries host (entryBytes host entries) k f = .ok { f with entries := entries.take k } := by
  induction k with
  | zero => simp [takeEntries, ← hf]; rfl
  | succ k ih =>
    have hread := read_entryBytes host entries (i := k) (by omega)
    have hvalue : BitVec.ofNat 64 (host.decode (host.encode 8 (entries[k]).toNat)) = entries[k] := by
      rw [host.decode_encode]
      exact ofNat_mod_pow (n := 8) rfl _
    have hadd := addEntry_next { f with entries := entries.take k } entries[k] (i := k)
      (by simp; omega) (by omega)
    have htake : entries.take k ++ [entries[k]] = entries.take (k + 1) := by simp
    rw [takeEntries_succ, ih (by omega), ok_bind, hread, inBounds_some, ok_bind, hvalue, hadd, htake,
      inBounds_some]

/-- However the block looks, the loop of `parse` takes as many values as it is asked to. -/
theorem takeEntries_eq_ok (host : Endian) (block : List Byte) {n : Nat} {f g : SystemModeFile}
    (hn : n < 65536) (hf : f.entries = []) (h : takeEntries host block n f = .ok g) :
    g.entries.length = n ∧ g.filename = f.filename := by
  induction n generalizing g with
  | zero =>
    simp only [takeEntries, List.range_zero, List.foldlM_nil] at h
    cases h
    simp [hf]
  | succ n ih =>
    rw [takeEntries_succ] at h
    obtain ⟨g', hprev, hlast⟩ := bind_eq_ok.mp h
    obtain ⟨hlen, hname⟩ := ih (by omega) hprev
    obtain ⟨bytes, -, hadd⟩ := bind_eq_ok.mp hlast
    rw [addEntry_next g' _ hlen (show n + 1 < 2 ^ 32 by omega), inBounds_some] at hadd
    cases hadd
    exact ⟨by simp [hlen], hname⟩

/-! ### The image of a processed file -/

/-- The sizes of a file for which no size field wraps and the terminator that `getProcessedData`
stores through the wrong pointer stays inside the block. -/
structure SystemModeFile.Fits (f : SystemModeFile) : Prop where
  entries : f.entries.length < 65536
  filename : padTo8 (f.filename.length + 1) < 2 ^ 32
  options : padTo8 (f.options.length + 1) < 2 ^ 32
  terminator : padTo8 (f.filename.length + 1) ≤
    padTo8 (f.options.length + 1) + 8 * f.entries.length + sizeofTrailer

/-- The parts of a processed file, in order. -/
def SystemModeFile.image (host : Endian) (f : SystemModeFile) : List Byte :=
  f.data ++ zeros (padTo8 f.data.length - f.data.length) ++
    f.filename ++ zeros (padTo8 (f.filename.length + 1) - f.filename.length) ++
    f.options ++ zeros (padTo8 (f.options.length + 1) - f.options.length) ++
    entryBytes host f.entries ++ f.trailer.encode host ++ zeros 2

section Fits

variable {f : SystemModeFile}

theorem SystemModeFile.Fits.entries_lt (h : f.Fits) : f.entries.length < 2 ^ 29 :=
  h.entries.trans (by decide)

theorem layout_filenameSize (h : padTo8 (f.filename.length + 1) < 2 ^ 32) :
    f.layout.filenameSize.toNat = padTo8 (f.filename.length + 1) := by
  simp only [SystemModeFile.layout, BitVec.toNat_ofNat]
  omega

theorem layout_optionsSize (h : padTo8 (f.options.length + 1) < 2 ^ 32) :
    f.layout.optionsSize.toNat = padTo8 (f.options.length + 1) := by
  simp only [SystemModeFile.layout, BitVec.toNat_ofNat]
  omega

theorem layout_uncompressedSize (h : f.entries.length < 2 ^ 29) :
    f.layout.uncompressedSize.toNat = 8 * f.entries.length := by
  simp only [SystemModeFile.layout, BitVec.toNat_ofNat]
  omega

theorem layout_compressedSize (h : f.entries.length < 2 ^ 29) :
    f.layout.compressedSize.toNat = 8 * f.entries.length := by
  have hu := layout_uncompressedSize h
  simp only [SystemModeFile.layout] at hu ⊢
  rw [hu, padTo8_of_mod (by omega), BitVec.toNat_ofNat]
  omega

theorem toNat_sub_one {x : BitVec 32} (h : 0 < x.toNat) : (x - 1).toNat = x.toNat - 1 := by
  have hx := x.isLt
  rw [BitVec.toNat_sub, show (1 : BitVec 32).toNat = 1 from rfl]
  omega

/-- In a file that fits, the writes of `getProcessedData` fill the block part by part. -/
theorem getProcessedData_eq_image (host : Endian) (hfit : f.Fits) (hentries : f.entries ≠ [])
    (hname : 0 ∉ f.filename) (hopts : 0 ∉ f.options) :
    f.getProcessedData host = some (f.image host) := by
  have hF := layout_filenameSize hfit.filename
  have hO := layout_optionsSize hfit.options
  have hC := layout_compressedSize hfit.entries_lt
  have hP : f.layout.padded = padTo8 f.data.length := rfl
  have hn : 0 < f.entries.length := List.length_pos_of_ne_nil hentries
  have hd := le_padTo8 f.data.length
  have hf1 := le_padTo8 (f.filename.length + 1)
  have ho1 := le_padTo8 (f.options.length + 1)
  have hF1 := toNat_sub_one (x := f.layout.filenameSize) (by omega)
  have hO1 := toNat_sub_one (x := f.layout.optionsSize) (by omega)
  have hterm := hfit.terminator
  simp only [sizeofTrailer] at hterm
  have hout : f.layout.outSize = padTo8 f.data.length + padTo8 (f.filename.length + 1) +
      padTo8 (f.options.length + 1) + 8 * f.entries.length + 32 := by
    simp only [Layout.outSize, Layout.trailerStart, Layout.entries, Layout.options, sizeofTrailer]
    omega
  have hoptions : f.layout.options = padTo8 f.data.length + padTo8 (f.filename.length + 1) := by
    simp only [Layout.options]
    omega
  have hentry : f.layout.entries = f.layout.options + padTo8 (f.options.length + 1) := by
    simp only [Layout.entries]
    omega
  have htrailer : f.layout.trailerStart = f.layout.entries + 8 * f.entries.length := by
    simp only [Layout.trailerStart]
    omega
  have w1 : write (zeros f.layout.outSize) 0 f.data =
      some (f.data ++ zeros (f.layout.outSize - f.data.length)) := by
    simpa using @write_zeros [] f.data 0 f.layout.outSize 0 (f.layout.outSize - f.data.length) rfl
      (by omega)
  rw [SystemModeFile.getProcessedData, if_neg (by omega)]
  simp only [cString_eq_self hname, cString_eq_self hopts, hF1, hO1, w1, Option.bind_eq_bind,
    Option.bind_some]
  rw [write_zeros_string (padTo8 f.data.length - f.data.length)
    (f.layout.outSize - padTo8 f.data.length - f.filename.length) (by omega) (by omega)
    (by omega), Option.bind_some]
  rw [show [(0 : Byte)] = zeros 1 from rfl, write_zeros_zeros (by simp; omega) (by simp; omega),
    Option.bind_some]
  rw [show zeros 1 = [(0 : Byte)] from rfl,
    write_zeros_string (padTo8 (f.filename.length + 1) - f.filename.length)
      (f.layout.outSize - f.layout.options - f.options.length) (by simp; omega) (by omega)
      (by omega), Option.bind_some]
  rw [show [(0 : Byte)] = zeros 1 from rfl, write_zeros_zeros (by simp; omega) (by simp; omega),
    Option.bind_some]
  rw [write_zeros (padTo8 (f.options.length + 1) - f.options.length) 32
    (by simp; omega) (by simp; omega), Option.bind_some]
  rw [write_zeros 0 2 (by simp; omega) (by simp)]
  simp [SystemModeFile.image]

theorem length_image (host : Endian) :
    (f.image host).length = padTo8 f.data.length + padTo8 (f.filename.length + 1) +
      padTo8 (f.options.length + 1) + 8 * f.entries.length + 32 := by
  have hd := le_padTo8 f.data.length
  have hf1 := le_padTo8 (f.filename.length + 1)
  have ho1 := le_padTo8 (f.options.length + 1)
  simp only [SystemModeFile.image, List.length_append, List.length_replicate, length_entryBytes,
    length_encode]
  omega

theorem unmarshalTrailer_trailer (f : SystemModeFile) : unmarshalTrailer f.trailer = true := by
  have hF := and_seven_eq_zero (padTo8_mod (f.filename.length + 1))
  have hO := and_seven_eq_zero (padTo8_mod (f.options.length + 1))
  simp only [unmarshalTrailer, SystemModeFile.trailer, SystemModeFile.layout, hF, hO, ne_eq,
    not_true_eq_false, if_false]

/-- The parts of the image from the file name on, and the offset at which they start. -/
theorem image_eq (host : Endian) :
    f.image host = (f.data ++ zeros (padTo8 f.data.length - f.data.length)) ++
      (f.filename ++ (zeros (padTo8 (f.filename.length + 1) - f.filename.length) ++ (f.options ++
        (zeros (padTo8 (f.options.length + 1) - f.options.length) ++ (entryBytes host f.entries ++
          (f.trailer.encode host ++ zeros 2)))))) := by
  simp [SystemModeFile.image]

theorem filename_image (host : Endian) (hname : 0 ∉ f.filename) :
    cStringAt (f.image host) (padTo8 f.data.length : Nat) = some f.filename ∧
      (f.image host)[padTo8 f.data.length + (padTo8 (f.filename.length + 1) - 1)]? = some 0 := by
  have hd := le_padTo8 f.data.length
  have hf := le_padTo8 (f.filename.length + 1)
  rw [image_eq]
  refine ⟨cStringAt_append (by simp; omega) hname (by omega), ?_⟩
  rw [← List.append_assoc]
  exact getElem?_zeros (by simp; omega) (by simp; omega)

theorem options_image (host : Endian) (hopts : 0 ∉ f.options) :
    cStringAt (f.image host) (padTo8 f.data.length + padTo8 (f.filename.length + 1) : Nat) =
        some f.options ∧
      (f.image host)[padTo8 f.data.length + padTo8 (f.filename.length + 1) +
        (padTo8 (f.options.length + 1) - 1)]? = some 0 := by
  have hd := le_padTo8 f.data.length
  have hf := le_padTo8 (f.filename.length + 1)
  have ho := le_padTo8 (f.options.length + 1)
  rw [image_eq, ← List.append_assoc, ← List.append_assoc]
  refine ⟨cStringAt_append (by simp; omega) hopts (by omega), ?_⟩
  rw [← List.append_assoc]
  exact getElem?_zeros (by simp; omega) (by simp; omega)

theorem entries_image (host : Endian) :
    read (f.image host) (padTo8 f.data.length + padTo8 (f.filename.length + 1) +
      padTo8 (f.options.length + 1)) (8 * f.entries.length) =
      some (entryBytes host f.entries) := by
  have hd := le_padTo8 f.data.length
  have hf := le_padTo8 (f.filename.length + 1)
  have ho := le_padTo8 (f.options.length + 1)
  rw [image_eq, ← List.append_assoc, ← List.append_assoc, ← List.append_assoc, ← List.append_assoc]
  exact read_append (by simp; omega) (by simp)

theorem parseTrailer_image (host : Endian) {base : Nat} (hbase : base % 8 = 0) :
    parseTrailer host base (f.image host) = .ok f.trailer := by
  have hlen := length_image (f := f) host
  have hd := padTo8_mod f.data.length
  have hf := padTo8_mod (f.filename.length + 1)
  have ho := padTo8_mod (f.options.length + 1)
  have hread : read (f.image host) ((f.image host).length - 32) 32 =
      some (f.trailer.encode host ++ zeros 2) := by
    have hsplit : f.image host = (f.data ++ zeros (padTo8 f.data.length - f.data.length) ++
        f.filename ++ zeros (padTo8 (f.filename.length + 1) - f.filename.length) ++
        f.options ++ zeros (padTo8 (f.options.length + 1) - f.options.length) ++
        entryBytes host f.entries) ++ ((f.trailer.encode host ++ zeros 2) ++ []) := by
      rw [List.append_nil, SystemModeFile.image, List.append_assoc _ (f.trailer.encode host)]
    have htail : (f.trailer.encode host ++ zeros 2 ++ []).length = 32 := by simp
    rw [hsplit]
    exact read_append (by rw [List.length_append, htail, Nat.add_sub_cancel]) (by simp)
  have hstart : ((f.image host).length : Int) - (sizeofTrailer : Nat) =
      ((f.image host).length - 32 : Nat) := by
    simp only [sizeofTrailer]; omega
  unfold parseTrailer
  rw [refuseIf_neg (by omega), ok_bind, refuseIf_neg (by omega), ok_bind, hstart, bytesAt_natCast,
    sizeofTrailer, hread, inBounds_some, ok_bind, decode_encode, unmarshalTrailer_trailer,
    refuseIf_neg (by simp), ok_bind]
  rfl

theorem fromProcessedFile_image (host : Endian) {base : Nat} (hbase : base % 8 = 0)
    (hfit : f.Fits) (hname : 0 ∉ f.filename) (hopts : 0 ∉ f.options) :
    fromProcessedFile host base (f.image host) = .ok { f with data := f.image host } := by
  have hlen := length_image (f := f) host
  have hd := le_padTo8 f.data.length
  have hf1 := le_padTo8 (f.filename.length + 1)
  have ho1 := le_padTo8 (f.options.length + 1)
  have hF : f.trailer.filenameSize.toNat = _ := layout_filenameSize hfit.filename
  have hO : f.trailer.optionsSize.toNat = _ := layout_optionsSize hfit.options
  have hC : f.trailer.compressedSize.toNat = _ := layout_compressedSize hfit.entries_lt
  have hU : f.trailer.uncompressedSize.toNat = _ := layout_uncompressedSize hfit.entries_lt
  have hF1 := toNat_sub_one (x := f.trailer.filenameSize) (by omega)
  have hO1 := toNat_sub_one (x := f.trailer.optionsSize) (by omega)
  have hN : f.trailer.nEntries.toNat = f.entries.length := by
    have := hfit.entries
    simp only [SystemModeFile.trailer, BitVec.toNat_ofNat]
    omega
  obtain ⟨hfilename, hlastF⟩ := filename_image host hname
  obtain ⟨hoptions, hlastO⟩ := options_image host hopts
  have hentries := entries_image (f := f) host
  generalize padTo8 f.data.length = P at *
  generalize padTo8 (f.filename.length + 1) = F at *
  generalize padTo8 (f.options.length + 1) = O at *
  have hsum : (f.trailer.filenameSize + f.trailer.optionsSize + f.trailer.compressedSize).toNat ≤
      F + O + 8 * f.entries.length := by
    simp only [BitVec.toNat_add]
    omega
  have hblock : uncompressEntries (entryBytes host f.entries) (8 * f.entries.length) =
      some (entryBytes host f.entries) := by
    simpa [uncompressEntries] using
      @write_zeros [] (entryBytes host f.entries) 0 (8 * f.entries.length) 0 0 rfl (by simp)
  have htake := takeEntries_entryBytes host (f := { f with data := f.image host, entries := [] })
    f.entries rfl hfit.entries le_rfl
  rw [List.take_length] at htake
  have hoffE : ((f.image host).length : Int) - (sizeofTrailer : Nat) -
      (8 * f.entries.length : Nat) = (P + F + O : Nat) := by
    simp only [sizeofTrailer]; omega
  have hoffO : ((P + F + O : Nat) : Int) - O = (P + F : Nat) := by omega
  have hoffF : ((P + F : Nat) : Int) - F = P := by omega
  unfold fromProcessedFile
  rw [parseTrailer_image host hbase, ok_bind]
  unfold parseParts
  rw [refuseIf_neg (by omega), ok_bind]
  simp only [hF1, hO1, hF, hO, hC, hU, hN, hoffE, hoffO, hoffF, ← Nat.cast_add]
  rw [byteAt_natCast, hlastF, inBounds_some, ok_bind, refuseIf_neg (by simp), ok_bind,
    byteAt_natCast, hlastO, inBounds_some, ok_bind, refuseIf_neg (by simp), ok_bind, hfilename,
    inBounds_some, ok_bind, hoptions, inBounds_some, ok_bind, bytesAt_natCast, hentries,
    inBounds_some, ok_bind, hblock, inBounds_some, ok_bind]
  exact htake

end Fits

/-! ### What a successful round trip needs -/

section Needs

variable {f : SystemModeFile} {host : Endian} {out : List Byte}

/-- The writes of a run of `getProcessedData` that stays inside its block. -/
theorem getProcessedData_writes (h : f.getProcessedData host = some out) (hentries : f.entries ≠ []) :
    ∃ o1 o2 o3 o4 o5 o6, write (zeros f.layout.outSize) 0 f.data = some o1 ∧
      write o1 f.layout.padded (cString f.filename ++ [0]) = some o2 ∧
      write o2 (f.layout.options + (f.layout.filenameSize - 1).toNat) [0] = some o3 ∧
      write o3 f.layout.options (cString f.options ++ [0]) = some o4 ∧
      write o4 (f.layout.options + (f.layout.optionsSize - 1).toNat) [0] = some o5 ∧
      write o5 f.layout.entries (entryBytes host f.entries) = some o6 ∧
      write o6 f.layout.trailerStart (f.trailer.encode host) = some out := by
  rw [SystemModeFile.getProcessedData, if_neg (by simpa using hentries)] at h
  simp only [Option.bind_eq_bind, Option.bind_eq_some_iff] at h
  obtain ⟨o1, w1, o2, w2, o3, w3, o4, w4, o5, w5, o6, w6, w7⟩ := h
  exact ⟨o1, o2, o3, o4, o5, o6, w1, w2, w3, w4, w5, w6, w7⟩

theorem length_getProcessedData (h : f.getProcessedData host = some out)
    (hentries : f.entries ≠ []) : out.length = f.layout.outSize := by
  obtain ⟨o1, o2, o3, o4, o5, o6, w1, w2, w3, w4, w5, w6, w7⟩ := getProcessedData_writes h hentries
  rw [length_write w7, length_write w6, length_write w5, length_write w4, length_write w3,
    length_write w2, length_write w1, List.length_replicate]

/-- Whatever the sizes, the decoder finds the trailer that was written. -/
theorem parseTrailer_getProcessedData {base : Nat} {t : Trailer}
    (h : f.getProcessedData host = some out) (hentries : f.entries ≠ [])
    (hparse : parseTrailer host base out = .ok t) : t = f.trailer := by
  have hlen := length_getProcessedData h hentries
  obtain ⟨o1, o2, o3, o4, o5, o6, w1, w2, w3, w4, w5, w6, w7⟩ := getProcessedData_writes h hentries
  have htrailer := drop_take_write w7
  rw [length_encode] at htrailer
  unfold parseTrailer at hparse
  simp only [bind_eq_ok, inBounds_eq_ok] at hparse
  obtain ⟨-, -, -, -, bytes, hbytes, -, -, ht⟩ := hparse
  have hstart : ((out.length : Int) - (sizeofTrailer : Nat)) = (f.layout.trailerStart : Nat) := by
    rw [hlen, Layout.outSize]; omega
  rw [hstart, bytesAt_natCast, read_eq_some] at hbytes
  obtain ⟨-, rfl⟩ := hbytes
  have hsplit : (out.drop f.layout.trailerStart).take sizeofTrailer = f.trailer.encode host ++
      ((out.drop f.layout.trailerStart).take sizeofTrailer).drop 30 := by
    conv_lhs => rw [← List.take_append_drop 30 ((out.drop f.layout.trailerStart).take sizeofTrailer)]
    rw [List.take_take, show min 30 sizeofTrailer = 30 from rfl, htrailer]
  rw [hsplit, decode_encode] at ht
  cases ht
  rfl

/-- A decoded file has as many entries as its trailer says, and its file name ends at the first
NUL from its offset on; the part of the file name ends with a NUL. -/
theorem parseParts_eq_ok {t : Trailer} {start : Int} {g : SystemModeFile}
    (h : parseParts host out t start = .ok g) : g.entries.length = t.nEntries.toNat ∧
      cStringAt out (start - t.compressedSize.toNat - t.optionsSize.toNat - t.filenameSize.toNat) =
        some g.filename ∧
      byteAt out (start - t.compressedSize.toNat - t.optionsSize.toNat - t.filenameSize.toNat +
        (t.filenameSize - 1).toNat) = some 0 := by
  unfold parseParts at h
  simp only [bind_eq_ok, inBounds_eq_ok, refuseIf_eq_ok] at h
  obtain ⟨-, -, last, hlast, -, hzero, -, -, -, -, name, hname, opts, -, -, -, block, -, htake⟩ := h
  obtain ⟨hlen, heq⟩ := takeEntries_eq_ok host block (by have := t.nEntries.isLt; omega) rfl htake
  rw [not_ne_iff] at hzero
  exact ⟨hlen, heq ▸ hname, hzero ▸ hlast⟩

theorem outSize_eq (hn : f.entries.length < 2 ^ 29) : f.layout.outSize =
    f.layout.options + f.layout.optionsSize.toNat + 8 * f.entries.length + 32 := by
  have hC := layout_compressedSize hn
  simp only [Layout.outSize, Layout.trailerStart, Layout.entries, sizeofTrailer]
  omega

/-- The terminators that `getProcessedData` stores lie inside the block. -/
theorem getProcessedData_bounds (h : f.getProcessedData host = some out)
    (hentries : f.entries ≠ []) (hopts : 0 ∉ f.options) :
    f.layout.options + (f.layout.filenameSize - 1).toNat + 1 ≤ f.layout.outSize ∧
      f.layout.options + (f.options.length + 1) ≤ f.layout.outSize := by
  obtain ⟨o1, o2, o3, o4, o5, o6, w1, w2, w3, w4, -, -, -⟩ := getProcessedData_writes h hentries
  have l2 : o2.length = f.layout.outSize := by
    rw [length_write w2, length_write w1, List.length_replicate]
  have b3 := (write_eq_some.mp w3).1
  have b4 := (write_eq_some.mp w4).1
  rw [List.length_singleton, l2] at b3
  rw [cString_eq_self hopts, List.length_append, List.length_singleton, length_write w3, l2] at b4
  exact ⟨b3, b4⟩

/-- A wrapped size of the options leaves no room for the options themselves. -/
theorem optionsSize_lt (h : f.getProcessedData host = some out) (hentries : f.entries ≠ [])
    (hopts : 0 ∉ f.options) (hn : f.entries.length < 65536) :
    padTo8 (f.options.length + 1) < 2 ^ 32 := by
  have hout := outSize_eq (f := f) (by omega)
  have hroom := (getProcessedData_bounds h hentries hopts).2
  have hval : f.layout.optionsSize.toNat = padTo8 (f.options.length + 1) % 2 ^ 32 := by
    simp [SystemModeFile.layout]
  have hpad := padTo8_lt (f.options.length + 1)
  omega

/-- The terminator of the options is there in the end. -/
theorem getElem?_terminator (h : f.getProcessedData host = some out) (hentries : f.entries ≠ [])
    (hopts : 0 ∉ f.options) (hn : f.entries.length < 65536)
    (hopt : padTo8 (f.options.length + 1) < 2 ^ 32) :
    out[f.layout.options + f.options.length]? = some 0 := by
  obtain ⟨o1, o2, o3, o4, o5, o6, -, -, -, w4, w5, w6, w7⟩ := getProcessedData_writes h hentries
  have hpad := le_padTo8 (f.options.length + 1)
  have hentry : f.layout.entries = f.layout.options + padTo8 (f.options.length + 1) := by
    rw [Layout.entries, layout_optionsSize hopt]
  have hstart : f.layout.trailerStart = f.layout.entries + 8 * f.entries.length := by
    rw [Layout.trailerStart, layout_compressedSize (by omega)]
  have h4 : o4[f.layout.options + f.options.length]? = some 0 := by
    rw [getElem?_write w4, cString_eq_self hopts, if_pos (by simp)]
    simp
  rw [getElem?_write w7, if_neg (by omega), getElem?_write w6, if_neg (by omega),
    getElem?_write w5]
  split
  next hin =>
    rw [List.length_singleton] at hin
    rw [show f.layout.options + f.options.length -
      (f.layout.options + (f.layout.optionsSize - 1).toNat) = 0 by omega]
    rfl
  next => exact h4

/-- With a wrapped size of the file name, the terminator of the options cuts the name short. -/
theorem filenameSize_lt (h : f.getProcessedData host = some out) (hentries : f.entries ≠ [])
    (hopts : 0 ∉ f.options) (hn : f.entries.length < 65536)
    (hopt : padTo8 (f.options.length + 1) < 2 ^ 32)
    (hname : cStringAt out f.layout.padded = some f.filename) :
    padTo8 (f.filename.length + 1) < 2 ^ 32 := by
  have hzero := getElem?_terminator h hentries hopts hn hopt
  rw [cStringAt_natCast, Option.ite_none_right_eq_some, Option.some.injEq] at hname
  have hle : f.filename.length ≤ f.layout.filenameSize.toNat + f.options.length := by
    rw [← hname.2]
    apply length_cString_le
    rw [List.getElem?_drop, ← hzero]
    congr 1
    simp only [Layout.options]
    omega
  have hval : f.layout.filenameSize.toNat = padTo8 (f.filename.length + 1) % 2 ^ 32 := by
    simp [SystemModeFile.layout]
  have hlow := le_padTo8 (f.options.length + 1)
  have hmod := padTo8_mod (f.options.length + 1)
  have hpad := padTo8_lt (f.filename.length + 1)
  omega

/-- A file whose processed data decodes to the same file name and entries fits. -/
theorem fits_of_roundTrip {base : Nat} {g : SystemModeFile} (hopts : 0 ∉ f.options)
    (hentries : f.entries ≠ []) (h : f.getProcessedData host = some out)
    (hdecode : fromProcessedFile host base out = .ok g) (hgname : g.filename = f.filename)
    (hgentries : g.entries = f.entries) : f.Fits := by
  unfold fromProcessedFile at hdecode
  obtain ⟨t, ht, hparts⟩ := bind_eq_ok.mp hdecode
  obtain rfl := parseTrailer_getProcessedData h hentries ht
  obtain ⟨hcount, hstring, -⟩ := parseParts_eq_ok hparts
  -- The decoded list is no longer than a 16-bit count allows.
  have hn : f.entries.length < 65536 := by
    rw [← hgentries, hcount]
    exact f.trailer.nEntries.isLt
  have hopt := optionsSize_lt h hentries hopts hn
  have hoff : ((out.length : Int) - (sizeofTrailer : Nat) - f.trailer.compressedSize.toNat -
      f.trailer.optionsSize.toNat - f.trailer.filenameSize.toNat) = (f.layout.padded : Nat) := by
    simp only [length_getProcessedData h hentries, Layout.outSize, Layout.trailerStart,
      Layout.entries, Layout.options, SystemModeFile.trailer]
    omega
  rw [hoff, hgname] at hstring
  have hfile := filenameSize_lt h hentries hopts hn hopt hstring
  have hF := layout_filenameSize hfile
  have hO := layout_optionsSize hopt
  have hout := outSize_eq (f := f) (by omega)
  have hroom := (getProcessedData_bounds h hentries hopts).1
  have hpad := le_padTo8 (f.filename.length + 1)
  rw [toNat_sub_one (by omega)] at hroom
  exact ⟨hn, hfile, hopt, by simp only [sizeofTrailer]; omega⟩

end Needs

/-! ### Adding entries -/

/-- The number of entries that a sequence of `addEntry` calls leaves: one more than the highest
index. -/
def entryCount (calls : List (BitVec 32 × BitVec 64)) : Nat :=
  calls.foldr (fun call n => max (call.1.toNat + 1) n) 0

@[simp] theorem length_resize (l : List (BitVec 64)) (n : Nat) : (resize l n).length = n := by
  simp only [resize, List.length_append, List.length_take, List.length_replicate]
  omega

/-- An entry is stored exactly when one more than its index does not wrap. -/
theorem addEntry_eq_some {f g : SystemModeFile} {index : BitVec 32} {v : BitVec 64}
    (hf : f.entries.length < 2 ^ 32) (h : f.addEntry index v = some g) :
    index.toNat + 1 < 2 ^ 32 ∧ g.entries.length = max f.entries.length (index.toNat + 1) ∧
      g.filename = f.filename ∧ g.options = f.options ∧ g.id = f.id ∧ g.data = f.data := by
  have hindex := index.isLt
  have hwrap : (index + 1).toNat = (index.toNat + 1) % 2 ^ 32 := by
    rw [BitVec.toNat_add, show (1 : BitVec 32).toNat = 1 from rfl]
  unfold SystemModeFile.addEntry at h
  obtain ⟨hlt, hg⟩ := Option.ite_none_right_eq_some.mp h
  obtain rfl := Option.some.inj hg
  by_cases hgrow : f.entries.length ≤ index.toNat
  · simp only [hgrow, if_true, length_resize, hwrap] at hlt
    simp only [hgrow, if_true, List.length_set, length_resize, hwrap, and_self, and_true]
    omega
  · simp only [hgrow, if_false, List.length_set, and_self, and_true]
    omega

theorem addEntry_isSome (f : SystemModeFile) {index : BitVec 32} (v : BitVec 64)
    (h : index.toNat + 1 < 2 ^ 32) : ∃ g, f.addEntry index v = some g := by
  have hwrap : (index + 1).toNat = index.toNat + 1 := by
    rw [BitVec.toNat_add, show (1 : BitVec 32).toNat = 1 from rfl]; omega
  refine ⟨_, if_pos ?_⟩
  split
  · rw [length_resize, hwrap]
    omega
  · omega

theorem addEntries_eq_some {f g : SystemModeFile} {calls : List (BitVec 32 × BitVec 64)}
    (hf : f.entries.length < 2 ^ 32) (h : f.addEntries calls = some g) :
    g.entries.length = max f.entries.length (entryCount calls) ∧
      g.filename = f.filename ∧ g.options = f.options ∧ g.id = f.id ∧ g.data = f.data := by
  induction calls generalizing f with
  | nil =>
    cases h
    simp [entryCount]
  | cons call calls ih =>
    simp only [SystemModeFile.addEntries, List.foldlM_cons, Option.bind_eq_bind,
      Option.bind_eq_some_iff] at h ih
    obtain ⟨f1, h1, h⟩ := h
    obtain ⟨hlt, hlen, hname, hopts, hid, hdata⟩ := addEntry_eq_some hf h1
    have := ih (by omega) h
    rw [hlen, hname, hopts, hid, hdata] at this
    refine ⟨?_, this.2⟩
    rw [this.1, max_assoc]
    rfl

theorem addEntries_isSome (f : SystemModeFile) (calls : List (BitVec 32 × BitVec 64))
    (h : entryCount calls < 2 ^ 32) : ∃ g, f.addEntries calls = some g := by
  induction calls generalizing f with
  | nil => exact ⟨f, rfl⟩
  | cons call calls ih =>
    simp only [entryCount, List.foldr_cons, max_lt_iff] at h
    obtain ⟨f1, h1⟩ := addEntry_isSome f call.2 h.1
    obtain ⟨g, hg⟩ := ih f1 h.2
    refine ⟨g, ?_⟩
    simp only [SystemModeFile.addEntries, List.foldlM_cons, Option.bind_eq_bind, h1,
      Option.bind_some]
    exact hg

/-! ### The round trip -/

/-- The processed data of a raw file with the entries of `calls` decodes, from a buffer at address
`base`, to a file with the same id, names and entries, and starts with the raw file. -/
def RoundTrips (host : Endian) (base : Nat) (id : BitVec 32) (filename options raw : List Byte)
    (calls : List (BitVec 32 × BitVec 64)) : Prop :=
  ∃ f0 f out g, fromRawFile id filename options raw = some f0 ∧ f0.addEntries calls = some f ∧
    f.getProcessedData host = some out ∧ fromProcessedFile host base out = .ok g ∧
    g.id = f.id ∧ g.filename = f.filename ∧ g.options = f.options ∧ g.entries = f.entries ∧
    out.take raw.length = raw

/-- The file that `fromRawFile` and a sequence of `addEntry` calls build. -/
theorem addEntries_fromRawFile {id : BitVec 32} {filename options raw : List Byte}
    {calls : List (BitVec 32 × BitVec 64)} {f0 f : SystemModeFile}
    (h0 : fromRawFile id filename options raw = some f0) (h : f0.addEntries calls = some f) :
    f.entries.length = entryCount calls ∧ f.filename = filename ∧ f.options = options ∧
      f.id = id ∧ f.data = raw := by
  unfold fromRawFile at h0
  split at h0
  · cases h0
  · cases h0
    simpa using addEntries_eq_some (by simp) h

theorem entryCount_pos {calls : List (BitVec 32 × BitVec 64)} (h : calls ≠ []) :
    0 < entryCount calls := by
  cases calls with
  | nil => exact absurd rfl h
  | cons call calls => simp [entryCount]

/-- The round trip succeeds exactly when the number of entries fits the 16-bit field of the
trailer, the padded sizes of the strings fit its 32-bit fields, and the byte that
`getProcessedData` clears at the size of the file name behind the start of the options still lies
inside the block. -/
theorem roundTrips_iff (host : Endian) {base : Nat} (id : BitVec 32)
    {filename options raw : List Byte} {calls : List (BitVec 32 × BitVec 64)}
    (hbase : base % 8 = 0) (hraw : raw ≠ []) (hname : 0 ∉ filename) (hopts : 0 ∉ options)
    (hcalls : calls ≠ []) :
    RoundTrips host base id filename options raw calls ↔
      entryCount calls < 65536 ∧ padTo8 (filename.length + 1) < 2 ^ 32 ∧
      padTo8 (options.length + 1) < 2 ^ 32 ∧ padTo8 (filename.length + 1) ≤
        padTo8 (options.length + 1) + 8 * entryCount calls + sizeofTrailer := by
  have hpos := entryCount_pos hcalls
  constructor
  · rintro ⟨f0, f, out, g, h0, hadd, hdata, hparse, -, hgname, -, hgentries, -⟩
    obtain ⟨hlen, rfl, rfl, -, -⟩ := addEntries_fromRawFile h0 hadd
    have hfit := fits_of_roundTrip hopts (List.ne_nil_of_length_pos (by omega)) hdata hparse hgname
      hgentries
    exact ⟨hlen ▸ hfit.entries, hfit.filename, hfit.options, hlen ▸ hfit.terminator⟩
  · rintro ⟨hcount, hF, hO, hterm⟩
    obtain ⟨f0, h0⟩ : ∃ f0, fromRawFile id filename options raw = some f0 := by
      exact ⟨_, if_neg (by simpa using hraw)⟩
    obtain ⟨f, hadd⟩ := addEntries_isSome f0 calls (by omega)
    obtain ⟨hlen, rfl, rfl, rfl, rfl⟩ := addEntries_fromRawFile h0 hadd
    have hfit : f.Fits := ⟨by omega, hF, hO, by rw [hlen]; exact hterm⟩
    refine ⟨f0, f, f.image host, _, h0, hadd, getProcessedData_eq_image host hfit
      (List.ne_nil_of_length_pos (by omega)) hname hopts,
      fromProcessedFile_image host hbase hfit hname hopts, rfl, rfl, rfl, rfl, ?_⟩
    simp [SystemModeFile.image]

/-- A file of one byte with three entries. -/
theorem roundTrips_iff_small : RoundTrips .little 0 7 (ascii "/a") (ascii " ") [1] [(2, 5), (0, 9)] :=
  (roundTrips_iff .little 7 (by decide) (by decide) (by decide) (by decide) (by decide)).mpr
    (by decide)

/-- With 65536 entries the count in the trailer is 0. -/
theorem not_roundTrips_65536 : ¬RoundTrips .little 0 7 (ascii "/a") (ascii " ") [1] [(65535, 5)] := by
  rintro ⟨f0, f, out, g, h0, hadd, hdata, hparse, -, hgname, -, hgentries, -⟩
  obtain ⟨hlen, hfname, hfopts, -, -⟩ := addEntries_fromRawFile h0 hadd
  have hcount : f.entries.length = 65536 := hlen
  have hfit := fits_of_roundTrip (by rw [hfopts]; decide)
    (List.ne_nil_of_length_pos (by omega)) hdata hparse hgname hgentries
  have := hfit.entries
  omega

end Kcov.SystemMode
