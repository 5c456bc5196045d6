import Kcov.Lib.Counting
import Kcov.Reporter.Links

/-! The size of the coverage database: the block that is allocated for it, and what is written into
the block. -/

namespace Kcov

open Bytes

/-- `Line::marshalSize`: the addresses with hits are counted in 32 bits. -/
def Line.marshalSize (l : Line) : U64 :=
  let n : U32 := l.addrs.foldl (fun n p => if p.2 = 0 then n else n + 1) 0
  n.setWidth 64 * 8 * 4

/-- `File::marshalSize`, as a `size_t`. -/
def File.blockSize (f : File) : U64 :=
  f.lines.reduceOption.foldl (fun out line => out + line.marshalSize) 0

namespace Reporter

/-- `getMarshalSize`, as a `size_t`. -/
def blockSize (s : Reporter) (it : IterationOrder) : U64 :=
  (s.filesInOrder it).foldl (fun out f => out + f.blockSize) 0 *
    BitVec.ofNat 64 marshalEntrySize + BitVec.ofNat 64 marshalHeaderSize

/-- What `marshalHeader` and the loops over files, lines and addresses write, one behind the
other. -/
def written (cfg : ReporterSetup) (s : Reporter) (it : IterationOrder) : List Byte :=
  marshalHeader cfg ++ (s.entries it).flatMap Entry.encode

/-- `coverage.db`: the block of zeroes, with what is written into it. -/
def coverageDb (cfg : ReporterSetup) (s : Reporter) (it : IterationOrder) : List Byte :=
  let sz := (s.blockSize it).toNat
  (s.written cfg it ++ zeros sz).take sz

/-- One entry for each address with hits, line by line. -/
def ListsHits (cfg : ReporterSetup) (s : Reporter) (es : List Entry) : Prop :=
  ∃ refs : List LineRef, refs.Nodup ∧ (∀ ref, s.counts ref ≠ [] → ref ∈ refs) ∧
    es = refs.flatMap fun ref => entriesOf (cfg.lineId ref) (s.counts ref)

/-- The block is as large as what is written, and the database is the header and the entries. -/
structure SizedExactly (cfg : ReporterSetup) (s : Reporter) (it : IterationOrder) : Prop where
  size : (s.written cfg it).length = (s.blockSize it).toNat
  content : ∃ es, ListsHits cfg s es ∧
    s.coverageDb cfg it = marshalHeader cfg ++ es.flatMap Entry.encode

/-! ### The two sizes -/

section Sizes

variable {cfg : ReporterSetup} {s t : Reporter} {it : IterationOrder}

/-- The numbers of entries of the lines. -/
def entryCounts (s : Reporter) (it : IterationOrder) : List Nat :=
  (s.filesInOrder it).flatMap fun f => f.lines.reduceOption.map fun line => line.entries.length

theorem length_entries : (s.entries it).length = (s.entryCounts it).sum := by
  rw [entries, entryCounts]
  induction s.filesInOrder it with
  | nil => rfl
  | cons f fs ih =>
    rw [List.flatMap_cons, List.flatMap_cons, List.length_append, List.sum_append, ih,
      File.entries, List.length_flatMap]

theorem length_written :
    (s.written cfg it).length = marshalHeaderSize + marshalEntrySize * (s.entryCounts it).sum := by
  rw [written, List.length_append, length_marshalHeader, length_flatMap_encode, length_entries]

theorem length_line_entries (l : Line) : l.entries.length = l.addrs.countP fun p => p.2 != 0 := by
  have hzip : l.addrs.countP (fun p => p.2 != 0) =
      l.addrs.zipIdx.countP fun x : (U64 × U32) × Nat => x.1.2 != 0 := by
    conv_lhs => rw [← List.zipIdx_map_fst 0 l.addrs, List.countP_map]
    rfl
  rw [Line.entries, List.length_filterMap_eq_countP, hzip]
  apply List.countP_congr
  rintro ⟨p, i⟩ -
  by_cases hp : p.2 = 0 <;> simp [hp]

theorem marshalSize_eq (l : Line) :
    l.marshalSize = BitVec.ofNat 64 (marshalEntrySize * (l.entries.length % 2 ^ 32)) := by
  have hcount : l.addrs.foldl (fun (n : U32) p => if p.2 = 0 then n else n + 1) 0 =
      BitVec.ofNat 32 l.entries.length := by
    have hflip : (fun (n : U32) (p : U64 × U32) => if p.2 = 0 then n else n + 1) =
        fun n p => if p.2 != 0 then n + 1 else n := by
      funext n p
      by_cases hp : p.2 = 0 <;> simp [hp]
    rw [hflip, Counting.foldl_count, length_line_entries]
    exact BitVec.zero_add _
  rw [Line.marshalSize, hcount]
  apply BitVec.eq_of_toNat_eq
  simp only [BitVec.toNat_mul, BitVec.toNat_setWidth, BitVec.toNat_ofNat, marshalEntrySize,
    show (8 : U64).toNat = 8 from rfl, show (4 : U64).toNat = 4 from rfl]
  omega

/-- A sum of words that stand for numbers. -/
theorem foldl_add_ofNat {α : Type} {size : α → U64} {n : α → Nat}
    (h : ∀ x, size x = BitVec.ofNat 64 (n x)) (xs : List α) :
    xs.foldl (fun out x => out + size x) 0 = BitVec.ofNat 64 (xs.map n).sum := by
  induction xs using List.reverseRecOn with
  | nil => rfl
  | append_singleton xs x ih =>
    rw [List.foldl_append, ih, List.map_append, List.sum_append, BitVec.ofNat_add,
      List.map_singleton, List.sum_singleton, ← h]
    rfl

/-- What is left of the numbers of entries in the counters. -/
def counted (counts : List Nat) : Nat := (counts.map (· % 2 ^ 32)).sum

theorem toNat_blockSize : (s.blockSize it).toNat =
    (marshalEntrySize * (marshalEntrySize * counted (s.entryCounts it)) + marshalHeaderSize) %
      2 ^ 64 := by
  have hfile : ∀ f : File, f.blockSize = BitVec.ofNat 64 (marshalEntrySize *
      counted (f.lines.reduceOption.map fun line => line.entries.length)) := by
    intro f
    rw [File.blockSize, foldl_add_ofNat marshalSize_eq, counted, List.map_map,
      ← List.sum_map_mul_left]
    rfl
  have hsum : ((s.filesInOrder it).map fun f => marshalEntrySize *
      counted (f.lines.reduceOption.map fun line => line.entries.length)).sum =
        marshalEntrySize * counted (s.entryCounts it) := by
    rw [entryCounts]
    induction s.filesInOrder it with
    | nil => rfl
    | cons f fs ih =>
      rw [List.map_cons, List.sum_cons, ih, List.flatMap_cons, counted, counted, counted,
        List.map_append, List.sum_append, Nat.mul_add]
  rw [blockSize, foldl_add_ofNat hfile, hsum]
  simp only [BitVec.toNat_add, BitVec.toNat_mul, BitVec.toNat_ofNat, marshalEntrySize,
    marshalHeaderSize]
  omega

theorem counted_le (counts : List Nat) : counted counts ≤ counts.sum := by
  induction counts with
  | nil => simp [counted]
  | cons n counts ih =>
    simp only [counted, List.map_cons, List.sum_cons] at ih ⊢
    omega

theorem counted_eq {counts : List Nat} (h : counts.sum < 2 ^ 32) :
    counted counts = counts.sum := by
  induction counts with
  | nil => rfl
  | cons n counts ih =>
    rw [List.sum_cons] at h
    have hrest := ih (by omega)
    simp only [counted, List.map_cons, List.sum_cons] at hrest ⊢
    omega

/-- So many addresses have hits that a counter may wrap around, and what is left of the counters
comes to the number of hit addresses over the size of an entry. -/
def CountersMatch (s : Reporter) (it : IterationOrder) : Prop :=
  2 ^ 32 ≤ (s.entryCounts it).sum ∧
    marshalEntrySize * counted (s.entryCounts it) % 2 ^ 59 = (s.entryCounts it).sum

theorem size_iff : (s.written cfg it).length = (s.blockSize it).toNat ↔
    (s.entryCounts it).sum = 0 ∨ s.CountersMatch it := by
  have hle := counted_le (s.entryCounts it)
  have heq := @counted_eq (s.entryCounts it)
  rw [length_written, toNat_blockSize, CountersMatch]
  generalize counted (s.entryCounts it) = left at *
  generalize (s.entryCounts it).sum = n at *
  simp only [marshalEntrySize, marshalHeaderSize]
  constructor
  · intro h
    by_cases hn : n < 2 ^ 32
    · have := heq hn
      omega
    · right
      omega
  · rintro (rfl | ⟨hn, h⟩)
    · obtain rfl : left = 0 := by omega
      rfl
    · omega

end Sizes

/-! ### The contents -/

section Contents

variable {cfg : ReporterSetup} {s t : Reporter} {it : IterationOrder} {calls : List Call}

theorem reduceOption_flatMap_range {α β : Type} (g : α → List β) (l : List (Option α)) :
    l.reduceOption.flatMap g =
      (List.range l.length).flatMap fun i => (l[i]?.join.map g).getD [] := by
  induction l with
  | nil => rfl
  | cons o l ih =>
    rw [List.length_cons, List.range_succ_eq_map, List.flatMap_cons, List.flatMap_map]
    simp only [List.getElem?_cons_succ, Nat.succ_eq_add_one]
    rw [← ih]
    cases o with
    | none => simp [List.reduceOption_cons_of_none]
    | some x => simp [List.reduceOption_cons_of_some]

/-- The positions for which a file has room. -/
def refsOf (s : Reporter) (f : Text) : List LineRef :=
  ((s.files f).map fun file =>
    (List.range file.lines.length).map fun i => ⟨f, BitVec.ofNat 32 i⟩).getD []

theorem mem_refsOf {f : Text} {ref : LineRef} (href : ref ∈ s.refsOf f) : ref.file = f := by
  rw [refsOf] at href
  cases hfile : s.files f with
  | none => simp [hfile] at href
  | some file =>
    rw [hfile, Option.map_some, Option.getD_some, List.mem_map] at href
    obtain ⟨i, -, rfl⟩ := href
    rfl

theorem nodup_refsOf (hs : Sized cfg s) (f : Text) : (s.refsOf f).Nodup := by
  rw [refsOf]
  cases hfile : s.files f with
  | none => simp
  | some file =>
    have hsize := (hs f file.lines.length (by rw [sizeOf?, hfile]; rfl)).1
    rw [Option.map_some, Option.getD_some]
    refine (List.nodup_map_iff_inj_on List.nodup_range).mpr fun i hi j hj heq => ?_
    have hnr := congrArg BitVec.toNat (LineRef.mk.inj heq).2
    rw [List.mem_range] at hi hj
    simp only [BitVec.toNat_ofNat] at hnr
    omega

theorem entries_file (hwf : s.WellFormed cfg) (hs : Sized cfg s) (f : Text) :
    ((s.files f).map File.entries).getD [] =
      (s.refsOf f).flatMap fun ref => entriesOf (cfg.lineId ref) (s.counts ref) := by
  rw [refsOf]
  cases hfile : s.files f with
  | none => rfl
  | some file =>
    have hsize := (hs f file.lines.length (by rw [sizeOf?, hfile]; rfl)).1
    rw [Option.map_some, Option.getD_some, Option.map_some, Option.getD_some, File.entries,
      reduceOption_flatMap_range, List.flatMap_map]
    apply List.flatMap_congr
    intro i hi
    rw [List.mem_range] at hi
    have hline : s.line? ⟨f, BitVec.ofNat 32 i⟩ = file.lines[i]?.join := by
      rw [line?, hfile, Option.bind_some, File.getLine, BitVec.toNat_ofNat,
        Nat.mod_eq_of_lt (by omega)]
    rw [counts, hline]
    cases hget : file.lines[i]?.join with
    | none => rfl
    | some line =>
      rw [hget] at hline
      rw [← hwf.lineId _ line hline]
      rfl

/-- The entries that are written are those of the addresses with hits. -/
theorem listsHits_entries (hwf : s.WellFormed cfg) (hs : Sized cfg s) :
    ListsHits cfg s (s.entries it) := by
  refine ⟨(it.order s.fileNames).flatMap s.refsOf, ?_, fun ref href => ?_, ?_⟩
  · refine List.nodup_flatMap.mpr ⟨fun f _ => nodup_refsOf hs f, ?_⟩
    refine ((it.perm _).nodup_iff.mpr hwf.names_nodup).imp fun hne => ?_
    exact fun ref href href' => hne ((mem_refsOf href).symm.trans (mem_refsOf href'))
  · obtain ⟨p, hp⟩ := List.exists_mem_of_ne_nil _ href
    obtain ⟨i, hi⟩ := List.mem_iff_getElem?.mp hp
    obtain ⟨line, hline, -⟩ := line?_of_counts hi
    obtain ⟨file, hfile, hget⟩ := Option.bind_eq_some_iff.mp hline
    rw [File.getLine, Option.join_eq_some_iff] at hget
    obtain ⟨hlt, -⟩ := List.getElem?_eq_some_iff.mp hget
    refine List.mem_flatMap.mpr ⟨ref.file, ?_, ?_⟩
    · rw [(it.perm _).mem_iff, hwf.mem_names, hfile]
      rfl
    · rw [refsOf, hfile, Option.map_some, Option.getD_some]
      exact List.mem_map.mpr ⟨ref.lineNr.toNat, List.mem_range.mpr hlt, by simp⟩
  · rw [entries_eq_flatMap, List.flatMap_assoc]
    apply List.flatMap_congr
    exact fun f _ => entries_file hwf hs f

theorem sum_entryCounts_eq_zero (hwf : s.WellFormed cfg) (hs : Sized cfg s) :
    (s.entryCounts it).sum = 0 ↔ ∀ ref, ∀ p ∈ s.counts ref, p.2 = 0 := by
  rw [← length_entries, List.length_eq_zero_iff, List.eq_nil_iff_forall_not_mem]
  constructor
  · intro h ref p hp
    by_contra hne
    obtain ⟨i, hi⟩ := List.mem_iff_getElem?.mp hp
    exact h _ ((mem_entries hwf hs).mpr ⟨ref, mem_entriesOf.mpr ⟨i, p, hi, hne, rfl⟩⟩)
  · intro h e he
    obtain ⟨ref, href⟩ := (mem_entries hwf hs).mp he
    obtain ⟨i, p, hi, hne, -⟩ := mem_entriesOf.mp href
    exact hne (h ref p (List.mem_of_getElem? hi))

/-! ### Runs -/

theorem sized_call (hwf : s.WellFormed cfg) (hs : Sized cfg s) {c : Call}
    (h : s.call cfg c = some t) : Sized cfg t := by
  match c with
  | .event ev => exact (step_sized hwf hs h).1
  | .unMarshal data =>
    rw [call, Option.map_eq_some_iff] at h
    obtain ⟨⟨u, found⟩, hload, rfl⟩ := h
    obtain ⟨-, rfl⟩ := unMarshal_eq_some hload
    cases found with
    | false => exact hs
    | true => exact hs.congr (sameLayout_foldl_loadEntry _ s).sizeOf?

theorem runCalls_sized (h : runCalls cfg calls = some s) : s.WellFormed cfg ∧ Sized cfg s :=
  Runs.foldlM_invariant (I := fun s => s.WellFormed cfg ∧ Sized cfg s)
    (fun _ _ _ hs hcall => ⟨(linkStep_call hs.1 hcall).wellFormed, sized_call hs.1 hs.2 hcall⟩)
    ⟨wellFormed_create cfg, fun f size hsize => by simp [sizeOf?, create] at hsize⟩ h

/-- The size is exact as long as there is nothing to store: it is computed in bytes and then taken
for a number of entries. -/
theorem sizedExactly_iff (h : runCalls cfg calls = some s) : SizedExactly cfg s it ↔
    (∀ ref, ∀ p ∈ s.counts ref, p.2 = 0) ∨ s.CountersMatch it := by
  obtain ⟨hwf, hs⟩ := runCalls_sized h
  rw [← @sum_entryCounts_eq_zero cfg s it hwf hs, ← @size_iff cfg]
  refine ⟨fun hsized => hsized.size, fun hsize => ?_⟩
  refine ⟨hsize, s.entries it, listsHits_entries hwf hs, ?_⟩
  rw [coverageDb, ← hsize, List.take_left]
  rfl

end Contents

/-- Two lines, and a hit of an address that belongs to neither of them. -/
def noHit : List Call :=
  [.event (.line (ascii "/a") 1 0x10), .event (.line (ascii "/a") 2 0x20), .event (.hit 0x30 1)]

theorem sizedExactly_iff_noHit : ∃ s, runCalls compiledSetup noHit = some s ∧
    SizedExactly compiledSetup s foundOrder := by
  obtain ⟨s, hs, hsum⟩ : ∃ s, runCalls compiledSetup noHit = some s ∧
      (s.entryCounts foundOrder).sum = 0 := ⟨_, rfl, by decide⟩
  obtain ⟨hwf, hsized⟩ := runCalls_sized hs
  exact ⟨s, hs, (sizedExactly_iff hs).mpr (Or.inl ((sum_entryCounts_eq_zero hwf hsized).mp hsum))⟩

/-- One hit, for which a block of 32 entries is allocated. -/
def oneHit : List Call := [.event (.line (ascii "/a") 1 0x10), .event (.hit 0x10 1)]

theorem not_sizedExactly_oneHit : ∃ s, runCalls compiledSetup oneHit = some s ∧
    (s.written compiledSetup foundOrder).length = 16 + 32 ∧ s.blockSize foundOrder = 16 + 32 * 32 ∧
      ¬SizedExactly compiledSetup s foundOrder := by
  refine ⟨_, rfl, by decide, by decide, fun h => ?_⟩
  have hsize := h.size
  revert hsize
  decide

end Reporter

end Kcov
