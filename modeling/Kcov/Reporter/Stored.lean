import Kcov.Reporter.Bounds
import Mathlib.Algebra.BigOperators.Ring.List
import Mathlib.Data.List.ReduceOption

/-! What a written database contains. -/

namespace Kcov

open Bytes

namespace Entry

theorem length_encode (e : Entry) : e.encode.length = marshalEntrySize := by
  simp [encode, marshalEntrySize]

theorem decode_encode (e : Entry) (rest : List Byte) : decode (e.encode ++ rest) = e := by
  simp only [decode, encode, List.append_assoc, field_encode, field_skip .big _ (show 8 ≤ 8 by omega),
    field_skip .big _ (show 8 ≤ 16 by omega), field_skip .big _ (show 8 ≤ 24 by omega), Nat.sub_self,
    Nat.reduceSub, ofNat_mod_pow (show 8 * 8 = 64 from rfl)]

/-- The entry that is read where nothing was written. -/
def blank : Entry := ⟨0, 0, 0, 0⟩

theorem decode_zeros (n : Nat) : decode (zeros n) = blank := by
  have hzero : ∀ k, littleValue (zeros k) = 0 := by
    intro k
    induction k with
    | zero => rfl
    | succ k ih => rw [zeros, List.replicate_succ, littleValue, ih]; rfl
  simp only [decode, field, Endian.decode, zeros, List.drop_replicate, List.take_replicate,
    List.reverse_replicate, hzero]
  rfl

end Entry

namespace Reporter

section Bytes

variable {cfg : ReporterSetup} {s : Reporter} {it : IterationOrder}

theorem decodeEntries_zeros (n k : Nat) :
    decodeEntries n (zeros k) = List.replicate n Entry.blank := by
  induction n generalizing k with
  | zero => rfl
  | succ n ih => rw [decodeEntries, Entry.decode_zeros, zeros, List.drop_replicate, ih, List.replicate_succ]

theorem decodeEntries_encode (es : List Entry) (n k : Nat) :
    decodeEntries (es.length + n) (es.flatMap Entry.encode ++ zeros k) =
      es ++ List.replicate n Entry.blank := by
  induction es with
  | nil => simpa using decodeEntries_zeros n k
  | cons e es ih =>
    rw [List.length_cons, Nat.add_right_comm, decodeEntries, List.flatMap_cons, List.append_assoc,
      Entry.decode_encode, List.drop_left' e.length_encode, ih, List.cons_append]

theorem length_marshalHeader : (marshalHeader cfg).length = marshalHeaderSize := by
  simp [marshalHeader, marshalHeaderSize]

theorem length_flatMap_encode (es : List Entry) :
    (es.flatMap Entry.encode).length = marshalEntrySize * es.length :=
  length_flatMap_of_length Entry.length_encode es

theorem getMarshalSize_eq : s.getMarshalSize it =
    marshalHeaderSize + marshalEntrySize * (marshalEntrySize * (s.entries it).length) := by
  have hsum : ((s.filesInOrder it).map File.marshalSize).sum =
      marshalEntrySize * (s.entries it).length := by
    rw [entries, List.length_flatMap, ← List.sum_map_mul_left]
    rfl
  rw [getMarshalSize, hsum, Nat.add_comm, Nat.mul_comm (marshalEntrySize * _)]

theorem marshal_eq : s.marshal cfg it = marshalHeader cfg ++
    ((s.entries it).flatMap Entry.encode ++
      zeros (marshalEntrySize * (31 * (s.entries it).length))) := by
  rw [marshal, List.append_assoc]
  congr 3
  rw [getMarshalSize_eq, List.length_append, length_marshalHeader, length_flatMap_encode]
  simp only [marshalEntrySize]
  omega

theorem length_marshal : marshalHeaderSize ≤ (s.marshal cfg it).length := by
  rw [marshal_eq, List.length_append, length_marshalHeader]
  omega

theorem headerMatches_marshal : HeaderMatches cfg (s.marshal cfg it) := by
  rw [marshal_eq]
  constructor <;>
  simp only [magicOf, versionOf, checksumOf, marshalHeader, List.append_assoc, field_encode,
    field_skip .big _ (show 4 ≤ 4 by omega), field_skip .big _ (show 4 ≤ 8 by omega), Nat.sub_self,
    Nat.reduceSub, ofNat_mod_pow (show 8 * 8 = 64 from rfl), ofNat_mod_pow (show 8 * 4 = 32 from rfl)]

theorem unMarshalHeader_marshal : unMarshalHeader cfg (s.marshal cfg it) = some true :=
  unMarshalHeader_eq_true.mpr ⟨length_marshal, headerMatches_marshal⟩

/-- The database is read as the entries of the reporter, and blank ones behind them since the size
is too large. -/
theorem databaseEntries_marshal : databaseEntries (s.marshal cfg it) =
    s.entries it ++ List.replicate (31 * (s.entries it).length) Entry.blank := by
  have hcount : ((s.marshal cfg it).length - marshalHeaderSize) / marshalEntrySize =
      (s.entries it).length + 31 * (s.entries it).length := by
    rw [marshal_eq, List.length_append, length_marshalHeader, List.length_append,
      length_flatMap_encode, List.length_replicate]
    simp only [marshalEntrySize]
    omega
  rw [databaseEntries, hcount, marshal_eq, List.drop_left' length_marshalHeader,
    decodeEntries_encode]

end Bytes

/-! ### The entries of a reporter -/

/-- The entries of a line with the number `id`. -/
def entriesOf (id : U64) (cs : Counts) : List Entry :=
  cs.zipIdx.filterMap fun (p, i) =>
    if p.2 = 0 then none
    else some
      { addr := p.1
        lineId := id
        index := (BitVec.ofNat 32 i).setWidth 64
        hits := p.2.signExtend 64 }

section Entries

variable {cfg : ReporterSetup} {s : Reporter} {it : IterationOrder}

theorem mem_entriesOf {id : U64} {cs : Counts} {e : Entry} : e ∈ entriesOf id cs ↔
    ∃ i p, cs[i]? = some p ∧ p.2 ≠ 0 ∧
      e = ⟨p.1, id, (BitVec.ofNat 32 i).setWidth 64, p.2.signExtend 64⟩ := by
  simp only [entriesOf, List.mem_filterMap, List.mem_zipIdx_iff_getElem?,
    Option.ite_none_left_eq_some, Option.some.injEq]
  constructor
  · rintro ⟨⟨p, i⟩, hget, hne, rfl⟩
    exact ⟨i, p, hget, hne, rfl⟩
  · rintro ⟨i, p, hget, hne, rfl⟩
    exact ⟨(p, i), hget, hne, rfl⟩

theorem setWidth_signExtend (c : U32) : (c.signExtend 64).setWidth 32 = c := by
  apply BitVec.eq_of_getLsbD_eq
  intro i hi
  simp [BitVec.getElem_signExtend, hi, show i < 64 by omega]

theorem signExtend_ne_zero {c : U32} (h : c ≠ 0) : c.signExtend 64 ≠ 0 := by
  intro hz
  apply h
  rw [← setWidth_signExtend c, hz]
  rfl

theorem line?_of_getElem? (hs : Sized cfg s) {f : Text} {file : File} {i : Nat} {line : Line}
    (hfile : s.files f = some file) (hget : file.lines[i]? = some (some line)) :
    s.line? ⟨f, BitVec.ofNat 32 i⟩ = some line := by
  have hsize := (hs f file.lines.length (by rw [sizeOf?, hfile]; rfl)).1
  have hi : i < 2 ^ 32 := by
    obtain ⟨hlt, -⟩ := List.getElem?_eq_some_iff.mp hget
    omega
  rw [line?, hfile, Option.bind_some, File.getLine, BitVec.toNat_ofNat, Nat.mod_eq_of_lt hi, hget]
  rfl

theorem mem_entries (hwf : s.WellFormed cfg) (hs : Sized cfg s) {e : Entry} :
    e ∈ s.entries it ↔ ∃ ref, e ∈ entriesOf (cfg.lineId ref) (s.counts ref) := by
  simp only [entries, filesInOrder, List.mem_flatMap, List.mem_filterMap, (it.perm _).mem_iff,
    File.entries, List.reduceOption_mem_iff]
  constructor
  · rintro ⟨file, ⟨f, -, hfile⟩, line, hline, he⟩
    obtain ⟨i, hget⟩ := List.mem_iff_getElem?.mp hline
    have hlook := line?_of_getElem? hs hfile hget
    refine ⟨⟨f, BitVec.ofNat 32 i⟩, ?_⟩
    rw [counts_eq hlook, ← hwf.lineId _ _ hlook]
    exact he
  · rintro ⟨⟨f, n⟩, he⟩
    obtain ⟨i, p, hget, -⟩ := mem_entriesOf.mp he
    obtain ⟨line, hline, haddrs⟩ := line?_of_counts hget
    obtain ⟨file, hfile, hgetLine⟩ := Option.bind_eq_some_iff.mp hline
    refine ⟨file, ⟨f, (hwf.mem_names f).mpr (by rw [hfile]; rfl), hfile⟩, line, ?_, ?_⟩
    · rw [File.getLine, Option.join_eq_some_iff] at hgetLine
      exact List.mem_of_getElem? hgetLine
    · rw [← haddrs, ← hwf.lineId _ _ hline] at he
      exact he

/-- The entries in a database with hits are those of the reporter that wrote it. -/
theorem mem_databaseEntries (hwf : s.WellFormed cfg) (hs : Sized cfg s) {e : Entry} :
    e ∈ databaseEntries (s.marshal cfg it) ∧ e.hits ≠ 0 ↔
      ∃ ref, e ∈ entriesOf (cfg.lineId ref) (s.counts ref) := by
  rw [databaseEntries_marshal, List.mem_append, ← mem_entries hwf hs]
  constructor
  · rintro ⟨he | he, hhits⟩
    · exact he
    · exact absurd (by rw [(List.mem_replicate.mp he).2]; rfl) hhits
  · intro he
    obtain ⟨ref, href⟩ := (mem_entries hwf hs).mp he
    obtain ⟨i, p, -, hne, rfl⟩ := mem_entriesOf.mp href
    exact ⟨Or.inl he, signExtend_ne_zero hne⟩

theorem filter_databaseEntries (hwf : s.WellFormed cfg) (hs : Sized cfg s) :
    (databaseEntries (s.marshal cfg it)).filter (fun e => e.hits ≠ 0) = s.entries it := by
  rw [databaseEntries_marshal, List.filter_append, List.filter_eq_self.mpr,
    List.filter_eq_nil_iff.mpr, List.append_nil]
  · intro e he
    rw [(List.mem_replicate.mp he).2]
    decide
  · intro e he
    obtain ⟨r, hr⟩ := (mem_entries hwf hs).mp he
    obtain ⟨i, p, -, hne, rfl⟩ := mem_entriesOf.mp hr
    exact decide_eq_true (signExtend_ne_zero hne)

/-! ### The entries of one line -/

theorem flatMap_eq_of_unique {α β : Type} {l : List α} {g : α → List β} {x : α} (hnodup : l.Nodup)
    (hx : x ∈ l) (hother : ∀ y ∈ l, y ≠ x → g y = []) : l.flatMap g = g x := by
  obtain ⟨front, rest, rfl⟩ := List.append_of_mem hx
  have hnil : ∀ part : List α, (∀ y ∈ part, y ∈ front ++ x :: rest ∧ y ≠ x) → part.flatMap g = [] := by
    intro part hpart
    exact List.flatMap_eq_nil_iff.mpr fun y hy => hother y (hpart y hy).1 (hpart y hy).2
  rw [List.nodup_middle, List.nodup_cons, List.mem_append, not_or] at hnodup
  rw [List.flatMap_append, List.flatMap_cons, hnil front, hnil rest, List.nil_append,
    List.append_nil]
  · exact fun y hy => ⟨by simp [hy], fun h => hnodup.1.2 (h ▸ hy)⟩
  · exact fun y hy => ⟨by simp [hy], fun h => hnodup.1.1 (h ▸ hy)⟩

theorem reduceOption_flatMap {α β : Type} {l : List (Option α)} {g : α → List β} {i : Nat} {x : α}
    (hx : l[i]? = some (some x))
    (hother : ∀ j y, l[j]? = some (some y) → j ≠ i → g y = []) :
    l.reduceOption.flatMap g = g x := by
  induction l generalizing i with
  | nil => simp at hx
  | cons o l ih =>
    cases i with
    | zero =>
      obtain rfl : o = some x := by simpa using hx
      rw [List.reduceOption_cons_of_some, List.flatMap_cons, List.flatMap_eq_nil_iff.mpr,
        List.append_nil]
      intro y hy
      obtain ⟨j, hj⟩ := List.mem_iff_getElem?.mp (List.reduceOption_mem_iff.mp hy)
      exact hother (j + 1) y (by simpa using hj) (by omega)
    | succ i =>
      have hrest := ih (by simpa using hx) fun j y hj hne =>
        hother (j + 1) y (by simpa using hj) (by omega)
      cases o with
      | none => rw [List.reduceOption_cons_of_none, hrest]
      | some y =>
        rw [List.reduceOption_cons_of_some, List.flatMap_cons, hrest,
          hother 0 y rfl (by omega), List.nil_append]

/-- No two lines with addresses have the same number. -/
def DistinctIds (cfg : ReporterSetup) (s : Reporter) : Prop :=
  ∀ r r', s.counts r ≠ [] → s.counts r' ≠ [] → cfg.lineId r = cfg.lineId r' → r = r'

theorem filter_entriesOf {id id' : U64} {cs : Counts} :
    (entriesOf id' cs).filter (fun e => e.lineId = id) = if id' = id then entriesOf id cs else [] := by
  split
  next h =>
    subst h
    rw [List.filter_eq_self]
    intro e he
    obtain ⟨i, p, -, -, rfl⟩ := mem_entriesOf.mp he
    simp
  next h =>
    rw [List.filter_eq_nil_iff]
    intro e he
    obtain ⟨i, p, -, -, rfl⟩ := mem_entriesOf.mp he
    simpa using h

/-- Only the line itself has entries with its number. -/
theorem filter_line_entries (hwf : s.WellFormed cfg) (hids : DistinctIds cfg s) {ref : LineRef}
    (href : s.counts ref ≠ []) {r : LineRef} {line : Line} (hline : s.line? r = some line) :
    line.entries.filter (fun e => e.lineId = cfg.lineId ref) =
      if r = ref then entriesOf (cfg.lineId ref) (s.counts ref) else [] := by
  have hentries : line.entries = entriesOf (cfg.lineId r) (s.counts r) := by
    rw [counts_eq hline, ← hwf.lineId r line hline]
    rfl
  rw [hentries, filter_entriesOf]
  by_cases hr : r = ref
  · rw [hr, if_pos rfl, if_pos rfl]
  · rw [if_neg hr]
    split
    next hid =>
      have hnil : s.counts r = [] := by
        by_contra hne
        exact hr (hids r _ hne href hid)
      rw [hnil]
      rfl
    next => rfl

theorem entries_eq_flatMap : s.entries it = (it.order s.fileNames).flatMap
    fun f => ((s.files f).map File.entries).getD [] := by
  rw [entries, filesInOrder, List.filterMap_eq_flatMap_toList, List.flatMap_assoc]
  congr 1
  funext q
  cases s.files q <;> simp

/-- The entries with the number of a line are those of the line, in their order. -/
theorem filter_entries (hwf : s.WellFormed cfg) (hs : Sized cfg s) (hids : DistinctIds cfg s)
    {ref : LineRef} (href : s.counts ref ≠ []) :
    (s.entries it).filter (fun e => e.lineId = cfg.lineId ref) =
      entriesOf (cfg.lineId ref) (s.counts ref) := by
  obtain ⟨f, n⟩ := ref
  obtain ⟨p, hp⟩ := List.exists_mem_of_ne_nil _ href
  obtain ⟨k, hk⟩ := List.mem_iff_getElem?.mp hp
  obtain ⟨line, hline, -⟩ := line?_of_counts hk
  obtain ⟨file, hfile, hget⟩ := Option.bind_eq_some_iff.mp hline
  rw [File.getLine, Option.join_eq_some_iff] at hget
  -- The file of the line is met once, and in it the line once.
  rw [entries_eq_flatMap, List.filter_flatMap, flatMap_eq_of_unique (x := f)]
  · rw [hfile, Option.map_some, Option.getD_some, File.entries, List.filter_flatMap,
      reduceOption_flatMap hget, filter_line_entries hwf hids href hline, if_pos rfl]
    intro j l hj hne
    rw [filter_line_entries hwf hids href (line?_of_getElem? hs hfile hj), if_neg]
    intro heq
    apply hne
    have hsize := (hs f file.lines.length (by rw [sizeOf?, hfile]; rfl)).1
    obtain ⟨hlt, -⟩ := List.getElem?_eq_some_iff.mp hj
    rw [← (LineRef.mk.inj heq).2, BitVec.toNat_ofNat, Nat.mod_eq_of_lt (by omega)]
  · exact (it.perm _).nodup_iff.mpr hwf.names_nodup
  · rw [(it.perm _).mem_iff, hwf.mem_names, hfile]
    rfl
  · intro q hq hne
    cases hq' : s.files q with
    | none => rfl
    | some file' =>
      rw [Option.map_some, Option.getD_some, File.entries, List.filter_flatMap,
        List.flatMap_eq_nil_iff]
      intro l hl
      obtain ⟨j, hj⟩ := List.mem_iff_getElem?.mp (List.reduceOption_mem_iff.mp hl)
      rw [filter_line_entries hwf hids href (line?_of_getElem? hs hq' hj), if_neg]
      exact fun heq => hne (LineRef.mk.inj heq).1

end Entries

end Reporter

end Kcov
