import Kcov.Reporter.Database

/-! Taking in a database: which bytes are read, and what comes of the entries. -/

namespace Kcov

open Bytes

section Fields

variable {data : List Byte} {off : Nat}

theorem bigAt_of_le {n : Nat} (h : off + n ≤ data.length) :
    bigAt data off n = some (field .big data off n) := by
  rw [bigAt, Bytes.read, if_pos h, Option.map_some, field]

theorem bigAt_of_lt {n : Nat} (h : data.length < off + n) : bigAt data off n = none := by
  rw [bigAt, Bytes.read, if_neg (Nat.not_le.mpr h), Option.map_none]

theorem Line.unMarshal_of_le (h : off + marshalEntrySize ≤ data.length) :
    Line.unMarshal data off = some (Entry.decode (data.drop off)) := by
  rw [marshalEntrySize] at h
  simp only [Line.unMarshal, bigAt_of_le (show off + 8 ≤ data.length by omega),
    bigAt_of_le (show off + 8 + 8 ≤ data.length by omega),
    bigAt_of_le (show off + 16 + 8 ≤ data.length by omega),
    bigAt_of_le (show off + 24 + 8 ≤ data.length by omega), Option.bind_eq_bind, Option.bind_some,
    Option.pure_def, Entry.decode, field, List.drop_drop, Nat.add_zero]

end Fields

namespace Reporter

/-! ### The header -/

/-- The magic number of a database. -/
def magicOf (data : List Byte) : U32 := BitVec.ofNat 32 (field .big data 0 4)

def versionOf (data : List Byte) : U32 := BitVec.ofNat 32 (field .big data 4 4)

def checksumOf (data : List Byte) : U64 := BitVec.ofNat 64 (field .big data 8 8)

/-- The three fields of a header that belongs to the parser. -/
structure HeaderMatches (cfg : ReporterSetup) (data : List Byte) : Prop where
  magic : magicOf data = kcovMagic
  version : versionOf data = kcovDbVersion
  checksum : checksumOf data = cfg.checksum

section Header

variable {cfg : ReporterSetup} {data : List Byte}

theorem unMarshalHeader_short (h : data.length < 4) : unMarshalHeader cfg data = none := by
  rw [unMarshalHeader, bigAt_of_lt (by omega)]
  rfl

theorem unMarshalHeader_magic (h : 4 ≤ data.length) (hmagic : magicOf data ≠ kcovMagic) :
    unMarshalHeader cfg data = some false := by
  rw [magicOf] at hmagic
  rw [unMarshalHeader, bigAt_of_le (by omega), Option.bind_eq_bind, Option.bind_some, if_pos hmagic]
  rfl

/-- Behind the right magic number the version is read. -/
theorem unMarshalHeader_version (h : 4 ≤ data.length) (hmagic : magicOf data = kcovMagic) :
    unMarshalHeader cfg data =
      if data.length < 8 then none
      else if versionOf data ≠ kcovDbVersion then some false
      else if data.length < marshalHeaderSize then none
      else some (checksumOf data = cfg.checksum) := by
  rw [magicOf] at hmagic
  rw [unMarshalHeader, bigAt_of_le (by omega), Option.bind_eq_bind, Option.bind_some,
    if_neg (not_not_intro hmagic), marshalHeaderSize]
  by_cases h8 : data.length < 8
  · rw [if_pos h8, bigAt_of_lt (by omega), Option.bind_none]
  rw [if_neg h8, bigAt_of_le (by omega), Option.bind_some, ← versionOf]
  by_cases hversion : versionOf data ≠ kcovDbVersion
  · rw [if_pos hversion, if_pos hversion]
    rfl
  rw [if_neg hversion, if_neg hversion]
  by_cases h16 : data.length < 16
  · rw [if_pos h16, bigAt_of_lt (by omega), Option.bind_none]
  rw [if_neg h16, bigAt_of_le (by omega), Option.bind_some, ← checksumOf]
  by_cases hchecksum : checksumOf data = cfg.checksum
  · simp [hchecksum]
  · simp [hchecksum]

/-- A whole header is compared with what the parser expects. -/
theorem unMarshalHeader_eq_some (h : marshalHeaderSize ≤ data.length) :
    ∃ found, unMarshalHeader cfg data = some found ∧ (found = true ↔ HeaderMatches cfg data) := by
  rw [marshalHeaderSize] at h
  by_cases hmagic : magicOf data = kcovMagic
  · rw [unMarshalHeader_version (by omega) hmagic, if_neg (by omega)]
    by_cases hversion : versionOf data = kcovDbVersion
    · rw [if_neg (not_not_intro hversion), marshalHeaderSize, if_neg (Nat.not_lt.mpr h)]
      refine ⟨_, rfl, ?_⟩
      rw [decide_eq_true_iff]
      exact ⟨fun hchecksum => ⟨hmagic, hversion, hchecksum⟩, HeaderMatches.checksum⟩
    · rw [if_pos hversion]
      exact ⟨_, rfl, iff_of_false Bool.false_ne_true fun h => hversion h.version⟩
  · rw [unMarshalHeader_magic (by omega) hmagic]
    exact ⟨_, rfl, iff_of_false Bool.false_ne_true fun h => hmagic h.magic⟩

theorem unMarshalHeader_eq_true :
    unMarshalHeader cfg data = some true ↔
      marshalHeaderSize ≤ data.length ∧ HeaderMatches cfg data := by
  by_cases h : marshalHeaderSize ≤ data.length
  · obtain ⟨found, hfound, hiff⟩ := @unMarshalHeader_eq_some cfg data h
    rw [hfound, Option.some_inj, hiff, and_iff_right h]
  · refine iff_of_false (fun hfound => ?_) fun hand => h hand.1
    rcases Nat.lt_or_ge data.length 4 with h4 | h4
    · rw [unMarshalHeader_short h4] at hfound
      cases hfound
    by_cases hmagic : magicOf data = kcovMagic
    · rw [unMarshalHeader_version h4 hmagic, if_pos (Nat.lt_of_not_le h)] at hfound
      split at hfound
      · cases hfound
      split at hfound <;> cases hfound
    · rw [unMarshalHeader_magic h4 hmagic] at hfound
      cases hfound

end Header

/-! ### The entries -/

section Entries

variable {cfg : ReporterSetup} {data : List Byte}

/-- The loop stays inside as many whole entries as there are. -/
theorem loadEntries_eq {n off : Nat} (h : off + marshalEntrySize * n ≤ data.length) (s : Reporter) :
    loadEntries cfg data n off s =
      some ((decodeEntries n (data.drop off)).foldl (loadEntry cfg) s) := by
  induction n generalizing off s with
  | zero => rfl
  | succ n ih =>
    rw [Nat.mul_succ] at h
    rw [loadEntries, Line.unMarshal_of_le (by omega), Option.bind_eq_bind, Option.bind_some,
      ih (by omega), decodeEntries, List.foldl_cons, List.drop_drop]

theorem unMarshal_eq (s : Reporter) :
    s.unMarshal cfg data = (unMarshalHeader cfg data).map fun found =>
      (if found then (databaseEntries data).foldl (loadEntry cfg) s else s, found) := by
  rw [unMarshal]
  cases hfound : unMarshalHeader cfg data with
  | none => rfl
  | some found =>
    cases found with
    | false => rfl
    | true =>
      obtain ⟨hlen, -⟩ := unMarshalHeader_eq_true.mp hfound
      have hn := Nat.mul_div_le (data.length - marshalHeaderSize) marshalEntrySize
      simp only [Option.bind_eq_bind, Option.bind_some, Bool.not_true, Bool.false_eq_true, if_false,
        Option.map_some, if_true]
      rw [loadEntries_eq (by omega), Option.bind_some, databaseEntries]
      rfl

theorem unMarshal_eq_some {s t : Reporter} {found : Bool}
    (h : s.unMarshal cfg data = some (t, found)) : unMarshalHeader cfg data = some found ∧
      t = if found then (databaseEntries data).foldl (loadEntry cfg) s else s := by
  rw [unMarshal_eq, Option.map_eq_some_iff] at h
  obtain ⟨found', hfound, heq⟩ := h
  obtain ⟨rfl, rfl⟩ := Prod.mk.inj heq
  exact ⟨hfound, rfl⟩

theorem length_decodeEntries (n : Nat) (p : List Byte) : (decodeEntries n p).length = n := by
  induction n generalizing p with
  | zero => rfl
  | succ n ih => rw [decodeEntries, List.length_cons, ih]

theorem getElem?_decodeEntries {n i : Nat} (p : List Byte) (h : i < n) :
    (decodeEntries n p)[i]? = some (Entry.decode (p.drop (marshalEntrySize * i))) := by
  induction n generalizing i p with
  | zero => omega
  | succ n ih =>
    cases i with
    | zero => rfl
    | succ i =>
      rw [decodeEntries, List.getElem?_cons_succ, ih _ (by omega), List.drop_drop, Nat.mul_succ,
        Nat.add_comm]

end Entries

/-! ### Databases of every size -/

/-- What is expected of a database, whatever it contains: it is read up to its end at most, and
either refused as a whole or taken in entry by entry. -/
structure LoadsSafely (cfg : ReporterSetup) (s : Reporter) (data : List Byte) : Prop where
  inside : (s.unMarshal cfg data).isSome
  refused : data.length < marshalHeaderSize ∨ ¬HeaderMatches cfg data →
    s.unMarshal cfg data = some (s, false)
  loaded : marshalHeaderSize ≤ data.length → HeaderMatches cfg data →
    ∃ es : List Entry, es.length = (data.length - 16) / 32 ∧
      (∀ i < es.length, es[i]? = some (Entry.decode (data.drop (16 + 32 * i)))) ∧
      s.unMarshal cfg data = some (es.foldl (loadEntry cfg) s, true)

/-- A database is loaded safely if and only if it has a whole header, or differs in the part of the
header that it has. -/
theorem loadsSafely_iff (cfg : ReporterSetup) (s : Reporter) (data : List Byte) :
    LoadsSafely cfg s data ↔ 16 ≤ data.length ∨ (4 ≤ data.length ∧ magicOf data ≠ kcovMagic) ∨
      (8 ≤ data.length ∧ versionOf data ≠ kcovDbVersion) := by
  constructor
  · intro h
    have hinside := h.inside
    rw [unMarshal_eq, Option.isSome_map] at hinside
    rcases Nat.lt_or_ge data.length 4 with h4 | h4
    · rw [unMarshalHeader_short h4] at hinside
      cases hinside
    by_cases hmagic : magicOf data = kcovMagic
    · rw [unMarshalHeader_version h4 hmagic, marshalHeaderSize] at hinside
      split at hinside
      · cases hinside
      split at hinside
      next h8 hversion => exact Or.inr (Or.inr ⟨Nat.le_of_not_lt h8, hversion⟩)
      split at hinside
      · cases hinside
      next h16 => exact Or.inl (Nat.le_of_not_lt h16)
    · exact Or.inr (Or.inl ⟨h4, hmagic⟩)
  · intro h
    obtain ⟨found, hfound, hiff⟩ : ∃ found, unMarshalHeader cfg data = some found ∧
        (found = true ↔ marshalHeaderSize ≤ data.length ∧ HeaderMatches cfg data) := by
      have hsome : (unMarshalHeader cfg data).isSome := by
        rcases h with h16 | ⟨h4, hmagic⟩ | ⟨h8, hversion⟩
        · obtain ⟨found, hfound, -⟩ := @unMarshalHeader_eq_some cfg data h16
          rw [hfound]
          rfl
        · rw [unMarshalHeader_magic h4 hmagic]
          rfl
        · by_cases hmagic : magicOf data = kcovMagic
          · rw [unMarshalHeader_version (by omega) hmagic, if_neg (by omega), if_pos hversion]
            rfl
          · rw [unMarshalHeader_magic (by omega) hmagic]
            rfl
      obtain ⟨found, hfound⟩ := Option.isSome_iff_exists.mp hsome
      refine ⟨found, hfound, ?_⟩
      rw [← unMarshalHeader_eq_true, hfound, Option.some_inj]
    have hload := @unMarshal_eq cfg data s
    rw [hfound, Option.map_some] at hload
    refine ⟨by rw [hload]; rfl, fun hrefused => ?_, fun hlen hmatches => ?_⟩
    · have hfalse : found = false := by
        rw [Bool.eq_false_iff, ne_eq, hiff, not_and_or, Nat.not_le]
        exact hrefused
      rw [hload, hfalse]
      rfl
    · have htrue : found = true := hiff.mpr ⟨hlen, hmatches⟩
      refine ⟨databaseEntries data, length_decodeEntries _ _, fun i hi => ?_, ?_⟩
      · rw [databaseEntries, length_decodeEntries] at hi
        rw [databaseEntries, getElem?_decodeEntries _ hi, List.drop_drop]
        rfl
      · rw [hload, htrue]
        rfl

/-- A compiled program on a host without files. -/
def compiledSetup : ReporterSetup where
  host := Host.bare
  runFilters _ := true
  excludeLine := []
  excludeRegion := []
  hashFilename := true
  maxPossibleHits := .limited
  checksum := 0
  cleanOutput := false
  database := none

/-- The first half of a header is followed by bytes that are not there. -/
theorem not_loadsSafely_halfHeader : ¬LoadsSafely compiledSetup (create compiledSetup)
    [0x6b, 0x63, 0x6f, 0x76, 0, 0, 0, 6] := by
  intro h
  have hinside := h.inside
  rw [unMarshal_eq, Option.isSome_map] at hinside
  revert hinside
  decide

end Reporter

end Kcov
