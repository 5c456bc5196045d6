import Kcov.Merge.Records
import Kcov.Merge.RoundTrip

/-! Metadata files with any bytes: when the merge parser stays inside them or changes nothing. -/

namespace Kcov

open Bytes

/-! ### The bytes in host order -/

/-- The data with the header and those of the entries in host order that are inside. -/
def swappedEntries (e : Endian) (data : List Byte) : List Byte :=
  let header := FileData.decode .big data
  let n := header.nEntries.toNat
  skipped (fun _ => n) (unMarshalEntry e) (header.encode e ++ data.drop offsetofEntries) n

/-- The data in host order, except for entries and words of the address table that are not inside. -/
def hostOrder (e : Endian) (data : List Byte) : List Byte :=
  let table := (FileData.decode .big data).addressTableOffset.toNat
  let fd := swappedEntries e data
  skipped (wordCount e) (unMarshalWord e table) fd (fd.length / 8 + 1)

/-- The file name in the data. -/
def storedName (e : Endian) (fd : List Byte) : Text :=
  cString (fd.drop (FileData.decode e fd).fileNameOffset.toNat)

/-- `fd->entries[i]`. -/
def entryAt (e : Endian) (fd : List Byte) (i : Nat) : LineEntry :=
  LineEntry.decode e ((fd.drop (offsetofEntries + sizeofLineEntry * i)).take sizeofLineEntry)

/-- All of the entries are inside the data, and so are the words that they name. -/
def EntriesInside (e : Endian) (fd : List Byte) : Prop :=
  ∀ i < (FileData.decode e fd).nEntries.toNat,
    offsetofEntries + sizeofLineEntry * (i + 1) ≤ fd.length ∧
    ∀ ia < (entryAt e fd i).nAddresses.toNat,
      (FileData.decode e fd).addressTableOffset.toNat +
        8 * (((entryAt e fd i).addressStart + BitVec.ofNat 32 ia).toNat + 1) ≤ fd.length

/-- The parts of a metadata file are inside it: the entries and the address table that are swapped,
the file name with its terminator, and, where `parseFileData` gets to the entries, these and their
addresses. -/
structure PartsInside (e : Endian) (cfg : MergeSetup) (s : MergeParser) (data : List Byte) :
    Prop where
  entries : offsetofEntries + sizeofLineEntry * (FileData.decode .big data).nEntries.toNat ≤
    data.length
  table : 0 < wordCount e (hostOrder e data) →
    (FileData.decode .big data).addressTableOffset.toNat + 8 * wordCount e (hostOrder e data) ≤
      data.length
  name : 0 ∈ (hostOrder e data).drop (FileData.decode e (hostOrder e data)).fileNameOffset.toNat
  read : s.ignores cfg (storedName e (hostOrder e data))
      (FileData.decode e (hostOrder e data)).checksum = false →
    s.panics cfg (storedName e (hostOrder e data)) = false → EntriesInside e (hostOrder e data)

section Decoding

variable {e : Endian} {cfg : MergeSetup} {s : MergeParser} {data fd : List Byte}

theorem length_encode_append (h : offsetofEntries ≤ data.length) (header : FileData) :
    (header.encode e ++ data.drop offsetofEntries).length = data.length := by
  rw [List.length_append, FileData.length_encode, List.length_drop, Nat.add_sub_of_le h]

/-- A file is refused for its magic or version, or it is swapped exactly if the entries and the
table are inside. -/
theorem unMarshalFile_eq_ite (hlen : sizeofFileData ≤ data.length) : unMarshalFile e data =
    if (FileData.decode .big data).magic ≠ mergeMagic ∨
        (FileData.decode .big data).version ≠ mergeVersion then .error .rejected
    else if offsetofEntries + sizeofLineEntry * (FileData.decode .big data).nEntries.toNat ≤
        data.length ∧
      (0 < wordCount e (hostOrder e data) → (FileData.decode .big data).addressTableOffset.toNat +
        8 * wordCount e (hostOrder e data) ≤ data.length)
    then .ok (hostOrder e data)
    else .error .outOfBounds := by
  have hsize : sizeofFileData = 40 := rfl
  have hoffset : offsetofEntries = 36 := rfl
  have hwrite : write data 0 ((FileData.decode .big data).encode e) =
      some ((FileData.decode .big data).encode e ++ data.drop offsetofEntries) := by
    rw [write_eq_some, FileData.length_encode, Nat.zero_add, List.take_zero, List.nil_append]
    exact ⟨by omega, rfl⟩
  have hlength := @length_encode_append e data (by omega) (FileData.decode .big data)
  rw [unMarshalFile, hwrite, inBounds_some, ok_bind]
  by_cases hmagic : (FileData.decode .big data).magic = mergeMagic
  · by_cases hversion : (FileData.decode .big data).version = mergeVersion
    · rw [refuseIf_neg (not_not.mpr hmagic), ok_bind, refuseIf_neg (not_not.mpr hversion), ok_bind,
        if_neg (by simp [hmagic, hversion]), foldlM_inPlace (rewrites_unMarshalEntry e) (by decide),
        hlength]
      by_cases hentries : offsetofEntries +
          sizeofLineEntry * (FileData.decode .big data).nEntries.toNat ≤ data.length
      · rw [if_pos fun _ => hentries, ok_bind, unMarshalTable_eq_ite,
          length_skipped (rewrites_unMarshalEntry e) (by decide), hlength]
        simp only [hentries, true_and, hostOrder, swappedEntries, hlength,
          length_skipped (rewrites_unMarshalEntry e) (by decide : 0 < sizeofLineEntry)]
      · have hpos : 0 < (FileData.decode .big data).nEntries.toNat := by
          by_contra hzero
          rw [Nat.le_zero.mp (Nat.le_of_not_lt hzero)] at hentries
          omega
        rw [if_neg fun h => hentries (h hpos), if_neg fun h => hentries h.1, error_bind]
    · rw [refuseIf_neg (not_not.mpr hmagic), ok_bind, refuseIf_pos hversion, error_bind,
        if_pos (Or.inr hversion)]
  · rw [refuseIf_pos hmagic, error_bind, if_pos (Or.inl hmagic)]

theorem wordAt_staysInside (i : U32) : NeverRefuses (wordAt e fd i) ∧ (StaysInside (wordAt e fd i) ↔
    (FileData.decode e fd).addressTableOffset.toNat + 8 * (i.toNat + 1) ≤ fd.length) := by
  rw [wordAt]
  refine ⟨neverRefuses_inBounds_bind fun _ _ => neverRefuses_pure _, ?_⟩
  rw [staysInside_inBounds_bind, Nat.mul_succ, ← Nat.add_assoc, Bytes.read]
  split
  next hroom => simp [hroom]
  next hroom => simp [hroom]

theorem lineAt_staysInside (i : Nat) : NeverRefuses (lineAt e fd i) ∧ (StaysInside (lineAt e fd i) ↔
    offsetofEntries + sizeofLineEntry * (i + 1) ≤ fd.length ∧
    ∀ ia < (entryAt e fd i).nAddresses.toNat,
      (FileData.decode e fd).addressTableOffset.toNat +
        8 * (((entryAt e fd i).addressStart + BitVec.ofNat 32 ia).toNat + 1) ≤ fd.length) := by
  have hwords : ∀ entry : LineEntry, ∀ ia ∈ List.range entry.nAddresses.toNat,
      NeverRefuses (wordAt e fd (entry.addressStart + BitVec.ofNat 32 ia)) := fun _ _ _ =>
    (wordAt_staysInside _).1
  rw [lineAt]
  refine ⟨neverRefuses_inBounds_bind fun bytes _ => neverRefuses_bind
    (mapM_staysInside (hwords _)).1 fun _ => neverRefuses_pure _, ?_⟩
  rw [staysInside_inBounds_bind, Nat.mul_succ, ← Nat.add_assoc, Bytes.read]
  split
  next hroom =>
    simp only [Option.mem_def, Option.some.injEq, exists_eq_left', hroom, true_and, staysInside_bind,
      (mapM_staysInside (hwords _)).2, wordAt_staysInside, List.mem_range, staysInside_pure,
      implies_true, and_true]
    rfl
  next hroom => simp [hroom]

theorem fileNameIn_eq_ite : fileNameIn e fd =
    inBounds (if 0 ∈ fd.drop (FileData.decode e fd).fileNameOffset.toNat then
      some (storedName e fd) else none) := by
  rw [fileNameIn, cStringAt_natCast, storedName]

theorem entriesIn_staysInside : StaysInside (entriesIn e fd) ↔ EntriesInside e fd := by
  rw [entriesIn, (mapM_staysInside fun i _ => (lineAt_staysInside i).1).2]
  simp only [List.mem_range, lineAt_staysInside, EntriesInside]

/-- What `parseFileData` reads before and after it looks for the file. -/
theorem parseFileData_staysInside :
    StaysInside (do
      let fileName ← fileNameIn e fd
      let checksum := (FileData.decode e fd).checksum
      if s.ignores cfg fileName checksum then return some s
      if s.panics cfg fileName then return none
      let entries ← entriesIn e fd
      return s.parseFileData cfg { fileName, checksum, entries }) ↔
      0 ∈ fd.drop (FileData.decode e fd).fileNameOffset.toNat ∧
      (s.ignores cfg (storedName e fd) (FileData.decode e fd).checksum = false →
        s.panics cfg (storedName e fd) = false → EntriesInside e fd) := by
  rw [fileNameIn_eq_ite, staysInside_inBounds_bind]
  by_cases hname : 0 ∈ fd.drop (FileData.decode e fd).fileNameOffset.toNat
  · rw [if_pos hname]
    simp only [Option.mem_def, Option.some.injEq, exists_eq_left', hname, true_and]
    cases hignores : s.ignores cfg (storedName e fd) (FileData.decode e fd).checksum with
    | true => simp
    | false =>
      cases hpanics : s.panics cfg (storedName e fd) with
      | true => simp
      | false =>
        simp only [Bool.false_eq_true, if_false, forall_const]
        rw [← entriesIn_staysInside, staysInside_bind]
        exact and_iff_left fun _ _ => staysInside_pure _
  · rw [if_neg hname]
    refine iff_of_false (fun ⟨_, hmem, _⟩ => ?_) fun h => hname h.1
    exact absurd hmem (Option.not_mem_none _)

/-- A block is decoded inside exactly if it is too short or refused, or if the parts of it that
`parseOne` looks at are inside. -/
theorem parseBlock_staysInside {size : Nat} (hsize : size ≤ data.length) :
    StaysInside (s.parseBlock e cfg size data) ↔ (sizeofFileData ≤ size →
      (FileData.decode .big data).magic = mergeMagic →
      (FileData.decode .big data).version = mergeVersion → PartsInside e cfg s data) := by
  rw [MergeParser.parseBlock]
  by_cases hlen : size < sizeofFileData
  · rw [if_pos hlen]
    exact iff_of_true (staysInside_ok _) fun h => absurd h (Nat.not_le_of_lt hlen)
  rw [if_neg hlen, unMarshalFile_eq_ite ((Nat.le_of_not_lt hlen).trans hsize)]
  by_cases hrefused : (FileData.decode .big data).magic ≠ mergeMagic ∨
      (FileData.decode .big data).version ≠ mergeVersion
  · rw [if_pos hrefused]
    refine iff_of_true (staysInside_ok _) fun _ hmagic hversion => ?_
    exact absurd hrefused (not_or.mpr ⟨not_not.mpr hmagic, not_not.mpr hversion⟩)
  rw [if_neg hrefused]
  rw [not_or, not_not, not_not] at hrefused
  simp only [Nat.le_of_not_lt hlen, hrefused.1, hrefused.2, forall_const]
  by_cases hswapped : offsetofEntries +
      sizeofLineEntry * (FileData.decode .big data).nEntries.toNat ≤ data.length ∧
    (0 < wordCount e (hostOrder e data) → (FileData.decode .big data).addressTableOffset.toNat +
      8 * wordCount e (hostOrder e data) ≤ data.length)
  · rw [if_pos hswapped]
    refine parseFileData_staysInside.trans ⟨fun h => ?_, fun h => ⟨h.name, h.read⟩⟩
    exact { entries := hswapped.1, table := hswapped.2, name := h.1, read := h.2 }
  · rw [if_neg hswapped]
    exact iff_of_false not_staysInside fun h => hswapped ⟨h.entries, h.table⟩

end Decoding

/-! ### Files that change nothing -/

namespace MergeParser

/-- Two parsers with the same files. -/
def SameFiles (s t : MergeParser) : Prop := ∀ q, Option.Rel MergeFile.Same (s.files q) (t.files q)

/-- The record in a block leaves the files of the parser as they are: it is ignored, or it is of a
known file and moves none of its counters. -/
def MovesNothing (e : Endian) (cfg : MergeSetup) (s : MergeParser) (block : List Byte) : Prop :=
  let fileName := storedName e (hostOrder e block)
  let checksum := (FileData.decode e (hostOrder e block)).checksum
  s.ignores cfg fileName checksum = true ∨
    ∃ f entries, s.files (cfg.mangleSourcePath fileName) = some f ∧
      entriesIn e (hostOrder e block) = .ok entries ∧
      f.Unmoved (Record.words { fileName, checksum, entries })

section Unchanged

variable {e : Endian} {cfg : MergeSetup} {s t : MergeParser} {r : Record} {data : List Byte}

theorem SameFiles.refl (s : MergeParser) : s.SameFiles s := by
  intro q
  cases s.files q with
  | none => exact .none
  | some f => exact .some ⟨rfl, rfl, fun _ => Iff.rfl, fun _ _ => rfl, fun _ => rfl⟩

/-- A record leaves the files as they are exactly if it is ignored, or if its file is known and its
words move none of the counters of this file. -/
theorem parseFileData_sameFiles (h : s.parseFileData cfg r = some t) : s.SameFiles t ↔
    s.ignores cfg r.fileName r.checksum = true ∨
      ∃ f, s.files (r.file cfg) = some f ∧ f.Unmoved r.words := by
  have hignores : s.ignores cfg r.fileName r.checksum = (!cfg.host.fileExists (r.file cfg) ||
    (s.files (r.file cfg)).any fun file => file.checksum ≠ r.checksum) := rfl
  rw [hignores]
  rcases parseFileData_eq_some h with ⟨hex, rfl⟩ | ⟨hex, hnone, empty, u, -, hu, hstep⟩ |
    ⟨hex, f, hf, ⟨hsum, rfl⟩ | ⟨hsum, hstep⟩⟩
  · exact iff_of_true (SameFiles.refl t) (Or.inl (by rw [hex]; rfl))
  · -- the file has become known
    obtain ⟨g, hg, -⟩ := hstep.self empty (by rw [hu, Function.update_self])
    refine iff_of_false (fun hsame => ?_) (by simp [hex, hnone])
    have hfile := hsame (r.file cfg)
    rw [hnone, hg] at hfile
    cases hfile
  · exact iff_of_true (SameFiles.refl t) (Or.inl (by simp [hf, hsum]))
  · obtain ⟨g, hg, habsorbs⟩ := hstep.self f hf
    have hsame : s.SameFiles t ↔ f.Same g := by
      refine ⟨fun hsame => ?_, fun hsame q => ?_⟩
      · have hfile := hsame (r.file cfg)
        rw [hf, hg] at hfile
        cases hfile with
        | some hsame => exact hsame
      · by_cases hq : q = r.file cfg
        · rw [hq, hf, hg]
          exact .some hsame
        · rw [hstep.other q hq]
          exact SameFiles.refl s q
    rw [hsame, habsorbs.same_iff]
    simp [hex, hf, hsum]

theorem parseFileData_of_not_panics (h : s.panics cfg r.fileName = false) :
    ∃ t, s.parseFileData cfg r = some t := by
  obtain ⟨u, hu⟩ := Option.isSome_iff_exists.mp (Option.isNone_eq_false_iff.mp h)
  rw [parseFileData]
  split
  · exact ⟨s, rfl⟩
  · split
    · rw [hu]
      exact ⟨_, rfl⟩
    · split <;> exact ⟨_, rfl⟩

/-- What `parseOne` gets from a block whose parts are inside. -/
theorem parseBlock_of_partsInside {size : Nat} (hsize : sizeofFileData ≤ size)
    (hlen : size ≤ data.length) (hmagic : (FileData.decode .big data).magic = mergeMagic)
    (hversion : (FileData.decode .big data).version = mergeVersion)
    (h : PartsInside e cfg s data) : s.parseBlock e cfg size data = (do
      let fileName := storedName e (hostOrder e data)
      let checksum := (FileData.decode e (hostOrder e data)).checksum
      if s.ignores cfg fileName checksum then return some s
      if s.panics cfg fileName then return none
      let entries ← entriesIn e (hostOrder e data)
      return s.parseFileData cfg { fileName, checksum, entries }) := by
  rw [parseBlock, if_neg (Nat.not_lt_of_le hsize), unMarshalFile_eq_ite (hsize.trans hlen),
    if_neg (by simp [hmagic, hversion]), if_pos ⟨h.entries, h.table⟩]
  dsimp only
  rw [fileNameIn_eq_ite, if_pos h.name, inBounds_some, ok_bind]

/-- A block is decoded without a change of the files exactly if it is too short or refused, or if its
parts are inside and its record moves nothing. -/
theorem parseBlock_sameFiles {size : Nat} (hlen : size ≤ data.length) :
    (∃ t, s.parseBlock e cfg size data = .ok (some t) ∧ s.SameFiles t) ↔
      (sizeofFileData ≤ size → (FileData.decode .big data).magic = mergeMagic →
        (FileData.decode .big data).version = mergeVersion →
        PartsInside e cfg s data ∧ s.MovesNothing e cfg data) := by
  by_cases hread : sizeofFileData ≤ size ∧ (FileData.decode .big data).magic = mergeMagic ∧
    (FileData.decode .big data).version = mergeVersion
  · obtain ⟨hsize, hmagic, hversion⟩ := hread
    simp only [hsize, hmagic, hversion, forall_const]
    by_cases hparts : PartsInside e cfg s data
    · rw [parseBlock_of_partsInside hsize hlen hmagic hversion hparts, MovesNothing]
      simp only [hparts, true_and]
      cases hignores : s.ignores cfg (storedName e (hostOrder e data))
          (FileData.decode e (hostOrder e data)).checksum with
      | true => exact iff_of_true ⟨s, rfl, SameFiles.refl s⟩ (Or.inl rfl)
      | false =>
        simp only [Bool.false_eq_true, if_false, false_or]
        cases hpanics : s.panics cfg (storedName e (hostOrder e data)) with
        | true =>
          refine iff_of_false (fun ⟨t, ht, _⟩ => by cases ht) ?_
          rintro ⟨f, entries, hf, -⟩
          rw [panics, openFile, hf] at hpanics
          cases hpanics
        | false =>
          simp only [Bool.false_eq_true, if_false]
          cases hentries : entriesIn e (hostOrder e data) with
          | error => simp
          | ok entries =>
            obtain ⟨t, ht⟩ := @parseFileData_of_not_panics cfg s
              ⟨storedName e (hostOrder e data), (FileData.decode e (hostOrder e data)).checksum,
                entries⟩ hpanics
            have hsame := parseFileData_sameFiles ht
            rw [hignores] at hsame
            rw [ok_bind, ht]
            refine Iff.trans ⟨?_, fun h => ⟨t, rfl, h⟩⟩ (hsame.trans (by simp [Record.file]))
            rintro ⟨u, hu, hkept⟩
            cases hu
            exact hkept
    · refine iff_of_false ?_ fun h => hparts h.1
      rintro ⟨t, ht, -⟩
      refine hparts ((parseBlock_staysInside hlen).mp ?_ hsize hmagic hversion)
      rw [ht]
      exact staysInside_ok _
  · refine iff_of_true ⟨s, ?_, SameFiles.refl s⟩ fun hsize hmagic hversion =>
      absurd ⟨hsize, hmagic, hversion⟩ hread
    rw [parseBlock]
    split
    next => rfl
    next hsize =>
      rw [unMarshalFile_eq_ite ((Nat.le_of_not_lt hsize).trans hlen), if_pos]
      by_contra hrefused
      rw [not_or, not_not, not_not] at hrefused
      exact hread ⟨Nat.le_of_not_lt hsize, hrefused⟩

end Unchanged

/-- `parseOne` with a block that ends with the data. -/
def parseData (e : Endian) (cfg : MergeSetup) (s : MergeParser) (file : StoredFile) :
    Except Stop (Option MergeParser) :=
  if !stringIsInteger file.name then .ok (some s)
  else s.parseBlock e cfg file.data.length file.data

/-- `parseOne` leaves the files as they are, or it swaps and reads only bytes of the data. -/
def ParsesSafely (e : Endian) (cfg : MergeSetup) (s : MergeParser) (file : StoredFile) : Prop :=
  (∃ t, s.parseOne e cfg file = .ok (some t) ∧ s.SameFiles t) ∨
    StaysInside (s.parseData e cfg file)

/-- `parseOne` is safe exactly if it does not look at the data, if the parts of the data that it looks
at are inside, or if they are inside the block, with the zeros behind the data, and move nothing. -/
theorem parsesSafely_iff (e : Endian) (cfg : MergeSetup) (s : MergeParser) (file : StoredFile) :
    s.ParsesSafely e cfg file ↔
      (stringIsInteger file.name = true → sizeofFileData ≤ file.data.length →
        (FileData.decode .big file.data).magic = mergeMagic →
        (FileData.decode .big file.data).version = mergeVersion →
        PartsInside e cfg s file.data ∨
          PartsInside e cfg s (readFileBlock file.data) ∧
            s.MovesNothing e cfg (readFileBlock file.data)) := by
  have hoffset : offsetofEntries ≤ sizeofFileData := by decide
  rw [ParsesSafely, parseOne, parseData]
  by_cases hname : stringIsInteger file.name = true
  · have hblock : file.data.length ≤ (readFileBlock file.data).length := by
      rw [readFileBlock, List.length_append]
      exact Nat.le_add_right _ _
    rw [if_neg (by simp [hname]), if_neg (by simp [hname]), parseBlock_sameFiles hblock,
      parseBlock_staysInside (Nat.le_refl _)]
    simp only [hname, forall_const]
    by_cases hsize : sizeofFileData ≤ file.data.length
    · rw [readFileBlock, FileData.decode_append (hoffset.trans hsize)]
      simp only [hsize, forall_const]
      by_cases hmagic : (FileData.decode .big file.data).magic = mergeMagic
      · by_cases hversion : (FileData.decode .big file.data).version = mergeVersion
        · simp only [hmagic, hversion, forall_const, or_comm]
        · simp [hversion]
      · simp [hmagic]
    · simp [hsize]
  · rw [if_pos (by simp [hname])]
    exact iff_of_true (Or.inl ⟨s, rfl, SameFiles.refl s⟩) fun h => absurd h hname

/-- The first bytes of a metadata file with 200 lines and as many addresses. -/
def cutShort : StoredFile where
  name := ascii "4f332bca"
  data := FileData.encode .big
    { magic := mergeMagic, version := mergeVersion, size := 4051, checksum := 1, timestamp := 0
      nEntries := 200, addressTableOffset := 2440, fileNameOffset := 4040 } ++ [0, 0, 0, 1]

/-- The entries end behind the data, and behind the block as well. -/
theorem not_parsesSafely_cutShort : ¬create.ParsesSafely .little
    ⟨Host.bare, fun _ => true, fun path => path⟩ cutShort := by
  have hdata : ¬(offsetofEntries +
      sizeofLineEntry * (FileData.decode .big cutShort.data).nEntries.toNat ≤
        cutShort.data.length) := by decide
  have hblock : ¬(offsetofEntries +
      sizeofLineEntry * (FileData.decode .big (readFileBlock cutShort.data)).nEntries.toNat ≤
        (readFileBlock cutShort.data).length) := by
    rw [readFileBlock, FileData.decode_append (by decide), List.length_append, zeros,
      List.length_replicate]
    decide
  rw [parsesSafely_iff]
  intro h
  rcases h (by decide) (by decide) (by decide) (by decide) with hparts | ⟨hparts, -⟩
  · exact hdata hparts.entries
  · exact hblock hparts.entries

end MergeParser

end Kcov
