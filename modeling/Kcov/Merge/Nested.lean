import Kcov.Merge.Output
import Mathlib.Data.List.Dedup
import Mathlib.Data.List.Flatten

/-! Merging the output of a merge, and merging records with themselves: when both give the same as
one merge. -/

namespace Kcov

open Bytes

namespace MergeParser

/-! ### Merging the output of a merge -/

/-- For every file the same lines, the same addresses per line and the same hit addresses. -/
structure SameCoverage (s t : MergeParser) : Prop where
  lines : ∀ f l, s.hasLine f l = t.hasLine f l
  addrs : ∀ f l a, s.hasAddr f l a = t.hasAddr f l a
  hits : ∀ f a, s.isHit f a = t.isHit f a

/-- Merging the output of a merge of `A` and `B` together with `C`, in any order, gives the same as
merging everything at once. -/
def MergesNested (md : MetadataSetup) (cfg : MergeSetup) (A B C : List StoredFile) : Prop :=
  ∃ s out, create.onStop md cfg true (A ++ B) = .ok (some (s, out)) ∧
    ∀ files, files.Perm (out ++ C) → ∃ t u,
      create.parseStored md.endian cfg files = .ok (some t) ∧
        create.parseStored md.endian cfg (A ++ B ++ C) = .ok (some u) ∧ SameCoverage t u

/-- Merging the files twice gives the same as merging them once. -/
def MergesWithItself (md : MetadataSetup) (cfg : MergeSetup) (A : List StoredFile) : Prop :=
  ∃ s t, create.parseStored md.endian cfg A = .ok (some s) ∧
    create.parseStored md.endian cfg (A ++ A) = .ok (some t) ∧ SameCoverage s t

def recordsOf (e : Endian) (files : List StoredFile) : List Record :=
  files.filterMap (StoredFile.record e)

/-- The file is a metadata record, and current. -/
def IsStored (e : Endian) (cfg : MergeSetup) (file : StoredFile) : Prop :=
  ∃ r, file.record e = some r ∧ IsCurrent cfg r

section Nested

variable {md : MetadataSetup} {e : Endian} {cfg : MergeSetup} {A B C files : List StoredFile}
  {s t : MergeParser} {ws vs : Text → List (U32 × U64)}

theorem sameCoverage_iff (hs : Holds ws s) (ht : Holds vs t)
    (hsame : ∀ f l a, (l, a) ∈ (ws f).map strip ↔ (l, a) ∈ (vs f).map strip) :
    SameCoverage s t ↔
      ∀ f a, hitsIn (ws f) a % 2 ^ 32 = 0 ↔ hitsIn (vs f) a % 2 ^ 32 = 0 := by
  constructor
  · intro h f a
    have hhit := h.hits f a
    rw [Bool.eq_iff_iff, hs.isHit, ht.isHit] at hhit
    exact not_iff_not.mp hhit
  · intro h
    refine ⟨fun f l => ?_, fun f l a => ?_, fun f a => ?_⟩
    · rw [Bool.eq_iff_iff, hs.hasLine, ht.hasLine]
      simp only [hsame]
    · rw [Bool.eq_iff_iff, hs.hasAddr, ht.hasAddr, hsame]
    · rw [Bool.eq_iff_iff, hs.isHit, ht.isHit]
      exact not_iff_not.mpr (h f a)

theorem recordsOf_append (files files' : List StoredFile) :
    recordsOf e (files ++ files') = recordsOf e files ++ recordsOf e files' :=
  List.filterMap_append

theorem mem_recordsOf (h : ∀ file ∈ files, IsStored e cfg file) :
    ∀ r ∈ recordsOf e files, IsCurrent cfg r ∧ 0 ∉ r.fileName := by
  intro r hr
  obtain ⟨file, hfile, hrecord⟩ := List.mem_filterMap.mp hr
  obtain ⟨r', hr', hcurrent⟩ := h file hfile
  obtain rfl := Option.some.inj (hr'.symm.trans hrecord)
  exact ⟨hcurrent, zero_notMem_fileName hrecord⟩

theorem parseStored_holds (h : ∀ file ∈ files, IsStored e cfg file) :
    ∃ s, create.parseStored e cfg files = .ok (some s) ∧ parseAll cfg (recordsOf e files) = some s ∧
      Holds (wordsOf (recordsOf e files)) s := by
  have hcurrent := fun r hr => (mem_recordsOf h r hr).1
  obtain ⟨s, hs⟩ := exists_parseAll hcurrent
  refine ⟨s, ?_, hs, holds_run hcurrent hs⟩
  rw [parseStored_of_records fun file hfile => ?_]
  · exact congrArg Except.ok hs
  · obtain ⟨r, hr, -⟩ := h file hfile
    rw [hr]
    rfl

theorem mergesWithItself_iff (h : ∀ file ∈ A, IsStored md.endian cfg file) :
    MergesWithItself md cfg A ↔
      ∀ f a, hitsIn (wordsOf (recordsOf md.endian A) f) a % 2 ^ 32 ≠ 2 ^ 31 := by
  obtain ⟨s, hs, -, hholds⟩ := parseStored_holds h
  obtain ⟨t, ht, -, hholds'⟩ := @parseStored_holds md.endian cfg (A ++ A) fun file hfile =>
    h file ((List.mem_append.mp hfile).elim id id)
  have hsame : SameCoverage s t ↔
      ∀ f a, hitsIn (wordsOf (recordsOf md.endian A) f) a % 2 ^ 32 ≠ 2 ^ 31 := by
    rw [sameCoverage_iff hholds hholds' fun f l a => ?_]
    · refine forall₂_congr fun f a => ?_
      rw [recordsOf_append, wordsOf_append, hitsIn_append]
      omega
    · rw [recordsOf_append, wordsOf_append, List.map_append, List.mem_append, or_self]
  rw [← hsame, MergesWithItself]
  constructor
  · rintro ⟨s', t', hs', ht', h'⟩
    obtain rfl : s = s' := by simpa using hs.symm.trans hs'
    obtain rfl : t = t' := by simpa using ht.symm.trans ht'
    exact h'
  · exact fun h' => ⟨s, t, hs, ht, h'⟩

/-- In merge mode `onStop` writes current metadata records of the merged files. -/
theorem onStop_output (h : ∀ file ∈ A, IsStored md.endian cfg file)
    (hw : Writable cfg (recordsOf md.endian A)) :
    ∃ s out, ∃ names : List Text, create.onStop md cfg true A = .ok (some (s, out)) ∧
      parseAll cfg (recordsOf md.endian A) = some s ∧ names.Perm s.fileNames ∧
      recordsOf md.endian out =
        names.filterMap (fun f => (s.files f).map fun file => file.toRecord md f) ∧
      ∀ file ∈ out, IsStored md.endian cfg file := by
  have hcurrent := fun r hr => (mem_recordsOf h r hr).1
  obtain ⟨s, hs, hparse, -⟩ := parseStored_holds h
  obtain ⟨dir, names, hdir, hnames, hrecords⟩ := writeFiles_records md hcurrent hw hparse
  refine ⟨s, dir.entries.map fun file => ⟨file.1, file.2⟩, names, ?_, hparse, hnames, ?_, ?_⟩
  · rw [onStop, hs, ok_bind]
    dsimp only
    rw [hdir, inBounds_some, ok_bind]
    rfl
  · have hsome := congrArg (List.filterMap id) hrecords
    rw [List.filterMap_map, List.filterMap_map] at hsome
    rw [recordsOf, List.filterMap_map]
    exact hsome
  · intro file hfile
    obtain ⟨x, hx, rfl⟩ := List.mem_map.mp hfile
    have hmem := List.mem_map_of_mem (f := fun x : (_ : Text) × List Byte =>
      StoredFile.record md.endian ⟨x.1, x.2⟩) hx
    rw [hrecords] at hmem
    obtain ⟨f, hf, hrecord⟩ := List.mem_map.mp hmem
    obtain ⟨file, hsome⟩ :=
      Option.isSome_iff_exists.mp (((filed_run hparse).mem f).mp (hnames.mem_iff.mp hf))
    rw [hsome, Option.map_some] at hrecord
    exact ⟨file.toRecord md f, hrecord.symm, (current_toRecord hcurrent hparse hsome md).2⟩

/-- The hits of an address in the records `AB` and `C` are counted to zero if and only if one hit for
each of its lines in `AB` and the hits in `C` are. -/
def KeepsHit (AB C : List Record) (f : Text) (a : U64) : Prop :=
  hitsIn (wordsOf AB f) a % 2 ^ 32 ≠ 0 →
    ((linesWith (wordsOf AB f) a + hitsIn (wordsOf C f) a) % 2 ^ 32 = 0 ↔
      (hitsIn (wordsOf AB f) a + hitsIn (wordsOf C f) a) % 2 ^ 32 = 0)

theorem mergesNested_iff (h : ∀ file ∈ A ++ B ++ C, IsStored md.endian cfg file)
    (hw : Writable cfg (recordsOf md.endian (A ++ B))) :
    MergesNested md cfg A B C ↔
      ∀ f a, KeepsHit (recordsOf md.endian (A ++ B)) (recordsOf md.endian C) f a := by
  have hAB : ∀ file ∈ A ++ B, IsStored md.endian cfg file :=
    fun file hfile => h file (List.mem_append_left C hfile)
  obtain ⟨s, out, names, hstop, hparse, hnames, hout, hstored⟩ := onStop_output hAB hw
  obtain ⟨u, hu, -, hholds'⟩ := parseStored_holds h
  have hwords := wordsOf_output (fun r hr => (mem_recordsOf hAB r hr).1) hparse md hnames
  dsimp only at hwords
  rw [← hout] at hwords
  -- each merge of the output with `C` gives the same if and only if the counters keep the hits
  have hsame : ∀ files, files.Perm (out ++ C) → ∃ t,
      create.parseStored md.endian cfg files = .ok (some t) ∧ (SameCoverage t u ↔
        ∀ f a, KeepsHit (recordsOf md.endian (A ++ B)) (recordsOf md.endian C) f a) := by
    intro files hperm
    obtain ⟨t, ht, -, hholds⟩ := @parseStored_holds md.endian cfg files fun file hfile => by
      rcases List.mem_append.mp (hperm.mem_iff.mp hfile) with hfile | hfile
      · exact hstored file hfile
      · exact h file (List.mem_append_right _ hfile)
    refine ⟨t, ht, ?_⟩
    have hfiles : ∀ f, (wordsOf (recordsOf md.endian files) f).Perm
        (wordsOf (recordsOf md.endian out) f ++ wordsOf (recordsOf md.endian C) f) := by
      intro f
      rw [← wordsOf_append, ← recordsOf_append]
      exact wordsOf_perm (hperm.filterMap _) f
    rw [sameCoverage_iff hholds hholds' fun f l a => ?_]
    · refine forall₂_congr fun f a => ?_
      rw [hitsIn_perm (hfiles f), hitsIn_append, recordsOf_append _ C, wordsOf_append,
        hitsIn_append, (hwords f).2 a, KeepsHit]
      split
      next hhit => exact (imp_iff_right hhit).symm
      next hhit => omega
    · rw [((hfiles f).map strip).mem_iff, List.map_append, List.mem_append, (hwords f).1 l a,
        recordsOf_append _ C, wordsOf_append, List.map_append, List.mem_append]
  rw [MergesNested]
  constructor
  · rintro ⟨s', out', hstop', hmerge⟩
    obtain ⟨rfl, rfl⟩ : s = s' ∧ out = out' := by simpa using hstop.symm.trans hstop'
    obtain ⟨t', u', ht', hu', hsame'⟩ := hmerge (out ++ C) (List.Perm.refl _)
    obtain ⟨t, ht, hiff⟩ := hsame (out ++ C) (List.Perm.refl _)
    obtain rfl : t = t' := by simpa using ht.symm.trans ht'
    obtain rfl : u = u' := by simpa using hu.symm.trans hu'
    exact hiff.mp hsame'
  · intro hkeeps
    refine ⟨s, out, hstop, fun files hperm => ?_⟩
    obtain ⟨t, ht, hiff⟩ := hsame files hperm
    exact ⟨t, u, ht, hu, hiff.mpr hkeeps⟩

/-- No counter of hits loses an address in one merge and keeps it in the other. -/
structure HitsKept (A B C : List Record) : Prop where
  nested : ∀ f a, KeepsHit (A ++ B) C f a
  itself : ∀ f a, hitsIn (wordsOf A f) a % 2 ^ 32 ≠ 2 ^ 31

theorem writable_of_stored (h : ∀ file ∈ files, IsStored e cfg file)
    (hdistinct : DistinctNames cfg (recordsOf e files)) (hsize : SizesFit (recordsOf e files)) :
    Writable cfg (recordsOf e files) :=
  ⟨fun r hr => (mem_recordsOf h r hr).2, hdistinct, hsize⟩

/-- For current records of files with distinct checksums of their names, and metadata with sizes of
32 bits: merging the output of a merge gives the same as merging everything at once, and merging a
collection with itself changes nothing, if and only if the counters keep the hits. -/
theorem nested_merge_iff (md : MetadataSetup) (cfg : MergeSetup) (A B C : List StoredFile)
    (hstored : ∀ file ∈ A ++ B ++ C, IsStored md.endian cfg file)
    (hdistinct : DistinctNames cfg (recordsOf md.endian (A ++ B)))
    (hsize : SizesFit (recordsOf md.endian (A ++ B))) :
    MergesNested md cfg A B C ∧ MergesWithItself md cfg A ↔
      HitsKept (recordsOf md.endian A) (recordsOf md.endian B) (recordsOf md.endian C) := by
  have hAB : ∀ file ∈ A ++ B, IsStored md.endian cfg file :=
    fun file hfile => hstored file (List.mem_append_left C hfile)
  have hA : ∀ file ∈ A, IsStored md.endian cfg file :=
    fun file hfile => hAB file (List.mem_append_left B hfile)
  rw [mergesNested_iff hstored (writable_of_stored hAB hdistinct hsize), mergesWithItself_iff hA,
    recordsOf_append]
  exact ⟨fun h => ⟨h.1, h.2⟩, fun h => ⟨h.nested, h.itself⟩⟩

end Nested

/-! ### Many records of one line -/

section Short

theorem linesWith_pos {ws : List (U32 × U64)} {a : U64} (h : hitsIn ws a ≠ 0) :
    0 < linesWith ws a := by
  obtain ⟨p, hp, hpa⟩ := List.countP_pos_iff.mp (Nat.pos_of_ne_zero h)
  rw [Bool.and_eq_true] at hpa
  exact List.countP_pos_iff.mpr ⟨strip p, List.mem_dedup.mpr (List.mem_map_of_mem hp), hpa.2⟩

theorem linesWith_le (ws : List (U32 × U64)) (a : U64) : linesWith ws a ≤ ws.length := by
  have hdedup : (pairsIn ws).length ≤ (ws.map strip).length := (List.dedup_sublist _).length_le
  rw [List.length_map] at hdedup
  exact List.countP_le_length.trans hdedup

theorem length_wordsOf_le (records : List Record) (f : Text) :
    (wordsOf records f).length ≤ (records.flatMap Record.words).length :=
  (List.Sublist.flatMap List.filter_sublist Record.words).length_le

/-- Fewer than `2 ^ 31` words are counted without loss. -/
theorem hitsKept_of_lt {A B C : List Record}
    (h : ((A ++ B ++ C).flatMap Record.words).length < 2 ^ 31) : HitsKept A B C := by
  rw [List.flatMap_append, List.length_append] at h
  refine ⟨fun f a hhit => ?_, fun f a => ?_⟩
  · have hpos := @linesWith_pos (wordsOf (A ++ B) f) a fun hzero => hhit (by rw [hzero]; rfl)
    have hle := linesWith_le (wordsOf (A ++ B) f) a
    have hAB := length_wordsOf_le (A ++ B) f
    have hC := length_wordsOf_le C f
    have hhitAB : hitsIn (wordsOf (A ++ B) f) a ≤ (wordsOf (A ++ B) f).length :=
      List.countP_le_length
    have hhitC : hitsIn (wordsOf C f) a ≤ (wordsOf C f).length := List.countP_le_length
    omega
  · have hA := length_wordsOf_le A f
    have hhitA : hitsIn (wordsOf A f) a ≤ (wordsOf A f).length := List.countP_le_length
    rw [List.flatMap_append, List.length_append] at h
    omega

end Short

/-- The metadata of line 1 of `/a`, hit at the address 16. -/
def hitFile : StoredFile where
  name := ascii "0000002a"
  data := [0x4d, 0x6f, 0x61, 0x72, 0, 0, 0, 4, 0, 0, 0, 71, 0, 0, 0, 7, 0, 0, 0, 0, 0, 0, 0, 0,
    0, 0, 0, 1, 0, 0, 0, 48, 0, 0, 0, 56, 0, 0, 0, 1, 0, 0, 0, 0, 0, 0, 0, 1,
    0x80, 0, 0, 0, 0, 0, 0, 16, 0x2f, 0x61, 0, 0, 0, 0, 0, 0, 0, 0, 0, 0, 0, 0, 0]

/-- The metadata of line 2 of `/a`, which was not hit. -/
def missedFile : StoredFile where
  name := ascii "0000002a"
  data := [0x4d, 0x6f, 0x61, 0x72, 0, 0, 0, 4, 0, 0, 0, 71, 0, 0, 0, 7, 0, 0, 0, 0, 0, 0, 0, 0,
    0, 0, 0, 1, 0, 0, 0, 48, 0, 0, 0, 56, 0, 0, 0, 2, 0, 0, 0, 0, 0, 0, 0, 1,
    0, 0, 0, 0, 0, 0, 0, 32, 0x2f, 0x61, 0, 0, 0, 0, 0, 0, 0, 0, 0, 0, 0, 0, 0]

def hitRecord : Record := ⟨ascii "/a", 7, [(1, [0x8000000000000010])]⟩

def missedRecord : Record := ⟨ascii "/a", 7, [(2, [32])]⟩

/-- A little-endian host on which the maps keep their order. -/
def plainMetadata : MetadataSetup where
  endian := .little
  files := ⟨id, fun l => List.Perm.refl l⟩
  lines _ := ⟨id, fun l => List.Perm.refl l⟩
  addrs _ _ := ⟨id, fun l => List.Perm.refl l⟩
  timestamp _ := 0

section Many

theorem record_hitFile : hitFile.record .little = some hitRecord := by decide

theorem record_missedFile : missedFile.record .little = some missedRecord := by decide

theorem isStored_hitFile : IsStored .little staleSetup hitFile :=
  ⟨hitRecord, record_hitFile, by decide, rfl⟩

theorem isStored_missedFile : IsStored .little staleSetup missedFile :=
  ⟨missedRecord, record_missedFile, by decide, rfl⟩

theorem nested_merge_three :
    MergesNested plainMetadata staleSetup [hitFile] [missedFile] [hitFile] ∧
      MergesWithItself plainMetadata staleSetup [hitFile] := by
  have hAB : recordsOf .little ([hitFile] ++ [missedFile]) = [hitRecord, missedRecord] := by decide
  have hA : recordsOf .little [hitFile] = [hitRecord] := by decide
  have hB : recordsOf .little [missedFile] = [missedRecord] := by decide
  refine (nested_merge_iff plainMetadata staleSetup [hitFile] [missedFile] [hitFile] ?_ ?_ ?_).mpr ?_
  · intro file hfile
    simp only [List.cons_append, List.nil_append, List.mem_cons, List.not_mem_nil, or_false] at hfile
    rcases hfile with rfl | rfl | rfl
    · exact isStored_hitFile
    · exact isStored_missedFile
    · exact isStored_hitFile
  · change DistinctNames staleSetup (recordsOf .little _)
    rw [hAB]
    intro r hr r' hr' _
    simp only [List.mem_cons, List.not_mem_nil, or_false] at hr hr'
    rcases hr with rfl | rfl <;> rcases hr' with rfl | rfl <;> rfl
  · change SizesFit (recordsOf .little _)
    rw [hAB, SizesFit]
    decide
  · change HitsKept (recordsOf .little _) (recordsOf .little _) (recordsOf .little _)
    rw [hA, hB]
    exact hitsKept_of_lt (by decide)

variable (n : Nat)

theorem recordsOf_replicate :
    recordsOf .little (List.replicate n hitFile) = List.replicate n hitRecord :=
  List.filterMap_replicate_of_some record_hitFile

theorem isStored_replicate :
    ∀ file ∈ List.replicate n hitFile, IsStored .little staleSetup file := by
  intro file hfile
  rw [List.eq_of_mem_replicate hfile]
  exact isStored_hitFile

theorem wordsOf_replicate : wordsOf (List.replicate n hitRecord) (ascii "/a") =
    List.replicate n (1, 0x8000000000000010) := by
  induction n with
  | zero => rfl
  | succ n ih =>
    rw [List.replicate_succ, List.replicate_succ, ← ih]
    exact wordsOf_append [hitRecord] (List.replicate n hitRecord) (ascii "/a")

theorem hitsIn_replicate :
    hitsIn (wordsOf (List.replicate n hitRecord) (ascii "/a")) 16 = n := by
  rw [wordsOf_replicate, hitsIn, List.countP_replicate]
  exact if_pos (by decide)

theorem pairsIn_replicate :
    (pairsIn (wordsOf (List.replicate n hitRecord) (ascii "/a"))).length ≤ 1 := by
  rw [wordsOf_replicate, pairsIn, List.map_replicate]
  cases n with
  | zero => simp
  | succ n => rw [List.replicate_dedup (by omega), List.length_singleton]

theorem writable_replicate : Writable staleSetup (List.replicate n hitRecord) := by
  have hmem : ∀ r ∈ List.replicate n hitRecord, r = hitRecord :=
    fun r hr => List.eq_of_mem_replicate hr
  refine ⟨fun r hr => ?_, fun r hr r' hr' _ => ?_, fun r hr => ?_⟩
  · rw [hmem r hr]
    decide
  · rw [hmem r hr, hmem r' hr']
  · have hname : r.fileName = ascii "/a" := by rw [hmem r hr]; rfl
    have hpairs := pairsIn_replicate n
    have hlines := (List.dedup_sublist ((pairsIn (wordsOf (List.replicate n hitRecord)
      (ascii "/a"))).map (·.1))).length_le
    have hlen : (ascii "/a").length = 2 := by decide
    rw [List.length_map] at hlines
    rw [hname, encodedSize, sizeofFileData, sizeofLineEntry, hlen]
    omega

/-- Two merges of `2 ^ 31` records count the hits of their line to zero. -/
theorem not_nested_merge_many :
    let A := List.replicate (2 ^ 31) hitFile
    (∀ file ∈ A ++ [] ++ A, IsStored plainMetadata.endian staleSetup file) ∧
      DistinctNames staleSetup (recordsOf plainMetadata.endian (A ++ [])) ∧
      SizesFit (recordsOf plainMetadata.endian (A ++ [])) ∧
      ¬MergesNested plainMetadata staleSetup A [] A ∧
      ¬MergesWithItself plainMetadata staleSetup A := by
  intro A
  have hA : ∀ file ∈ A, IsStored plainMetadata.endian staleSetup file := isStored_replicate _
  have hall : ∀ file ∈ A ++ [] ++ A, IsStored plainMetadata.endian staleSetup file := by
    intro file hfile
    rw [List.append_nil] at hfile
    exact hA file ((List.mem_append.mp hfile).elim id id)
  have hrecords : recordsOf plainMetadata.endian A = List.replicate (2 ^ 31) hitRecord :=
    recordsOf_replicate _
  have hrecords' : recordsOf plainMetadata.endian (A ++ []) = List.replicate (2 ^ 31) hitRecord := by
    rw [List.append_nil, hrecords]
  have hw := writable_replicate (2 ^ 31)
  have hhits := hitsIn_replicate (2 ^ 31)
  refine ⟨hall, ?_, ?_, fun hnested => ?_, fun hself => ?_⟩
  · rw [hrecords']
    exact hw.distinct
  · rw [hrecords']
    exact hw.size
  · have hkeep := (mergesNested_iff hall (by rw [hrecords']; exact hw)).mp hnested (ascii "/a") 16
    rw [hrecords', hrecords, KeepsHit, hhits] at hkeep
    have hlines : linesWith (wordsOf (List.replicate (2 ^ 31) hitRecord) (ascii "/a")) 16 ≤ 1 :=
      List.countP_le_length.trans (pairsIn_replicate _)
    have hzero := (hkeep (by decide)).mpr (by decide)
    omega
  · have hne := (mergesWithItself_iff hA).mp hself (ascii "/a") 16
    rw [hrecords, hhits] at hne
    exact hne (by decide)

end Many

end MergeParser

end Kcov
