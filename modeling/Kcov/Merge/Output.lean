import Kcov.Merge.Records
import Kcov.Merge.RoundTrip
import Mathlib.Data.List.Dedup

/-! The output of a merge: the records that `onStop` writes in merge mode, and what they say about the
records that were merged. -/

namespace Kcov

open Bytes

/-! ### The words of a file -/

/-- The lines and addresses of the words, each once. -/
def pairsIn (ws : List (U32 × U64)) : List (U32 × U64) := (ws.map strip).dedup

namespace MergeFile

/-- The lines of a file with their addresses. -/
def pairs (f : MergeFile) : List (U32 × U64) :=
  f.lines.keys.flatMap fun l => (f.lineAddrs l).keys.map fun a => (l, a)

/-- Every line has an address. -/
def Full (f : MergeFile) : Prop := ∀ l ∈ f.lines, ∃ a, f.hasAddr l a = true

section Pairs

variable {f : MergeFile} {l : U32} {a : U64}

theorem mem_lines_of_hasAddr (h : f.hasAddr l a = true) : l ∈ f.lines := by
  rw [hasAddr, decide_eq_true_eq, lineAddrs] at h
  rw [← AList.lookup_isSome]
  cases hl : f.lines.lookup l with
  | none =>
    rw [hl] at h
    exact absurd h (AList.notMem_empty a)
  | some m => rfl

theorem mem_pairs : (l, a) ∈ f.pairs ↔ f.hasAddr l a = true := by
  simp only [pairs, List.mem_flatMap, List.mem_map, Prod.mk.injEq]
  constructor
  · rintro ⟨l, -, a, ha, rfl, rfl⟩
    rw [hasAddr, decide_eq_true_eq]
    exact ha
  · intro h
    have hl := mem_lines_of_hasAddr h
    rw [hasAddr, decide_eq_true_eq] at h
    exact ⟨l, hl, a, h, rfl, rfl⟩

theorem nodup_pairs (f : MergeFile) : f.pairs.Nodup := by
  rw [pairs, List.nodup_flatMap]
  refine ⟨fun l _ => ?_, ?_⟩
  · exact (AList.keys_nodup _).map fun a b h => (Prod.mk.inj h).2
  · refine (AList.keys_nodup f.lines).imp fun {l m} hne => ?_
    intro p hp hq
    obtain ⟨a, -, rfl⟩ := List.mem_map.mp hp
    obtain ⟨b, -, h⟩ := List.mem_map.mp hq
    exact hne (Prod.mk.inj h).1.symm

theorem pairs_perm {ws : List (U32 × U64)}
    (h : ∀ l a, f.hasAddr l a = true ↔ (l, a) ∈ ws.map strip) : f.pairs.Perm (pairsIn ws) := by
  refine (List.perm_ext_iff_of_nodup f.nodup_pairs (List.nodup_dedup _)).mpr fun ⟨l, a⟩ => ?_
  rw [mem_pairs, h l a, List.mem_dedup]

theorem keys_perm {ws : List (U32 × U64)} (hfull : f.Full)
    (h : ∀ l a, f.hasAddr l a = true ↔ (l, a) ∈ ws.map strip) :
    f.lines.keys.Perm ((pairsIn ws).map (·.1)).dedup := by
  apply (List.perm_ext_iff_of_nodup (AList.keys_nodup _) (List.nodup_dedup _)).mpr
  intro l
  rw [List.mem_dedup, List.mem_map]
  constructor
  · intro hl
    obtain ⟨a, ha⟩ := hfull l hl
    exact ⟨(l, a), List.mem_dedup.mpr ((h l a).mp ha), rfl⟩
  · rintro ⟨⟨l, a⟩, hp, rfl⟩
    exact mem_lines_of_hasAddr ((h l a).mpr (List.mem_dedup.mp hp))

end Pairs

/-- The word of an address in a record. -/
def wordOf (f : MergeFile) (a : U64) : U64 := if f.isHit a then a ||| hitBit else a

/-- The record that `marshalFile` writes. -/
def toRecord (md : MetadataSetup) (filename : Text) (f : MergeFile) : Record :=
  { fileName := filename, checksum := f.checksum, entries := f.inOrder md filename }

section Words

variable {f : MergeFile} {md : MetadataSetup} {filename : Text} {a : U64}

/-- Whatever the orders of the maps are, a record has one word for each address of each line. -/
theorem words_toRecord (md : MetadataSetup) (filename : Text) (f : MergeFile) :
    (f.toRecord md filename).words.Perm (f.pairs.map fun p => (p.1, f.wordOf p.2)) := by
  have hpairs : (f.pairs.map fun p => (p.1, f.wordOf p.2)) = f.lines.keys.flatMap fun l =>
      (f.lineAddrs l).keys.map fun a => (l, f.wordOf a) := by
    simp only [pairs, List.map_flatMap, List.map_map]
    rfl
  have hwords : (f.toRecord md filename).words = ((md.lines filename).order f.lines.keys).flatMap
      fun l => ((md.addrs filename l).order (f.lineAddrs l).keys).map fun a => (l, f.wordOf a) := by
    simp only [Record.words, toRecord, inOrder, List.flatMap_map, List.map_map]
    rfl
  rw [hwords, hpairs]
  refine ((md.lines filename).perm _).flatMap_right _ |>.trans ?_
  exact List.Perm.flatMap_left _ fun l _ => ((md.addrs filename l).perm _).map _

theorem and_hitBit_wordOf (h : a &&& ~~~hitBit = a) :
    f.wordOf a &&& ~~~hitBit = a ∧ (f.wordOf a &&& hitBit ≠ 0 ↔ f.isHit a = true) := by
  have hbit : a &&& hitBit = 0 := by
    rw [← h, BitVec.and_assoc]
    simp
  rw [wordOf]
  split
  next hhit =>
    have hne : hitBit ≠ 0 := by decide
    refine ⟨?_, ?_⟩
    · rw [BitVec.and_comm, BitVec.and_or_distrib_left, BitVec.and_comm _ a, h]
      simp
    · rw [BitVec.and_comm, BitVec.and_or_distrib_left, BitVec.and_comm _ a, hbit]
      simpa [hhit] using hne
  next hhit => simp [h, hbit, hhit]

/-- Addresses without the hit bit are read back, with a hit for every line of one that was hit. -/
theorem strip_words (hclear : ∀ l a, f.hasAddr l a = true → a &&& ~~~hitBit = a) :
    ((f.toRecord md filename).words.map strip).Perm f.pairs := by
  refine ((words_toRecord md filename f).map strip).trans (List.Perm.of_eq ?_)
  rw [List.map_map]
  refine (List.map_congr_left fun p hp => ?_).trans (List.map_id _)
  have hp' := hclear p.1 p.2 (mem_pairs.mp hp)
  exact Prod.ext rfl (@and_hitBit_wordOf f p.2 hp').1

theorem hitsIn_words (hclear : ∀ l a, f.hasAddr l a = true → a &&& ~~~hitBit = a) (a : U64) :
    hitsIn (f.toRecord md filename).words a =
      if f.isHit a then f.pairs.countP (·.2 = a) else 0 := by
  have hcount : ∀ p ∈ f.pairs, ((f.wordOf p.2 &&& hitBit ≠ 0 &&
      f.wordOf p.2 &&& ~~~hitBit = a) = true ↔ (f.isHit a && p.2 = a) = true) := by
    intro p hp
    obtain ⟨hstrip, hhit⟩ := @and_hitBit_wordOf f p.2 (hclear p.1 p.2 (mem_pairs.mp hp))
    simp only [hstrip, Bool.and_eq_true, decide_eq_true_eq, hhit]
    constructor
    · rintro ⟨h, rfl⟩
      exact ⟨h, rfl⟩
    · rintro ⟨h, rfl⟩
      exact ⟨h, rfl⟩
  rw [hitsIn, (words_toRecord md filename f).countP_eq, List.countP_map]
  refine (List.countP_congr hcount).trans ?_
  split
  next hhit => simp only [hhit, Bool.true_and]
  next hhit => simp [hhit]

theorem imageSize_inOrder (md : MetadataSetup) (filename : Text) (f : MergeFile) :
    imageSize (f.inOrder md filename) filename = sizeofFileData +
      sizeofLineEntry * f.lines.keys.length + 8 * f.pairs.length + filename.length + 9 := by
  have hlines : (f.inOrder md filename).length = f.lines.keys.length := by
    rw [inOrder, List.length_map, ((md.lines filename).perm _).length_eq]
  have htable : (tableOf (f.inOrder md filename)).length = f.pairs.length := by
    have hwords := (words_toRecord md filename f).length_eq
    rw [List.length_map] at hwords
    rw [← hwords, tableOf, Record.words, List.length_flatMap, List.length_flatMap]
    simp [toRecord]
  rw [imageSize, hlines, htable]

end Words

end MergeFile

namespace MergeParser

/-! ### The files of a parser -/

def hasLine (s : MergeParser) (f : Text) (l : U32) : Bool :=
  (s.files f).any fun file => decide (l ∈ file.lines)

/-- The names are those of the files, and no line of a file is empty. -/
structure Filed (s : MergeParser) : Prop where
  nodup : s.fileNames.Nodup
  mem : ∀ f, f ∈ s.fileNames ↔ (s.files f).isSome
  full : ∀ f file, s.files f = some file → file.Full

section Filed

variable {cfg : MergeSetup} {s t : MergeParser} {filename : Text}

theorem full_addLine {f : MergeFile} (h : f.Full) (n : U32) (a : U64) : (f.addLine n a).Full := by
  intro l hl
  by_cases hn : l = n
  · exact ⟨a, MergeFile.hasAddr_addLine.mpr (Or.inr (by rw [hn]))⟩
  · have hl' : l ∈ f.lines := ((AList.mem_insert _).mp hl).resolve_left hn
    obtain ⟨b, hb⟩ := h l hl'
    exact ⟨b, MergeFile.hasAddr_addLine.mpr (Or.inl hb)⟩

theorem full_registerHits {f : MergeFile} (h : f.Full) (a : U64) (n : U32) :
    (f.registerHits a n).Full := h

theorem filed_create : Filed create :=
  ⟨List.nodup_nil, fun f => by simp [create], fun f file h => by simp [create] at h⟩

theorem Filed.report (h : Filed s) (ev : Reporter.Event) : Filed (s.report ev) :=
  ⟨h.nodup, h.mem, h.full⟩

theorem Filed.modifyFile (h : Filed s) {g : MergeFile → MergeFile}
    (hg : ∀ file : MergeFile, file.Full → (g file).Full) : Filed (s.modifyFile filename g) := by
  refine ⟨h.nodup, fun f => ?_, fun f file hfile => ?_⟩
  · rw [modifyFile_files]
    refine (h.mem f).trans ?_
    split
    next hf => rw [hf, Option.isSome_map]
    next => rfl
  · rw [modifyFile_files] at hfile
    split at hfile
    next hf =>
      obtain ⟨file', hfile', rfl⟩ := Option.map_eq_some_iff.mp hfile
      exact hg file' (h.full filename file' hfile')
    next => exact h.full f file hfile

theorem Filed.parseAddress (h : Filed s) (n : U32) (word : U64) :
    Filed (parseAddress filename n s word) := by
  have hline := (@Filed.modifyFile s filename h _ fun file hfile =>
    full_addLine hfile n (word &&& ~~~hitBit)).report
      (.line filename n (word &&& ~~~hitBit &&& ~~~hitBit))
  rw [MergeParser.parseAddress]
  split
  · refine Filed.report (Filed.modifyFile hline ?_) _
    exact fun file hfile => full_registerHits hfile _ 1
  · exact hline

theorem Filed.parseEntries (h : Filed s) (entries : List (U32 × List U64)) :
    Filed (s.parseEntries filename entries) :=
  parseEntries_induction (fun n word _ hs => hs.parseAddress n word) h entries

theorem Filed.openFile (h : Filed s) (hopen : s.openFile cfg filename = some t) : Filed t := by
  rw [MergeParser.openFile] at hopen
  split at hopen
  next => exact Option.some.inj hopen ▸ h
  next hnone =>
    obtain ⟨file, hfile, ht⟩ := Option.bind_eq_some_iff.mp hopen
    obtain ⟨data, -, rfl⟩ := create_eq_some.mp hfile
    obtain rfl := Option.some.inj ht
    have hnotMem : filename ∉ s.fileNames := by
      rw [h.mem, hnone]
      simp
    refine ⟨?_, fun f => ?_, fun f file hf => ?_⟩
    · exact List.nodup_append.mpr ⟨h.nodup, List.nodup_singleton _, fun a ha b hb hab =>
        hnotMem (List.mem_singleton.mp hb ▸ hab ▸ ha)⟩
    · dsimp only
      rw [List.mem_append, List.mem_singleton, Function.update_apply, h.mem]
      split
      next hf => simp [hf]
      next hf => simp [hf]
    · dsimp only at hf
      rw [Function.update_apply] at hf
      split at hf
      next =>
        rw [← Option.some.inj hf]
        exact fun l hl => absurd hl (AList.notMem_empty l)
      next => exact h.full f file hf

theorem Filed.parseFileData {r : Record} (h : Filed s) (ht : s.parseFileData cfg r = some t) :
    Filed t := by
  rw [MergeParser.parseFileData] at ht
  split at ht
  · exact Option.some.inj ht ▸ h
  · split at ht
    · obtain ⟨u, hopen, ht⟩ := Option.bind_eq_some_iff.mp ht
      exact Option.some.inj ht ▸ (h.openFile hopen).parseEntries _
    · split at ht
      · exact Option.some.inj ht ▸ h
      · exact Option.some.inj ht ▸ h.parseEntries _

theorem filed_run {records : List Record} (h : parseAll cfg records = some s) : Filed s := by
  induction records using List.reverseRecOn generalizing s with
  | nil =>
    cases h
    exact filed_create
  | append_singleton records r ih =>
    rw [parseAll, List.foldlM_append, Option.bind_eq_bind, Option.bind_eq_some_iff] at h
    obtain ⟨s₀, hs₀, hstep⟩ := h
    exact (ih hs₀).parseFileData (by simpa using hstep)

end Filed

/-! ### Merging current records -/

/-- The words of the records of a file. -/
def wordsOf (records : List Record) (f : Text) : List (U32 × U64) :=
  (records.filter (·.fileName = f)).flatMap Record.words

/-- The file of the record exists with its checksum, under its name. -/
structure IsCurrent (cfg : MergeSetup) (r : Record) : Prop where
  fresh : r.isFresh cfg = true
  mangled : cfg.mangleSourcePath r.fileName = r.fileName

/-- The parser has the words, file by file. -/
structure Holds (ws : Text → List (U32 × U64)) (s : MergeParser) : Prop where
  hasAddr : ∀ f l a, s.hasAddr f l a = true ↔ (l, a) ∈ (ws f).map strip
  isHit : ∀ f a, s.isHit f a = true ↔ hitsIn (ws f) a % 2 ^ 32 ≠ 0
  hasLine : ∀ f l, s.hasLine f l = true ↔ ∃ a, (l, a) ∈ (ws f).map strip

section Current

variable {cfg : MergeSetup} {records : List Record} {s : MergeParser} {r : Record} {f : Text}

theorem IsCurrent.exists (h : IsCurrent cfg r) : cfg.host.fileExists r.fileName = true ∧
    (cfg.host.readFile r.fileName).isSome := by
  have hfresh := h.fresh
  rw [Record.isFresh, Record.file, h.mangled, Bool.and_eq_true, beq_iff_eq] at hfresh
  refine ⟨hfresh.1, ?_⟩
  obtain ⟨data, hdata, -⟩ := Option.map_eq_some_iff.mp hfresh.2
  rw [hdata]
  rfl

theorem usedOf_current (h : ∀ r ∈ records, IsCurrent cfg r) (f : Text) :
    usedOf cfg records f = records.filter (·.fileName = f) := by
  rcases usedOf_cases cfg records f with hused | ⟨r, hr, -, hstale, -⟩
  · rw [hused, freshOf]
    apply List.filter_congr
    intro r hr
    rw [(h r hr).fresh, Bool.and_true, Record.file, (h r hr).mangled]
  · simp [(h r hr).fresh] at hstale

theorem exists_parseAll (h : ∀ r ∈ records, IsCurrent cfg r) :
    ∃ s, parseAll cfg records = some s := by
  refine Option.isSome_iff_exists.mp (parseAll_isSome.mpr fun r hr _ => ?_)
  rw [Record.file, (h r hr).mangled]
  exact (h r hr).exists.2

theorem Filed.hasLine_iff (h : Filed s) (f : Text) (l : U32) :
    s.hasLine f l = true ↔ ∃ a, s.hasAddr f l a = true := by
  rw [hasLine]
  simp only [hasAddr]
  cases hfile : s.files f with
  | none => simp
  | some file =>
    simp only [Option.any_some, decide_eq_true_eq]
    constructor
    · exact fun hl => h.full f file hfile l hl
    · rintro ⟨a, ha⟩
      exact MergeFile.mem_lines_of_hasAddr ha

theorem holds_run (hcurrent : ∀ r ∈ records, IsCurrent cfg r)
    (h : parseAll cfg records = some s) : Holds (wordsOf records) s := by
  have hparsed := parsed_run h
  have hfile : ∀ f, (∀ l a, s.hasAddr f l a = true ↔ (l, a) ∈ (wordsOf records f).map strip) ∧
      ∀ a, s.isHit f a = true ↔ hitsIn (wordsOf records f) a % 2 ^ 32 ≠ 0 := by
    intro f
    cases hex : cfg.host.fileExists f with
    | true =>
      obtain ⟨haddr, hhit⟩ := hparsed.used hex
      rw [usedOf_current hcurrent] at haddr hhit
      refine ⟨fun l a => (haddr l a).trans ?_, hhit⟩
      rw [wordsOf, List.map_flatMap, List.mem_flatMap]
    | false =>
      have hnil : wordsOf records f = [] := by
        rw [wordsOf, List.filter_eq_nil_iff.mpr, List.flatMap_nil]
        intro r hr hname
        rw [← decide_eq_true_eq.mp hname, (hcurrent r hr).exists.1] at hex
        simp at hex
      obtain ⟨haddr, hhit⟩ := hparsed.missing_used hex
      simp [haddr, hhit, hnil, hitsIn]
  refine ⟨fun f => (hfile f).1, fun f => (hfile f).2, fun f l => ?_⟩
  rw [(filed_run h).hasLine_iff]
  simp only [(hfile f).1]

/-- A file of the merge is one of a record, and its own record is current. -/
theorem current_toRecord (hcurrent : ∀ r ∈ records, IsCurrent cfg r)
    (h : parseAll cfg records = some s) {file : MergeFile} (hfile : s.files f = some file)
    (md : MetadataSetup) :
    (∃ r ∈ records, r.fileName = f) ∧ IsCurrent cfg (file.toRecord md f) := by
  have hparsed := parsed_run h
  have hsome : ∃ r ∈ records, r.fileName = f := by
    by_contra hne
    have hnone := hparsed.unnamed f fun r hr hrf => hne ⟨r, hr, by
      rw [← hrf, Record.file, (hcurrent r hr).mangled]⟩
    rw [hnone] at hfile
    cases hfile
  obtain ⟨r, hr, rfl⟩ := hsome
  have hname : (file.toRecord md r.fileName).file cfg = r.fileName := (hcurrent r hr).mangled
  refine ⟨⟨r, hr, rfl⟩, ?_, (hcurrent r hr).mangled⟩
  exact (hparsed.known (by rw [hname]; exact hfile)).2.mpr rfl

theorem Holds.file {ws : Text → List (U32 × U64)} (h : Holds ws s) {file : MergeFile}
    (hfile : s.files f = some file) :
    (∀ l a, file.hasAddr l a = true ↔ (l, a) ∈ (ws f).map strip) ∧
      (∀ a, file.isHit a = true ↔ hitsIn (ws f) a % 2 ^ 32 ≠ 0) ∧
      ∀ l a, file.hasAddr l a = true → a &&& ~~~hitBit = a := by
  have haddr : ∀ l a, file.hasAddr l a = true ↔ (l, a) ∈ (ws f).map strip := by
    intro l a
    rw [← h.hasAddr f l a, MergeParser.hasAddr, hfile, Option.any_some]
  refine ⟨haddr, fun a => ?_, fun l a ha => ?_⟩
  · rw [← h.isHit f a, MergeParser.isHit, hfile, Option.any_some]
  · obtain ⟨p, -, hp⟩ := List.mem_map.mp ((haddr l a).mp ha)
    rw [← (Prod.mk.inj hp).2, BitVec.and_assoc, BitVec.and_self]

end Current

/-! ### The output of a merge -/

/-- The size of the metadata file of the words. -/
def encodedSize (ws : List (U32 × U64)) (f : Text) : Nat :=
  sizeofFileData + sizeofLineEntry * ((pairsIn ws).map (·.1)).dedup.length +
    8 * (pairsIn ws).length + f.length + 9

/-- The files of the records have distinct checksums of their names. -/
def DistinctNames (cfg : MergeSetup) (records : List Record) : Prop :=
  ∀ r ∈ records, ∀ r' ∈ records,
    cfg.host.hashBlock r.fileName = cfg.host.hashBlock r'.fileName → r.fileName = r'.fileName

/-- The metadata of every file of the records has a size of 32 bits. -/
def SizesFit (records : List Record) : Prop :=
  ∀ r ∈ records, encodedSize (wordsOf records r.fileName) r.fileName < 2 ^ 32

/-- The files of the records have their own names in the metadata directory, and fit in it. -/
structure Writable (cfg : MergeSetup) (records : List Record) : Prop where
  terminated : ∀ r ∈ records, 0 ∉ r.fileName
  distinct : DistinctNames cfg records
  size : SizesFit records

section Output

variable {cfg : MergeSetup} {records : List Record} {s : MergeParser} {f : Text}

/-- Files that are written under different names are all there. -/
theorem foldlM_insert {names : List Text} {key : Text → Text} {val : Text → List Byte}
    {step : Directory → Text → Option Directory}
    (hstep : ∀ dir, ∀ f ∈ names, step dir f = some (dir.insert (key f) (val f)))
    (hkeys : (names.map key).Nodup) (dir : Directory)
    (hdir : ∀ f ∈ names, key f ∉ dir) :
    ∃ out, names.foldlM step dir = some out ∧
      out.entries = (names.map fun f => ⟨key f, val f⟩).reverse ++ dir.entries := by
  induction names generalizing dir with
  | nil => exact ⟨dir, rfl, rfl⟩
  | cons f names ih =>
    rw [List.map_cons, List.nodup_cons] at hkeys
    have hnew : ∀ g ∈ names, key g ∉ dir.insert (key f) (val f) := by
      intro g hg hmem
      rcases (AList.mem_insert _).mp hmem with heq | hmem
      · exact hkeys.1 (heq ▸ List.mem_map_of_mem hg)
      · exact hdir g (List.mem_cons_of_mem f hg) hmem
    obtain ⟨out, hout, hentries⟩ := ih (fun dir g hg => hstep dir g (List.mem_cons_of_mem f hg))
      hkeys.2 (dir.insert (key f) (val f)) hnew
    refine ⟨out, ?_, ?_⟩
    · rw [List.foldlM_cons, hstep dir f List.mem_cons_self, Option.bind_eq_bind, Option.bind_some,
        hout]
    · rw [hentries, AList.entries_insert_of_notMem (hdir f List.mem_cons_self), List.map_cons,
        List.reverse_cons, List.append_assoc, List.singleton_append]

/-- What is written for a file is read back as its record. -/
theorem marshalFile_record (md : MetadataSetup) {file : MergeFile} (hname : 0 ∉ f)
    (hsize : imageSize (file.inOrder md f) f < 2 ^ 32) (crc : U32) :
    ∃ fd, marshalFile md f file = some fd ∧
      StoredFile.record md.endian ⟨hexName crc, fd.take (FileData.decode .big fd).size.toNat⟩ =
        some (file.toRecord md f) := by
  refine ⟨_, marshalFile_eq_image hname hsize, ?_⟩
  have hheader : FileData.decode .big (imageOf .big (headerOf md f file) (file.inOrder md f) f) =
      headerOf md f file := FileData.decode_encode .big _ _
  have hlen : (headerOf md f file).size.toNat = imageSize (file.inOrder md f) f := by
    rw [headerOf, BitVec.toNat_ofNat, Nat.mod_eq_of_lt hsize]
  rw [hheader, hlen, List.take_of_length_le (length_imageOf _ _ _ _).le, record_eq_some]
  refine ⟨⟨stringIsInteger_hexName crc, ?_⟩, ?_⟩
  · rw [length_imageOf, imageSize]
    omega
  · exact readRecord_image md.endian (headerOf_locates hsize) hname

theorem imageSize_eq_encodedSize (hcurrent : ∀ r ∈ records, IsCurrent cfg r)
    (h : parseAll cfg records = some s) {file : MergeFile} (hfile : s.files f = some file)
    (md : MetadataSetup) :
    imageSize (file.inOrder md f) f = encodedSize (wordsOf records f) f := by
  obtain ⟨haddr, -, -⟩ := (holds_run hcurrent h).file hfile
  have hlines := (MergeFile.keys_perm ((filed_run h).full f file hfile) haddr).length_eq
  rw [MergeFile.imageSize_inOrder, hlines, (MergeFile.pairs_perm haddr).length_eq, encodedSize]

/-- In merge mode `onStop` writes a record of every file. -/
theorem writeFiles_records (md : MetadataSetup) (hcurrent : ∀ r ∈ records, IsCurrent cfg r)
    (hw : Writable cfg records) (h : parseAll cfg records = some s) :
    ∃ (dir : Directory) (names : List Text), s.writeFiles md cfg true = some dir ∧
      names.Perm s.fileNames ∧
      dir.entries.map (fun file => StoredFile.record md.endian ⟨file.1, file.2⟩) =
        names.map fun f => (s.files f).map fun file => file.toRecord md f := by
  have hfiled := filed_run h
  let key : Text → Text := fun f => hexName (cfg.host.hashBlock f)
  let val : Text → List Byte := fun f => ((s.files f).bind (marshalFile md f)).elim [] fun fd =>
    fd.take (FileData.decode .big fd).size.toNat
  have hperm : (md.files.order s.fileNames).Perm s.fileNames := md.files.perm _
  have hfile : ∀ f ∈ s.fileNames, ∃ file fd, s.files f = some file ∧
      marshalFile md f file = some fd ∧
      StoredFile.record md.endian ⟨key f, fd.take (FileData.decode .big fd).size.toNat⟩ =
        some (file.toRecord md f) := by
    intro f hf
    obtain ⟨file, hsome⟩ := Option.isSome_iff_exists.mp ((hfiled.mem f).mp hf)
    obtain ⟨⟨r, hr, rfl⟩, -⟩ := current_toRecord hcurrent h hsome md
    obtain ⟨fd, hfd, hrecord⟩ := marshalFile_record md (hw.terminated r hr)
      (imageSize_eq_encodedSize hcurrent h hsome md ▸ hw.size r hr)
      (cfg.host.hashBlock r.fileName)
    exact ⟨file, fd, hsome, hfd, hrecord⟩
  have hkeys : ((md.files.order s.fileNames).map key).Nodup := by
    apply (hperm.nodup_iff.mpr hfiled.nodup).map_on
    intro f hf g hg hfg
    obtain ⟨file, -, hsome, -⟩ := hfile f (hperm.mem_iff.mp hf)
    obtain ⟨file', -, hsome', -⟩ := hfile g (hperm.mem_iff.mp hg)
    obtain ⟨⟨r, hr, rfl⟩, -⟩ := current_toRecord hcurrent h hsome md
    obtain ⟨⟨r', hr', rfl⟩, -⟩ := current_toRecord hcurrent h hsome' md
    exact hw.distinct r hr r' hr' (hexName_inj hfg)
  have hstep : ∀ dir, ∀ f ∈ md.files.order s.fileNames,
      s.writeOne md cfg true dir f = some (dir.insert (key f) (val f)) := by
    intro dir f hf
    obtain ⟨file, fd, hsome, hfd, -⟩ := hfile f (hperm.mem_iff.mp hf)
    simp [writeOne, hsome, hfd, key, val]
  obtain ⟨dir, hdir, hentries⟩ := foldlM_insert hstep hkeys ∅ fun f _ => AList.notMem_empty _
  refine ⟨dir, (md.files.order s.fileNames).reverse, hdir, (List.reverse_perm _).trans hperm, ?_⟩
  rw [hentries, AList.empty_entries, List.append_nil, List.map_reverse, List.map_map,
    List.map_reverse]
  congr 1
  apply List.map_congr_left
  intro f hf
  obtain ⟨file, fd, hsome, hfd, hrecord⟩ := hfile f (hperm.mem_iff.mp hf)
  simp only [Function.comp, val, hsome, hfd, Option.bind_some, Option.elim_some, Option.map_some]
  exact hrecord

/-! ### The records of the output -/

theorem wordsOf_append (rs rs' : List Record) (f : Text) :
    wordsOf (rs ++ rs') f = wordsOf rs f ++ wordsOf rs' f := by
  rw [wordsOf, List.filter_append, List.flatMap_append, wordsOf, wordsOf]

theorem wordsOf_perm {rs rs' : List Record} (h : rs.Perm rs') (f : Text) :
    (wordsOf rs f).Perm (wordsOf rs' f) := (h.filter _).flatMap_right _

theorem hitsIn_append (ws vs : List (U32 × U64)) (a : U64) :
    hitsIn (ws ++ vs) a = hitsIn ws a + hitsIn vs a := List.countP_append

theorem hitsIn_perm {ws vs : List (U32 × U64)} (h : ws.Perm vs) (a : U64) :
    hitsIn ws a = hitsIn vs a := h.countP_eq _

/-- A list of records of different files has the words of a file in one of them. -/
theorem wordsOf_filterMap {names : List Text} {g : Text → Option Record} (hnodup : names.Nodup)
    (hg : ∀ f r, g f = some r → r.fileName = f) (f : Text) :
    wordsOf (names.filterMap g) f = if f ∈ names then ((g f).map Record.words).getD [] else [] := by
  have hone : (names.filterMap g).filter (·.fileName = f) =
      (names.filter (· = f)).filterMap g := by
    rw [List.filter_filterMap, List.filterMap_filter]
    apply List.filterMap_congr
    intro x _
    cases hx : g x with
    | none => simp
    | some r =>
      have hr := hg x r hx
      by_cases hxf : x = f
      · simp [hr, hxf]
      · simp [hr, hxf]
  rw [wordsOf, hone, List.filter_eq, hnodup.count]
  split
  next =>
    rw [List.replicate_one]
    cases hf : g f with
    | none => simp [hf]
    | some r => simp [hf]
  next => rfl

/-- In how many lines the words have the address. -/
def linesWith (ws : List (U32 × U64)) (a : U64) : Nat := (pairsIn ws).countP (·.2 = a)

/-- The output of a merge has the words of the merged records, and a hit for every line of an address
that was hit. -/
theorem wordsOf_output (hcurrent : ∀ r ∈ records, IsCurrent cfg r)
    (h : parseAll cfg records = some s) (md : MetadataSetup) {names : List Text}
    (hnames : names.Perm s.fileNames) (f : Text) :
    let out := names.filterMap fun f => (s.files f).map fun file => file.toRecord md f
    (∀ l a, (l, a) ∈ (wordsOf out f).map strip ↔ (l, a) ∈ (wordsOf records f).map strip) ∧
      ∀ a, hitsIn (wordsOf out f) a = if hitsIn (wordsOf records f) a % 2 ^ 32 ≠ 0 then
        linesWith (wordsOf records f) a else 0 := by
  have hfiled := filed_run h
  have hholds := holds_run hcurrent h
  intro out
  have hwords : wordsOf out f = (((s.files f).map fun file => file.toRecord md f).map
      Record.words).getD [] := by
    rw [wordsOf_filterMap (hnames.nodup_iff.mpr hfiled.nodup)]
    · split
      next => rfl
      next hf =>
        rw [hnames.mem_iff, hfiled.mem, Bool.not_eq_true, Option.isSome_eq_false_iff,
          Option.isNone_iff_eq_none] at hf
        rw [hf]
        rfl
    · intro f r hr
      obtain ⟨file, -, rfl⟩ := Option.map_eq_some_iff.mp hr
      rfl
  rw [hwords]
  cases hfile : s.files f with
  | none =>
    have haddr := hholds.hasAddr f
    have hhit := hholds.isHit f
    simp only [hasAddr, isHit, hfile, Option.any_none, Bool.false_eq_true, false_iff] at haddr hhit
    refine ⟨fun l a => ?_, fun a => ?_⟩
    · simp [haddr l a]
    · rw [if_neg (hhit a)]
      rfl
  | some file =>
    obtain ⟨haddr, hhit, hclear⟩ := hholds.file hfile
    refine ⟨fun l a => ?_, fun a => ?_⟩
    · rw [← haddr, ← MergeFile.mem_pairs]
      exact (MergeFile.strip_words hclear).mem_iff
    · simp only [Option.map_some, Option.getD_some]
      rw [MergeFile.hitsIn_words hclear, (MergeFile.pairs_perm haddr).countP_eq]
      simp only [hhit]
      rfl

end Output

end MergeParser

end Kcov
