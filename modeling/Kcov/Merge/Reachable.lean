import Kcov.Lib.Runs
import Kcov.Merge.Nested

/-! The files that a merge parser can have: what its listeners and the stored records can put into
them, and what comes back when they are written and read again. -/

namespace Kcov

open Bytes

namespace MergeFile

/-- Every line has an address, no address has the hit bit, and hits are at addresses of lines. -/
structure Sound (f : MergeFile) : Prop where
  full : f.Full
  clear : ∀ l a, f.hasAddr l a = true → a &&& ~~~hitBit = a
  hits : ∀ a ∈ f.addrHits, ∃ l, f.hasAddr l a = true

section Sound

variable {f : MergeFile} {a : U64}

theorem sound_create {host : Host} {filename : Text} (h : create host filename = some f) :
    f.Sound := by
  obtain ⟨data, -, rfl⟩ := MergeParser.create_eq_some.mp h
  exact ⟨fun l hl => absurd hl (AList.notMem_empty l), fun l a ha => by simp [hasAddr, lineAddrs] at ha,
    fun a ha => absurd ha (AList.notMem_empty a)⟩

theorem Sound.setLocal (h : f.Sound) : f.setLocal.Sound := ⟨h.full, h.clear, h.hits⟩

theorem Sound.addLine (h : f.Sound) (n : U32) {b : U64} (hb : b &&& ~~~hitBit = b) :
    (f.addLine n b).Sound := by
  refine ⟨MergeParser.full_addLine h.full n b, fun l a ha => ?_, fun a ha => ?_⟩
  · rcases hasAddr_addLine.mp ha with ha | heq
    · exact h.clear l a ha
    · rw [(Prod.mk.inj heq).2, hb]
  · obtain ⟨l, hl⟩ := h.hits a ha
    exact ⟨l, hasAddr_addLine.mpr (Or.inl hl)⟩

theorem Sound.registerHits (h : f.Sound) {b : U64} (hb : ∃ l, f.hasAddr l b = true) (n : U32) :
    (f.registerHits b n).Sound := by
  refine ⟨h.full, h.clear, fun a ha => ?_⟩
  rcases (AList.mem_insert _).mp ha with rfl | ha
  · exact hb
  · exact h.hits a ha

/-- A file counts hits only at addresses that it stores. -/
theorem mem_addrHits_of_isHit (h : f.isHit a = true) : a ∈ f.addrHits := by
  rw [isHit, decide_eq_true_eq, AddrMap.count] at h
  rw [← AList.lookup_isSome]
  cases hlook : f.addrHits.lookup a with
  | none => simp [hlook] at h
  | some n => rfl

end Sound

end MergeFile

namespace MergeParser

/-! ### Calls -/

/-- What a merge parser is told: by the reporter, or by a stored record. -/
inductive Call where
  | reporter (n : Notification)
  | stored (r : Record)

def call (cfg : MergeSetup) (s : MergeParser) : Call → Option MergeParser
  | .reporter n => s.onNotification cfg n
  | .stored r => s.parseFileData cfg r

/-- A new parser after a sequence of calls, or `none` where one panics. -/
def runCalls (cfg : MergeSetup) (calls : List Call) : Option MergeParser :=
  calls.foldlM (call cfg) create

/-! ### What the calls leave -/

/-- The file has the address in one of its lines. -/
def Stores (s : MergeParser) (f : Text) (a : U64) : Prop :=
  ∃ file l, s.files f = some file ∧ file.hasAddr l a = true

/-- The files are sound, and an address is known for a file that stores it. -/
structure Sound (s : MergeParser) : Prop where
  files : ∀ f file, s.files f = some file → file.Sound
  byAddress : ∀ a f, s.filesByAddress a = some f → s.Stores f a

section Steps

variable {cfg : MergeSetup} {s t : MergeParser} {f : Text}

theorem sound_create : Sound create :=
  ⟨fun _ _ h => by simp [create] at h, fun _ _ h => by simp [create] at h⟩

theorem Sound.congr (h : s.Sound) (hfiles : t.files = s.files)
    (hbyAddress : t.filesByAddress = s.filesByAddress) : t.Sound := by
  refine ⟨fun f file hf => h.files f file (hfiles ▸ hf), fun a f hf => ?_⟩
  unfold Stores
  rw [hfiles]
  exact h.byAddress a f (hbyAddress ▸ hf)

theorem Sound.report (h : s.Sound) (ev : Reporter.Event) : (s.report ev).Sound := h.congr rfl rfl

theorem Stores.modifyFile {q : Text} {a : U64} (h : s.Stores q a) {g : MergeFile → MergeFile}
    (hg : ∀ file : MergeFile, ∀ l a, file.hasAddr l a = true → (g file).hasAddr l a = true) :
    (s.modifyFile f g).Stores q a := by
  obtain ⟨file, l, hfile, ha⟩ := h
  unfold Stores
  rw [modifyFile_files]
  split
  next hq =>
    subst hq
    exact ⟨g file, l, by rw [hfile, Option.map_some], hg file l a ha⟩
  next => exact ⟨file, l, hfile, ha⟩

theorem Sound.modifyFile (h : s.Sound) {g : MergeFile → MergeFile}
    (hsound : ∀ file, s.files f = some file → file.Sound → (g file).Sound)
    (hg : ∀ file : MergeFile, ∀ l a, file.hasAddr l a = true → (g file).hasAddr l a = true) :
    (s.modifyFile f g).Sound := by
  refine ⟨fun q file hfile => ?_, fun a q hq => (h.byAddress a q hq).modifyFile hg⟩
  rw [modifyFile_files] at hfile
  split at hfile
  next =>
    obtain ⟨file', hfile', rfl⟩ := Option.map_eq_some_iff.mp hfile
    exact hsound file' hfile' (h.files f file' hfile')
  next => exact h.files q file hfile

theorem Sound.openFile (h : s.Sound) (hopen : s.openFile cfg f = some t) :
    t.Sound ∧ (t.files f).isSome := by
  rw [MergeParser.openFile] at hopen
  cases hfile : s.files f with
  | some file =>
    simp only [hfile, Option.some.injEq] at hopen
    subst hopen
    exact ⟨h, by rw [hfile]; rfl⟩
  | none =>
    simp only [hfile, Option.bind_eq_bind, Option.bind_eq_some_iff, Option.pure_def,
      Option.some.injEq] at hopen
    obtain ⟨file, hcreate, rfl⟩ := hopen
    refine ⟨⟨fun q g hg => ?_, fun a q hq => ?_⟩, by simp⟩
    · dsimp only at hg
      rw [Function.update_apply] at hg
      split at hg
      next => exact Option.some.inj hg ▸ MergeFile.sound_create hcreate
      next => exact h.files q g hg
    · obtain ⟨g, l, hg, ha⟩ := h.byAddress a q hq
      refine ⟨g, l, ?_, ha⟩
      dsimp only
      rw [Function.update_of_ne]
      · exact hg
      · rintro rfl
        simp [hfile] at hg

theorem Sound.onAddress (h : s.Sound) (addr hits : U64) : (s.onAddress addr hits).Sound := by
  rw [MergeParser.onAddress]
  split
  · exact h.congr rfl rfl
  · rename_i a _
    split
    · exact h
    · rename_i f hf
      apply Sound.report
      apply h.modifyFile
      · intro file hfile hs
        obtain ⟨file', l, hfile', ha⟩ := h.byAddress a f hf
        obtain rfl : file' = file := Option.some.inj (hfile'.symm.trans hfile)
        exact hs.registerHits ⟨l, ha⟩ _
      · exact fun _ _ _ ha => ha

theorem Sound.onLineReporter (h : s.Sound) {lineNr : U32} {addr : U64}
    (ht : s.onLineReporter cfg f lineNr addr = some t) : t.Sound := by
  rw [MergeParser.onLineReporter] at ht
  split at ht
  · exact Option.some.inj ht ▸ h
  · split at ht
    · exact Option.some.inj ht ▸ h
    · simp only [Option.bind_eq_bind, Option.bind_eq_some_iff] at ht
      obtain ⟨s₁, hopen, ht⟩ := ht
      obtain ⟨hs₁, hsome⟩ := h.openFile hopen
      obtain ⟨file, hfile⟩ := Option.isSome_iff_exists.mp hsome
      generalize hhash : hashAddress cfg.host f lineNr &&& ~~~hitBit = a at ht
      have ha : a &&& ~~~hitBit = a := by
        rw [← hhash, BitVec.and_assoc, BitVec.and_self]
      have hline : Sound (s₁.modifyFile f fun file => file.setLocal.addLine lineNr a) := by
        apply hs₁.modifyFile
        · exact fun file _ hs => hs.setLocal.addLine lineNr ha
        · exact fun file l b hb => MergeFile.hasAddr_addLine.mpr (Or.inl hb)
      -- The file by which the address is known has just got it.
      have hstores : (s₁.modifyFile f fun file => file.setLocal.addLine lineNr a).Stores f a := by
        refine ⟨file.setLocal.addLine lineNr a, lineNr, ?_, ?_⟩
        · rw [modifyFile_files, if_pos rfl, hfile, Option.map_some]
        · exact MergeFile.hasAddr_addLine.mpr (Or.inr rfl)
      have hknown : ∀ u : MergeParser,
          u.files = (s₁.modifyFile f fun file => file.setLocal.addLine lineNr a).files →
          u.filesByAddress = Function.update s₁.filesByAddress a (some f) → u.Sound := by
        intro u hu hby
        refine ⟨fun q g hg => hline.files q g (hu ▸ hg), fun b q hb => ?_⟩
        rw [hby, Function.update_apply] at hb
        unfold Stores
        rw [hu]
        split at hb
        next heq =>
          obtain rfl := Option.some.inj hb
          exact heq ▸ hstores
        next => exact hline.byAddress b q hb
      split at ht
      · exact Option.some.inj ht ▸ hknown _ rfl rfl
      · refine Option.some.inj ht ▸ Sound.congr (Sound.onAddress (hknown _ ?_ ?_) addr _) rfl rfl
        all_goals rfl

theorem Sound.parseAddress (h : s.Sound) (lineNr : U32) (word : U64) :
    (parseAddress f lineNr s word).Sound := by
  have ha : (word &&& ~~~hitBit) &&& ~~~hitBit = word &&& ~~~hitBit := by
    rw [BitVec.and_assoc, BitVec.and_self]
  have hline : Sound ((s.modifyFile f fun file => file.addLine lineNr (word &&& ~~~hitBit)).report
      (.line f lineNr (word &&& ~~~hitBit &&& ~~~hitBit))) := by
    apply Sound.report
    apply h.modifyFile
    · exact fun file _ hs => hs.addLine lineNr ha
    · exact fun file l b hb => MergeFile.hasAddr_addLine.mpr (Or.inl hb)
  rw [MergeParser.parseAddress]
  split
  · apply Sound.report
    apply hline.modifyFile
    · intro file hfile hs
      rw [MergeParser.report, modifyFile_files, if_pos rfl] at hfile
      obtain ⟨file', -, rfl⟩ := Option.map_eq_some_iff.mp hfile
      exact hs.registerHits ⟨lineNr, MergeFile.hasAddr_addLine.mpr (Or.inr rfl)⟩ 1
    · exact fun _ _ _ hb => hb
  · exact hline

theorem Sound.parseEntries (h : s.Sound) (entries : List (U32 × List U64)) :
    (s.parseEntries f entries).Sound :=
  parseEntries_induction (fun n word _ hs => hs.parseAddress n word) h entries

theorem Sound.parseFileData (h : s.Sound) {r : Record} (ht : s.parseFileData cfg r = some t) :
    t.Sound := by
  rw [MergeParser.parseFileData] at ht
  split at ht
  · exact Option.some.inj ht ▸ h
  · split at ht
    · simp only [Option.bind_eq_bind, Option.bind_eq_some_iff, Option.pure_def,
        Option.some.injEq] at ht
      obtain ⟨s₁, hopen, rfl⟩ := ht
      exact (h.openFile hopen).1.parseEntries r.entries
    · split at ht
      · exact Option.some.inj ht ▸ h
      · exact Option.some.inj ht ▸ h.parseEntries r.entries

theorem Sound.call (h : s.Sound) {c : Call} (ht : s.call cfg c = some t) : t.Sound := by
  cases c with
  | reporter n =>
    cases n with
    | onAddress lineHash hits => exact Option.some.inj ht ▸ h.onAddress lineHash hits
    | onLineReporter file lineNr lineId => exact h.onLineReporter ht
  | stored r => exact h.parseFileData ht

theorem sound_runCalls {calls : List Call} (h : runCalls cfg calls = some s) : s.Sound :=
  Runs.foldlM_invariant (fun _ _ _ hs ht => hs.call ht) sound_create h

end Steps

end MergeParser

/-! ### Writing and reading -/

/-- The files have the same lines, with the same addresses, and the same hit addresses. -/
structure MergeFile.SameCoverage (f g : MergeFile) : Prop where
  lines : ∀ l, l ∈ f.lines ↔ l ∈ g.lines
  hasAddr : ∀ l a, f.hasAddr l a = g.hasAddr l a
  isHit : ∀ a, f.isHit a = g.isHit a

namespace MergeFile

variable {f : MergeFile} {md : MetadataSetup} {filename : Text}

/-- A written address is read back as hit if and only if it was hit: it is marked once for each of its
lines, and there are fewer lines than the counter can hold. -/
theorem Sound.hitsIn_words (h : f.Sound) (hsize : imageSize (f.inOrder md filename) filename < 2 ^ 32)
    (a : U64) : hitsIn (f.toRecord md filename).words a % 2 ^ 32 ≠ 0 ↔ f.isHit a = true := by
  have hsmall : f.pairs.length < 2 ^ 32 := by
    rw [imageSize_inOrder] at hsize
    omega
  rw [MergeFile.hitsIn_words h.clear]
  split
  next hhit =>
    obtain ⟨l, hl⟩ := h.hits a (mem_addrHits_of_isHit hhit)
    have hpos : 0 < f.pairs.countP (·.2 = a) :=
      List.countP_pos_iff.mpr ⟨(l, a), mem_pairs.mpr hl, by simp⟩
    have hle := List.countP_le_length (p := (·.2 = a)) (l := f.pairs)
    simp only [hhit, iff_true]
    omega
  next hhit => simpa using hhit

end MergeFile

namespace MergeParser

section ReadsBack

variable {cfg : MergeSetup} {s t : MergeParser} {f : Text} {file : MergeFile} {md : MetadataSetup}

/-- A new parser that is given one record has its coverage. -/
theorem sameCoverage_toRecord (h : file.Sound)
    (hsize : imageSize (file.inOrder md f) f < 2 ^ 32)
    (hex : cfg.host.fileExists (cfg.mangleSourcePath f) = true)
    (hread : (cfg.host.readFile (cfg.mangleSourcePath f)).isSome) :
    ∃ t g, create.parseFileData cfg (file.toRecord md f) = some t ∧
      t.files (cfg.mangleSourcePath f) = some g ∧ g.SameCoverage file := by
  have hpath : (file.toRecord md f).file cfg = cfg.mangleSourcePath f := rfl
  obtain ⟨t, ht⟩ := Option.isSome_iff_exists.mp ((@parseAll_isSome cfg [file.toRecord md f]).mpr
    fun r hr _ => by rw [List.mem_singleton.mp hr]; exact hread)
  have hparsed := parsed_run ht
  have hfiled := filed_run ht
  have hused : usedOf cfg [file.toRecord md f] (cfg.mangleSourcePath f) = [file.toRecord md f] := by
    rw [usedOf, List.filter_cons_of_pos (by simpa using hpath), List.filter_nil]
    rfl
  obtain ⟨hadd, hhit⟩ := hparsed.used hex
  obtain ⟨-, g, -, hg, -⟩ := hparsed.named _ hex ⟨_, List.mem_singleton_self _, hpath⟩
  have hasAddr : ∀ l a, g.hasAddr l a = file.hasAddr l a := by
    intro l a
    have hl := hadd l a
    rw [MergeParser.hasAddr, hg, Option.any_some, hused] at hl
    have hwords : ((file.toRecord md f).words.map strip).Perm file.pairs :=
      MergeFile.strip_words h.clear
    rw [Bool.eq_iff_iff, hl, ← MergeFile.mem_pairs, ← hwords.mem_iff]
    simp
  have isHit : ∀ a, g.isHit a = file.isHit a := by
    intro a
    have hl := hhit a
    rw [MergeParser.isHit, hg, Option.any_some, hused, hitsOf, List.flatMap_singleton] at hl
    rw [Bool.eq_iff_iff, hl]
    exact h.hitsIn_words hsize a
  refine ⟨t, g, by simpa [parseAll] using ht, hg, fun l => ?_, hasAddr, isHit⟩
  constructor
  · intro hl
    obtain ⟨a, ha⟩ := hfiled.full _ g hg l hl
    exact MergeFile.mem_lines_of_hasAddr (hasAddr l a ▸ ha)
  · intro hl
    obtain ⟨a, ha⟩ := h.full l hl
    exact MergeFile.mem_lines_of_hasAddr (hasAddr l a ▸ ha)

theorem getLsbD_of_and_hitBit {a : U64} (h : a &&& ~~~hitBit = a) : a.getLsbD 63 = false := by
  rw [← h, BitVec.getLsbD_and, BitVec.getLsbD_not]
  simp [hitBit]

/-- The addresses of a reachable file have the hit bit clear, and what `marshalFile` writes for the
file is read back by any parser for which it exists with the same checksum. -/
theorem reads_back (cfg : MergeSetup) (calls : List Call) {s : MergeParser}
    (hrun : runCalls cfg calls = some s) {f : Text} {file : MergeFile} (hfile : s.files f = some file) :
    (∀ a, (∃ l, file.hasAddr l a = true) ∨ a ∈ file.addrHits → a.getLsbD 63 = false) ∧
    ∀ md : MetadataSetup, 0 ∉ f → imageSize (file.inOrder md f) f < 2 ^ 32 →
      ∀ (e : Endian) (later : MergeSetup),
        later.host.fileExists (later.mangleSourcePath f) = true →
        (later.host.readFile (later.mangleSourcePath f)).map later.host.hashBlock =
          some file.checksum →
        ∃ data r t g, marshalFile md f file = some data ∧ readRecord e data = .ok r ∧
          create.parseFileData later r = some t ∧ t.files (later.mangleSourcePath f) = some g ∧
          g.SameCoverage file := by
  have hsound := (sound_runCalls hrun).files f file hfile
  refine ⟨fun a ha => ?_, fun md hname hsize e later hex hsum => ?_⟩
  · obtain ⟨l, hl⟩ := ha.elim id (hsound.hits a)
    exact getLsbD_of_and_hitBit (hsound.clear l a hl)
  · have hread : (later.host.readFile (later.mangleSourcePath f)).isSome := by
      rw [← Option.isSome_map, hsum]
      rfl
    obtain ⟨t, g, ht, hg, hsame⟩ := sameCoverage_toRecord hsound hsize hex hread
    exact ⟨_, _, t, g, marshalFile_eq_image hname hsize,
      readRecord_image e (headerOf_locates hsize) hname, ht, hg, hsame⟩

/-- A stored record with hits of some of its addresses, then a hit that comes before its line. -/
def someHits : List Call :=
  [.stored ⟨ascii "/a", 7, [(1, [16 ||| hitBit, 24]), (2, [32])]⟩, .reporter (.onAddress 5 3),
    .reporter (.onLineReporter (ascii "/a") 2 5), .reporter (.onLineReporter (ascii "/a") 3 6)]

theorem reads_back_someHits : ∃ s file, runCalls staleSetup someHits = some s ∧
    s.files (ascii "/a") = some file ∧
    (file.pairs.map fun p => (p.1, p.2, file.isHit p.2)) = [(3, 0x300000007, false),
      (2, 0x200000007, true), (2, 32, false), (1, 24, false), (1, 16, true)] ∧
    ∃ data r t g, marshalFile plainMetadata (ascii "/a") file = some data ∧
      readRecord .little data = .ok r ∧ create.parseFileData staleSetup r = some t ∧
      t.files (ascii "/a") = some g ∧ g.SameCoverage file := by
  refine ⟨_, _, rfl, rfl, by decide, ?_⟩
  exact (reads_back staleSetup someHits rfl rfl).2 plainMetadata (by decide) (by decide) .little
    staleSetup (by decide) (by decide)

end ReadsBack

end MergeParser

end Kcov
