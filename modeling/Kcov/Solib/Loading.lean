import Kcov.Parsers.ElfLines
import Kcov.Lib.Runs

/-! The handler that gives the loaded objects to the parser, each of them once. -/

namespace Kcov.Solib

open Bytes Elf Runs

/-- `struct phdr_data`, as the thread queues it. -/
structure Message where
  relocation : U64
  entries : List Entry

/-- The name of an object, up to its terminator. -/
def Entry.objectName (cur : Entry) : Text := cString cur.name

structure SolibHandler where
  phdrs : List Message
  foundSolibs : List Text
  hasSetupRelocation : Bool
  parser : ElfInstance

inductive SolibEvent where
  /-- The thread queues a message. -/
  | receive (p : Message)
  /-- `onTick`. -/
  | tick

/-- The library that is written to the base directory, and that is skipped. -/
def ownLibrary (host : Host) (baseDirectory : Text) : Text :=
  host.realPath (baseDirectory ++ ascii "libkcov_sowrapper.so")

namespace SolibHandler

variable (o : Objects)

/-- The main file is added and parsed, and `startup` is done. -/
def start (handleSolibs : Bool) (baseDirectory main : Text) : Option SolibHandler := do
  let (_, parser) ← (ElfInstance.new handleSolibs).addFile o main []
  return {
    phdrs := []
    foundSolibs := [ownLibrary o.host baseDirectory]
    hasSetupRelocation := false
    parser := (parser.parse o).2 }

/-- The loop body of `checkSolibData`, which does not look at what `addFile` and `parse` return. -/
def checkEntry (h : SolibHandler) (cur : Entry) : Option SolibHandler :=
  if cur.objectName = [] then some h
  else if h.foundSolibs.contains cur.objectName then some h
  else do
    let (_, parser) ← h.parser.addFile o cur.objectName cur.segments
    return { h with
      parser := (parser.parse o).2
      foundSolibs := h.foundSolibs ++ [cur.objectName] }

/-- The first message tells where the main file is. -/
def relocate (h : SolibHandler) (p : Message) : SolibHandler :=
  if h.hasSetupRelocation then h
  else
    { h with
      hasSetupRelocation := true
      parser := (h.parser.setMainFileRelocation o p.relocation).2 }

def checkSolibData (h : SolibHandler) : Option SolibHandler :=
  match h.phdrs with
  | [] => some h
  | p :: phdrs => p.entries.foldlM (checkEntry o) ({ h with phdrs }.relocate o p)

def step (h : SolibHandler) : SolibEvent → Option SolibHandler
  | .receive p => some { h with phdrs := h.phdrs ++ [p] }
  | .tick => h.checkSolibData o

/-- A run with the main file `main`. -/
def run (handleSolibs : Bool) (baseDirectory main : Text) (evs : List SolibEvent) :
    Option SolibHandler := do
  let h ← start o handleSolibs baseDirectory main
  evs.foldlM (step o) h

end SolibHandler

/-! ### What is meant to be found -/

/-- The messages that the thread has queued. -/
def received (evs : List SolibEvent) : List Message :=
  evs.filterMap fun ev =>
    match ev with
    | .receive p => some p
    | .tick => none

/-- The names of the objects in the order in which they were seen first. -/
def objectNames (own : Text) (entries : List Entry) : List Text :=
  ((entries.map Entry.objectName).filter fun n => n ≠ [] ∧ n ≠ own).eraseDups

/-- The segments of the first entry of an object, or those of its file. -/
def objectSegments (o : Objects) (entries : List Entry) (name : Text) : List Segment :=
  match entries.find? (·.objectName = name) with
  | some cur => if cur.segments.isEmpty then ownSegments o name else cur.segments
  | none => []

/-- The lines of each object once, at the addresses of its first entry. -/
def objectLines (o : Objects) (own : Text) (entries : List Entry) : List (Text × U32 × U64) :=
  (objectNames own entries).flatMap fun name =>
    (validLines o name).map (listenerLine o (objectSegments o entries name) 0)

/-- The lines of the main file at a relocation. -/
def relocatedLines (o : Objects) (main : Text) (relocation : U64) : List (Text × U32 × U64) :=
  (validLines o main).map fun l => (o.mangleSourcePath l.file, l.lineNr, l.addr + relocation)

/-- The lines of the main file, which wait for the first message if it can be relocated. -/
def mainLines (o : Objects) (main : Text) (header : Header) (handled : List Message) :
    List (Text × U32 × U64) :=
  if header.type = etDyn then
    match handled with
    | [] => []
    | p :: _ => relocatedLines o main p.relocation
  else relocatedLines o main 0

/-! ### The names -/

section Names

variable {o : Objects} {own : Text} {entries : List Entry} {cur : Entry}

theorem mem_objectNames {n : Text} : n ∈ objectNames own entries ↔
    (∃ e ∈ entries, e.objectName = n) ∧ n ≠ [] ∧ n ≠ own := by
  simp [objectNames]

theorem objectNames_snoc : objectNames own (entries ++ [cur]) = objectNames own entries ++
    if cur.objectName = [] ∨ cur.objectName = own ∨ cur.objectName ∈ objectNames own entries
    then [] else [cur.objectName] := by
  rw [objectNames, List.map_append, List.map_singleton, List.filter_append, List.eraseDups_append,
    ← objectNames]
  congr 1
  have hmem : ((entries.map Entry.objectName).filter fun n => n ≠ [] ∧ n ≠ own).elem
      cur.objectName = decide (cur.objectName ∈ objectNames own entries) := by
    rw [objectNames, List.elem_eq_mem]
    exact decide_eq_decide.mpr List.mem_eraseDups.symm
  by_cases hname : cur.objectName = [] ∨ cur.objectName = own
  · rw [if_pos (or_assoc.mp (Or.inl hname)), List.filter_cons_of_neg]
    · rfl
    · simpa [or_iff_not_imp_left] using hname
  · rw [List.filter_cons_of_pos (by simpa [not_or] using hname), List.filter_nil, List.removeAll,
      List.filter_cons, hmem]
    rw [not_or] at hname
    by_cases hknown : cur.objectName ∈ objectNames own entries <;>
      simp [hknown, hname, List.eraseDups_cons]

theorem objectSegments_append {n : Text} (h : n ∈ objectNames own entries) :
    objectSegments o (entries ++ [cur]) n = objectSegments o entries n := by
  obtain ⟨⟨e, he, heq⟩, -⟩ := mem_objectNames.mp h
  have hfind : (entries.find? (·.objectName = n)).isSome = true :=
    List.find?_isSome.mpr ⟨e, he, by simpa using heq⟩
  obtain ⟨e', he'⟩ := Option.isSome_iff_exists.mp hfind
  rw [objectSegments, List.find?_append, he', objectSegments, he']
  rfl

/-- The lines of the names that are known already stay as they are. -/
theorem objectLines_known : (objectNames own entries).flatMap (fun name =>
    (validLines o name).map (listenerLine o (objectSegments o (entries ++ [cur]) name) 0)) =
      objectLines o own entries := by
  refine List.flatMap_congr ?_
  intro n hn
  rw [objectSegments_append hn]

theorem objectLines_skip (h : cur.objectName = [] ∨ cur.objectName = own ∨
    cur.objectName ∈ objectNames own entries) :
    objectLines o own (entries ++ [cur]) = objectLines o own entries := by
  rw [objectLines, objectNames_snoc, if_pos h, List.append_nil, objectLines_known]

/-- A new name adds the lines of its file. -/
theorem objectLines_snoc (hnew : ¬(cur.objectName = [] ∨ cur.objectName = own ∨
    cur.objectName ∈ objectNames own entries)) :
    objectLines o own (entries ++ [cur]) = objectLines o own entries ++
      (validLines o cur.objectName).map (listenerLine o
        (if cur.segments.isEmpty then ownSegments o cur.objectName else cur.segments) 0) := by
  have hfind : entries.find? (·.objectName = cur.objectName) = none := by
    rw [List.find?_eq_none]
    intro e he heq
    rw [not_or, not_or] at hnew
    exact hnew.2.2 (mem_objectNames.mpr ⟨⟨e, he, by simpa using heq⟩, hnew.1, hnew.2.1⟩)
  have hsegments : objectSegments o (entries ++ [cur]) cur.objectName =
      if cur.segments.isEmpty then ownSegments o cur.objectName else cur.segments := by
    rw [objectSegments, List.find?_append, hfind]
    simp
  rw [objectLines, objectNames_snoc, if_neg hnew, List.flatMap_append, objectLines_known,
    List.flatMap_singleton, hsegments]

end Names

/-! ### The runs -/

namespace SolibHandler

variable {o : Objects} {main own : Text} {header : Header} {h : SolibHandler}
  {lines : List (Text × U32 × U64)} {entries : List Entry}

/-- The handler has looked at `entries`, behind which the listeners have got `lines` and the lines
of the objects. -/
structure Parsed (o : Objects) (own : Text) (lines : List (Text × U32 × U64)) (entries : List Entry)
    (h : SolibHandler) : Prop where
  isMainFile : h.parser.isMainFile = false
  initialized : h.parser.initialized = true
  verifyAddresses : h.parser.verifyAddresses = false
  found : ∀ n, n ∈ h.foundSolibs ↔ n = own ∨ n ∈ objectNames own entries
  onLine : h.parser.onLine = lines ++ objectLines o own entries

theorem Parsed.checkEntry (hp : Parsed o own lines entries h) (cur : Entry) :
    ∃ h', h.checkEntry o cur = some h' ∧ Parsed o own lines (entries ++ [cur]) h' ∧
      h'.phdrs = h.phdrs ∧ h'.hasSetupRelocation = h.hasSetupRelocation := by
  rw [SolibHandler.checkEntry]
  by_cases hskip : cur.objectName = [] ∨ cur.objectName = own ∨
      cur.objectName ∈ objectNames own entries
  · have hcheck : Parsed o own lines (entries ++ [cur]) h := by
      refine ⟨hp.isMainFile, hp.initialized, hp.verifyAddresses, ?_, ?_⟩
      · rw [objectNames_snoc, if_pos hskip, List.append_nil]
        exact hp.found
      · rw [objectLines_skip hskip]
        exact hp.onLine
    refine ⟨h, ?_, hcheck, rfl, rfl⟩
    rcases hskip with hempty | hfound
    · rw [if_pos hempty]
    · rw [if_pos (List.contains_iff_mem.mpr ((hp.found _).mpr hfound)), ite_self]
  · obtain ⟨out, parser, hadd, hfresh, hkeeps, honLine⟩ :=
      ElfInstance.addFile_spec o cur.objectName cur.segments hp.isMainFile hp.initialized
    obtain ⟨hlines, hkeeps'⟩ := ElfInstance.doParse_spec (o := o) hfresh
      (hkeeps.verifyAddresses.trans hp.verifyAddresses) 0
    have hall := hkeeps.trans hkeeps'
    have hparse := ElfInstance.parse_eq (o := o) (e := parser)
      (by rw [hkeeps.isMainFile, hp.isMainFile, Bool.false_and])
    have hnew : ¬h.foundSolibs.contains cur.objectName = true :=
      fun hfound => hskip (Or.inr ((hp.found _).mp (List.contains_iff_mem.mp hfound)))
    rw [if_neg fun hempty => hskip (Or.inl hempty), if_neg hnew, hadd]
    change ∃ h', some _ = some h' ∧ _
    rw [hparse]
    refine ⟨_, rfl, ⟨rfl, hall.initialized.trans hp.initialized,
      hall.verifyAddresses.trans hp.verifyAddresses, ?_, ?_⟩, rfl, rfl⟩
    · intro n
      rw [objectNames_snoc, if_neg hskip, List.mem_append, List.mem_append, hp.found, or_assoc]
    · rw [objectLines_snoc hskip, ← List.append_assoc, ← hp.onLine, ← honLine]
      exact hlines

theorem Parsed.foldlM_checkEntry (hp : Parsed o own lines entries h) (es : List Entry) :
    ∃ h', es.foldlM (SolibHandler.checkEntry o) h = some h' ∧
      Parsed o own lines (entries ++ es) h' ∧
      h'.phdrs = h.phdrs ∧ h'.hasSetupRelocation = h.hasSetupRelocation := by
  induction es generalizing h entries with
  | nil => exact ⟨h, rfl, by rwa [List.append_nil], rfl, rfl⟩
  | cons cur es ih =>
    obtain ⟨h₁, hcheck, hp₁, hphdrs₁, hsetup₁⟩ := hp.checkEntry cur
    obtain ⟨h₂, hfold, hp₂, hphdrs₂, hsetup₂⟩ := ih hp₁
    refine ⟨h₂, ?_, ?_, hphdrs₂.trans hphdrs₁, hsetup₂.trans hsetup₁⟩
    · rw [List.foldlM_cons, hcheck]
      exact hfold
    · rwa [List.append_assoc] at hp₂

/-- The messages `handled` have been handled. A main file that can be relocated waits for the first
one. -/
structure Loaded (o : Objects) (main own : Text) (header : Header) (handled : List Message)
    (h : SolibHandler) : Prop where
  parsed : Parsed o own (mainLines o main header handled) (handled.flatMap Message.entries) h
  setup : h.hasSetupRelocation = !handled.isEmpty
  shared : handled = [] → h.parser.elfIsShared = (header.type == etDyn)
  waiting : handled = [] → header.type = etDyn → h.parser.Fresh main []

/-- What has been handled does not depend on the queue. -/
theorem Loaded.with_phdrs {handled : List Message} (hl : Loaded o main own header handled h)
    (phdrs : List Message) : Loaded o main own header handled { h with phdrs } where
  parsed := ⟨hl.parsed.isMainFile, hl.parsed.initialized, hl.parsed.verifyAddresses,
    hl.parsed.found, hl.parsed.onLine⟩
  setup := hl.setup
  shared := hl.shared
  waiting := hl.waiting

theorem map_listenerLine_own (relocation : U64) :
    (validLines o main).map (listenerLine o (ownSegments o main) relocation) =
      relocatedLines o main relocation := by
  refine List.map_congr_left ?_
  intro l _
  rw [listenerLine, loadAddress_ownSegments]

theorem mainLines_snoc {handled : List Message} (p : Message)
    (hready : handled ≠ [] ∨ header.type ≠ etDyn) :
    mainLines o main header (handled ++ [p]) = mainLines o main header handled := by
  cases handled with
  | nil =>
    have hstatic : header.type ≠ etDyn := hready.resolve_left (not_not_intro rfl)
    unfold mainLines
    rw [if_neg hstatic, if_neg hstatic]
  | cons q handled => rfl

theorem Loaded.relocate {handled : List Message} (hl : Loaded o main own header handled h)
    (p : Message) : Parsed o own (mainLines o main header (handled ++ [p]))
      (handled.flatMap Message.entries) (h.relocate o p) ∧
    (h.relocate o p).hasSetupRelocation = true ∧ (h.relocate o p).phdrs = h.phdrs := by
  rw [SolibHandler.relocate, hl.setup]
  cases handled with
  | cons q handled =>
    rw [mainLines_snoc p (Or.inl (List.cons_ne_nil q handled))]
    exact ⟨hl.parsed, hl.setup, rfl⟩
  | nil =>
    have hp := hl.parsed
    refine ⟨?_, rfl, rfl⟩
    by_cases hdyn : header.type = etDyn
    · obtain ⟨hlines, hkeeps⟩ := ElfInstance.doParse_spec (o := o) (hl.waiting rfl hdyn)
        hp.verifyAddresses p.relocation
      have hshared : h.parser.elfIsShared = true := by
        rw [hl.shared rfl, hdyn, beq_self_eq_true]
      have hdeferred : h.parser.setMainFileRelocation o p.relocation =
          h.parser.doParse o p.relocation := by
        rw [ElfInstance.setMainFileRelocation, if_pos hshared]
      have hmain : mainLines o main header [p] = relocatedLines o main p.relocation := by
        rw [mainLines, if_pos hdyn]
      have hnone : h.parser.onLine = [] := by
        rw [hp.onLine, mainLines, if_pos hdyn]
        rfl
      rw [List.nil_append, hmain, hdeferred]
      refine ⟨hkeeps.isMainFile.trans hp.isMainFile, hkeeps.initialized.trans hp.initialized,
        hkeeps.verifyAddresses.trans hp.verifyAddresses, hp.found, ?_⟩
      rw [← map_listenerLine_own, show objectLines o own _ = [] from rfl, List.append_nil]
      rw [hnone] at hlines
      exact hlines
    · have hstatic : h.parser.elfIsShared = false := by
        rw [hl.shared rfl]
        exact beq_false_of_ne hdyn
      have hsame : h.parser.setMainFileRelocation o p.relocation = (true, h.parser) := by
        rw [ElfInstance.setMainFileRelocation, hstatic]
        rfl
      rw [mainLines_snoc p (Or.inr hdyn), hsame]
      exact ⟨hp.isMainFile, hp.initialized, hp.verifyAddresses, hp.found, hp.onLine⟩

theorem Loaded.checkSolibData {handled : List Message} (hl : Loaded o main own header handled h) :
    ∃ h', h.checkSolibData o = some h' ∧
      Loaded o main own header (handled ++ h.phdrs.take 1) h' ∧ h'.phdrs = h.phdrs.drop 1 := by
  rw [SolibHandler.checkSolibData]
  cases hphdrs : h.phdrs with
  | nil => exact ⟨h, rfl, by rwa [List.take_nil, List.append_nil], hphdrs⟩
  | cons p phdrs =>
    obtain ⟨hparsed, hsetup, hrest⟩ := (hl.with_phdrs phdrs).relocate p
    obtain ⟨h', hfold, hparsed', hrest', hsetup'⟩ := hparsed.foldlM_checkEntry p.entries
    have hne : handled ++ [p] ≠ [] := by simp
    refine ⟨h', hfold, ⟨?_, ?_, fun hnil => absurd hnil hne, fun hnil => absurd hnil hne⟩,
      hrest'.trans hrest⟩
    · simpa using hparsed'
    · rw [hsetup', hsetup]
      simp

/-- The messages are handled in the order in which they are queued. -/
theorem Loaded.foldlM_step {handled : List Message} (hl : Loaded o main own header handled h)
    (evs : List SolibEvent) : ∃ h' done, evs.foldlM (step o) h = some h' ∧
      h.phdrs ++ received evs = done ++ h'.phdrs ∧
      Loaded o main own header (handled ++ done) h' := by
  induction evs generalizing h handled with
  | nil => exact ⟨h, [], rfl, List.append_nil _, by rwa [List.append_nil]⟩
  | cons ev evs ih =>
    cases ev with
    | receive p =>
      obtain ⟨h', done, hrun, hqueue, hdone⟩ := ih (hl.with_phdrs (h.phdrs ++ [p]))
      refine ⟨h', done, hrun, ?_, hdone⟩
      rw [← hqueue, List.append_assoc]
      rfl
    | tick =>
      obtain ⟨h₁, hcheck, hl₁, hphdrs⟩ := hl.checkSolibData
      obtain ⟨h', done, hrun, hqueue, hdone⟩ := ih hl₁
      refine ⟨h', h.phdrs.take 1 ++ done, ?_, ?_, by rwa [← List.append_assoc]⟩
      · rw [List.foldlM_cons, step, hcheck]
        exact hrun
      · rw [List.append_assoc, ← hqueue, hphdrs, ← List.append_assoc, List.take_append_drop]
        rfl

theorem start_loaded (hsolibs : o.parseSolibs = true) (hverify : o.verifyOption = false)
    (hmain : o.elfKind main = some (.elf header)) (handleSolibs : Bool) (baseDirectory : Text) :
    ∃ h, start o handleSolibs baseDirectory main = some h ∧ h.phdrs = [] ∧
      Loaded o main (ownLibrary o.host baseDirectory) header [] h := by
  obtain ⟨e, hadd, hfresh, hisMain, hinit, hoption, hshared, honLine⟩ :=
    ElfInstance.addFile_main hmain handleSolibs
  rw [start, hadd]
  refine ⟨_, rfl, rfl, ?_⟩
  by_cases hdyn : header.type = etDyn
  · have hparse := ElfInstance.parse_shared hisMain (by rw [hshared, hdyn, beq_self_eq_true]) hsolibs
    rw [hparse]
    refine ⟨⟨rfl, hinit, hoption.trans hverify, ?_, ?_⟩, rfl, fun _ => hshared, fun _ _ => ?_⟩
    · simp [objectNames]
    · rw [mainLines, if_pos hdyn]
      exact honLine
    · exact ⟨hfresh.filename, hfresh.buildId, hfresh.debuglink, hfresh.curSegments,
        hfresh.executableSegments⟩
  · obtain ⟨hlines, hkeeps⟩ := ElfInstance.doParse_spec (o := o) hfresh (hoption.trans hverify) 0
    have hparse := ElfInstance.parse_eq (o := o) (e := e)
      (by rw [hshared, beq_false_of_ne hdyn, Bool.and_false])
    rw [hparse]
    refine ⟨⟨rfl, hkeeps.initialized.trans hinit,
      hkeeps.verifyAddresses.trans (hoption.trans hverify), ?_, ?_⟩, rfl,
      fun _ => hkeeps.elfIsShared.trans hshared, fun _ h => absurd h hdyn⟩
    · simp [objectNames]
    · unfold mainLines
      rw [if_neg hdyn, ← map_listenerLine_own, show objectLines o _ _ = [] from rfl,
        List.append_nil]
      rw [honLine] at hlines
      exact hlines

/-- In every run the listeners have got the lines of the main file, and behind them the lines of
each object once, with the data of its own file and entry. -/
theorem loads_once (o : Objects) (handleSolibs : Bool) (baseDirectory main : Text) {header : Header}
    (hmain : o.elfKind main = some (.elf header)) (hsolibs : o.parseSolibs = true)
    (hverify : o.verifyOption = false) (evs : List SolibEvent) :
    ∃ h handled, run o handleSolibs baseDirectory main evs = some h ∧
      received evs = handled ++ h.phdrs ∧
      h.parser.onLine = mainLines o main header handled ++
        objectLines o (ownLibrary o.host baseDirectory) (handled.flatMap Message.entries) := by
  obtain ⟨h, hstart, hphdrs, hl⟩ := start_loaded hsolibs hverify hmain handleSolibs baseDirectory
  obtain ⟨h', done, hrun, hqueue, hdone⟩ := hl.foldlM_step evs
  rw [hphdrs, List.nil_append] at hqueue
  refine ⟨h', done, ?_, hqueue, hdone.parsed.onLine⟩
  rw [run, hstart]
  exact hrun

/-- A main file that can be relocated, with one line, and a library with another one. -/
def pieObjects : Objects where
  host := Host.bare
  lstat name := name = ascii "m" || name = ascii "a"
  elfKind name :=
    if name = ascii "m" then some (.elf ⟨false, etDyn, 1⟩)
    else if name = ascii "a" then some (.elf ⟨false, etDyn, 2⟩)
    else none
  elf name :=
    if name = ascii "m" then some ⟨[], none, [(0x1000, 0x10)]⟩
    else if name = ascii "a" then some ⟨[], none, [(0x2000, 0x10)]⟩
    else none
  dwarf name :=
    if name = ascii "m" then some [⟨ascii "m.c", 1, 0x1004⟩]
    else if name = ascii "a" then some [⟨ascii "a.c", 2, 0x2008⟩]
    else none
  noName := by decide
  mangleSourcePath path := path
  verify _ _ := true
  machineIs64Bit := true
  verifyOption := false
  parseSolibs := true

/-- The library `a` with its segment, between the main file and a file that is missing. -/
def pieMessage : Message where
  relocation := 0x500000
  entries := [⟨[], [], by decide, by decide⟩,
    ⟨ascii "a", [⟨0x2000, 0x702000, 0x10⟩], by decide, by decide⟩,
    ⟨ascii "b", [⟨0x2000, 0x802000, 0x10⟩], by decide, by decide⟩]

/-- The library is parsed once, where its own segment has been loaded, and the missing file has no
lines. -/
theorem loads_once_pie : ∃ h,
    run pieObjects true [] (ascii "m") [.receive pieMessage, .tick, .receive pieMessage, .tick] =
      some h ∧
    h.parser.onLine = [(ascii "m.c", 1, 0x501004), (ascii "a.c", 2, 0x702008)] := by
  obtain ⟨h, handled, hrun, hreceived, honLine⟩ := loads_once pieObjects true [] (ascii "m") rfl rfl
    rfl [.receive pieMessage, .tick, .receive pieMessage, .tick]
  have hphdrs : (run pieObjects true [] (ascii "m") [.receive pieMessage, .tick,
      .receive pieMessage, .tick]).map (·.phdrs.length) = some 0 := by decide
  rw [hrun, Option.map_some, Option.some.injEq, List.length_eq_zero_iff] at hphdrs
  rw [hphdrs, List.append_nil] at hreceived
  refine ⟨h, hrun, honLine.trans ?_⟩
  rw [← hreceived]
  decide

end SolibHandler

end Kcov.Solib
