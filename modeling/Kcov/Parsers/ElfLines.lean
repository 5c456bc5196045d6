import Kcov.Parsers.Elf

/-! The lines that the ELF parser finds in a file: nothing but the data of the file decides on them,
although one parser takes all files. -/

namespace Kcov.Elf

open Bytes
open Solib (Segment)

/-! ### The lines of a file -/

section Lines

variable (o : Objects) (name : Text)

def ownSegments : List Segment :=
  match o.elf name with
  | some elf => elf.getSegments
  | none => []

/-- The debug information of a file, in the file or in a separate one. -/
def debugLines : List SourceLine :=
  match o.dwarf name, o.elf name with
  | some lines, _ => lines
  | none, none => []
  | none, some elf =>
    match (if elf.buildId ≠ [] then o.dwarf (buildIdFile elf.buildId) else none), elf.debugLink with
    | some lines, _ => lines
    | none, none => []
    | none, some (link, crc) =>
      if link ≠ [] then (o.dwarf (lookupDebuglinkFile o.host name link crc)).getD [] else []

/-- The lines whose addresses are in an executable section of the file. -/
def validLines : List SourceLine :=
  if !o.lstat name then []
  else (debugLines o name).filter fun l =>
    (ownSegments o name).any (addressIsWithinSegment · l.addr)

/-- Where the first segment that contains an address of the file has been loaded, at the distance
from its start that the address has in the file. -/
def loadAddress (segs : List Segment) (addr : U64) : U64 :=
  match segs.find? fun seg => seg.paddr ≤ addr ∧ addr < seg.paddr + seg.size with
  | some seg => seg.vaddr + (addr - seg.paddr)
  | none => addr

/-- What the listeners get for a line. -/
def listenerLine (segs : List Segment) (relocation : U64) (l : SourceLine) : Text × U32 × U64 :=
  (o.mangleSourcePath l.file, l.lineNr, loadAddress segs l.addr + relocation)

variable {o name}

theorem adjustAddressBySegment_eq (segs : List Segment) (addr : U64) :
    adjustAddressBySegment segs addr = loadAddress segs addr := by
  have hsame : (fun seg => addressIsWithinSegment seg addr) =
      fun seg => decide (seg.paddr ≤ addr ∧ addr < seg.paddr + seg.size) := by
    funext seg
    rw [addressIsWithinSegment, Bool.decide_and]
  rw [adjustAddressBySegment, loadAddress, ← hsame]
  cases hfind : segs.find? fun seg => addressIsWithinSegment seg addr with
  | none => rfl
  | some seg =>
    have hwithin := List.find?_some hfind
    dsimp only at hwithin ⊢
    rw [adjustAddress, if_pos hwithin, BitVec.add_comm]

/-- The sections of a file are at the addresses that the file has for them. -/
theorem loadAddress_ownSegments (addr : U64) : loadAddress (ownSegments o name) addr = addr := by
  have hown : ∀ seg ∈ ownSegments o name, seg.paddr = seg.vaddr := by
    intro seg hseg
    rw [ownSegments] at hseg
    split at hseg
    · obtain ⟨section_, -, rfl⟩ := List.mem_map.mp hseg
      rfl
    · cases hseg
  rw [loadAddress]
  split
  · next seg hfind =>
    rw [hown seg (List.mem_of_find?_eq_some hfind), BitVec.add_comm, BitVec.sub_add_cancel]
  · rfl

end Lines

namespace ElfInstance

variable {o : Objects} {e : ElfInstance} {name : Text} {segs : List Segment}

/-- Nothing of another file is left in the parser. -/
structure Fresh (e : ElfInstance) (name : Text) (segs : List Segment) : Prop where
  filename : e.filename = name
  buildId : e.buildId = []
  debuglink : e.debuglink = []
  curSegments : e.curSegments = segs
  executableSegments : e.executableSegments = []

/-- Without `verify`, a line is passed on if it is in an executable section. -/
theorem foldl_foundLine (hverify : e.verifyAddresses = false) (lines : List SourceLine) :
    lines.foldl (foundLine o) e = { e with
      onLine := e.onLine ++ (lines.filter fun l =>
        e.executableSegments.any (addressIsWithinSegment · l.addr)).map
          (listenerLine o e.curSegments e.relocation) } := by
  induction lines generalizing e with
  | nil => simp
  | cons l lines ih =>
    rw [List.foldl_cons, List.filter_cons]
    cases hvalid : e.executableSegments.any (addressIsWithinSegment · l.addr) with
    | true =>
      have hline : foundLine o e l =
          { e with onLine := e.onLine ++ [listenerLine o e.curSegments e.relocation l] } := by
        simp [foundLine, addressIsValid, hvalid, hverify, listenerLine, adjustAddressBySegment_eq]
      rw [hline, ih]
      · simp
      · exact hverify
    | false =>
      have hline : foundLine o e l = e := by simp [foundLine, addressIsValid, hvalid]
      rw [hline, ih hverify]
      simp

/-- What `doParse` keeps. -/
structure Keeps (e e' : ElfInstance) : Prop where
  isMainFile : e'.isMainFile = e.isMainFile
  elfIsShared : e'.elfIsShared = e.elfIsShared
  verifyAddresses : e'.verifyAddresses = e.verifyAddresses
  initialized : e'.initialized = e.initialized

theorem Keeps.trans {e' e'' : ElfInstance} (h : Keeps e e') (h' : Keeps e' e'') : Keeps e e'' :=
  ⟨h'.isMainFile.trans h.isMainFile, h'.elfIsShared.trans h.elfIsShared,
    h'.verifyAddresses.trans h.verifyAddresses, h'.initialized.trans h.initialized⟩

theorem parseOneElf_keeps : Keeps e (e.parseOneElf o) ∧ (e.parseOneElf o).onLine = e.onLine ∧
    (e.parseOneElf o).filename = e.filename := by
  rw [parseOneElf]
  split
  · exact ⟨⟨rfl, rfl, rfl, rfl⟩, rfl, rfl⟩
  · dsimp only
    split <;> exact ⟨⟨rfl, rfl, rfl, rfl⟩, rfl, rfl⟩

theorem parseOneElf_segments (h : e.Fresh name segs) :
    (e.parseOneElf o).curSegments = (if segs.isEmpty then ownSegments o name else segs) ∧
      (e.parseOneElf o).executableSegments = ownSegments o name := by
  rw [parseOneElf, ownSegments, h.filename]
  cases o.elf name with
  | none => cases segs <;> exact ⟨h.curSegments, h.executableSegments⟩
  | some elf => cases hlink : elf.debugLink <;> simp [h.curSegments, h.executableSegments, hlink]

/-- A file without a name is tried for the libraries only, and is not there. -/
theorem dwarf_debugPath (path : Text) :
    (if path = [] ∧ e.isMainFile = true then none else o.dwarf path) = o.dwarf path := by
  split
  · next h => rw [h.1, o.noName]
  · rfl

theorem openDwarf_getD (h : e.Fresh name segs) :
    ((e.parseOneElf o).openDwarf o).getD [] = debugLines o name := by
  rw [openDwarf, debugLines, parseOneElf_keeps.2.2, h.filename]
  cases hdwarf : o.dwarf name with
  | some lines => rfl
  | none =>
    dsimp only
    rw [dwarf_debugPath, parseOneElf, h.filename]
    cases helf : o.elf name with
    | none => simp [h.buildId, h.debuglink]
    | some elf =>
      cases hlink : elf.debugLink with
      | none =>
        simp only [hlink, h.debuglink]
        cases if elf.buildId ≠ [] then o.dwarf (buildIdFile elf.buildId) else none <;> rfl
      | some link =>
        simp only [hlink]
        cases if elf.buildId ≠ [] then o.dwarf (buildIdFile elf.buildId) else none with
        | some lines => rfl
        | none => by_cases hname : link.1 = [] <;> simp [hname]

theorem parseOneDwarf_spec (hverify : e.verifyAddresses = false) (relocation : U64) :
    (e.parseOneDwarf o relocation).onLine = e.onLine ++
      (((e.openDwarf o).getD []).filter fun l =>
        e.executableSegments.any (addressIsWithinSegment · l.addr)).map
          (listenerLine o e.curSegments relocation) ∧
    Keeps e (e.parseOneDwarf o relocation) := by
  rw [parseOneDwarf]
  change _ = e.onLine ++ (((({ e with invalidBreakpoints := 0, relocation } :
    ElfInstance).openDwarf o).getD []).filter _).map _ ∧ _
  cases ({ e with invalidBreakpoints := 0, relocation } : ElfInstance).openDwarf o with
  | none => exact ⟨(List.append_nil _).symm, ⟨rfl, rfl, rfl, rfl⟩⟩
  | some lines =>
    dsimp only
    rw [foldl_foundLine (by exact hverify)]
    exact ⟨rfl, ⟨rfl, rfl, rfl, rfl⟩⟩

/-- A file is parsed with its own data, whatever the parser has parsed before. -/
theorem doParse_spec (h : e.Fresh name segs) (hverify : e.verifyAddresses = false)
    (relocation : U64) : (e.doParse o relocation).2.onLine = e.onLine ++ (validLines o name).map
      (listenerLine o (if segs.isEmpty then ownSegments o name else segs) relocation) ∧
    Keeps e (e.doParse o relocation).2 := by
  rw [doParse, validLines, h.filename]
  cases o.lstat name with
  | false => exact ⟨(List.append_nil _).symm, ⟨rfl, rfl, rfl, rfl⟩⟩
  | true =>
    obtain ⟨hkeeps, hlines, -⟩ := parseOneElf_keeps (o := o) (e := e)
    obtain ⟨hsegs, hexec⟩ := parseOneElf_segments (o := o) h
    have hopen : ((e.parseOneElf o).setupSections.openDwarf o).getD [] = debugLines o name :=
      openDwarf_getD h
    obtain ⟨hdwarf, hkeeps'⟩ := parseOneDwarf_spec (o := o) (e := (e.parseOneElf o).setupSections)
      (hkeeps.verifyAddresses.trans hverify) relocation
    refine ⟨hdwarf.trans ?_, hkeeps.trans ⟨hkeeps'.isMainFile, hkeeps'.elfIsShared,
      hkeeps'.verifyAddresses, hkeeps'.initialized⟩⟩
    rw [hopen]
    simp only [setupSections, hlines, hsegs, hexec]
    rfl

/-- A file that is added leaves nothing of the one before. -/
theorem addFile_spec (o : Objects) (name : Text) (segs : List Segment)
    (hmain : e.isMainFile = false) (hinit : e.initialized = true) :
    ∃ out e', e.addFile o name segs = some (out, e') ∧ e'.Fresh name segs ∧ Keeps e e' ∧
      e'.onLine = e.onLine := by
  rw [addFile, hinit]
  simp only [if_true, checkFile, hmain]
  cases o.elfKind name with
  | none => exact ⟨_, _, rfl, ⟨rfl, rfl, rfl, rfl, rfl⟩, ⟨hmain.symm, rfl, rfl, rfl⟩, rfl⟩
  | some kind =>
    cases kind <;>
      exact ⟨_, _, rfl, ⟨rfl, rfl, rfl, rfl, rfl⟩, ⟨hmain.symm, rfl, rfl, rfl⟩, rfl⟩

theorem addFile_main {header : Header} (hmain : o.elfKind name = some (.elf header))
    (handleSolibs : Bool) : ∃ e, (new handleSolibs).addFile o name [] = some (true, e) ∧
      e.Fresh name [] ∧ e.isMainFile = true ∧ e.initialized = true ∧
      e.verifyAddresses = o.verifyOption ∧ e.elfIsShared = (header.type == etDyn) ∧
      e.onLine = [] := by
  simp only [addFile, new, checkFile, hmain]
  exact ⟨_, rfl, ⟨rfl, rfl, rfl, rfl, rfl⟩, rfl, rfl, rfl, rfl, rfl⟩

/-- With `parse-solibs`, a main file that can be relocated stays as it was added. -/
theorem parse_shared (hmain : e.isMainFile = true) (hshared : e.elfIsShared = true)
    (hsolibs : o.parseSolibs = true) : (e.parse o).2 = { e with isMainFile := false } := by
  simp [parse, hmain, hshared, hsolibs]

/-- All other files are parsed at once, and at no relocation. -/
theorem parse_eq (h : (e.isMainFile && e.elfIsShared) = false) :
    (e.parse o).2 = { (e.doParse o 0).2 with isMainFile := false } := by
  rw [parse, h]
  rfl

end ElfInstance

end Kcov.Elf
