import Kcov.Parsers.DebugLink
import Kcov.Reporter.Line
import Kcov.Solib.PhdrData

/-! The ELF parser: one object that parses the main file and all its libraries one after the
other. -/

namespace Kcov.Elf

open Bytes
open Solib (Segment)

/-! ### Segments -/

section Segments

variable (seg : Segment) (segs : List Segment) (addr : U64)

def addressIsWithinSegment : Bool := seg.paddr ≤ addr && addr < seg.paddr + seg.size

def adjustAddress : U64 :=
  if addressIsWithinSegment seg addr then addr - seg.paddr + seg.vaddr else addr

/-- `adjustAddressBySegment`: by the first segment that contains the address. -/
def adjustAddressBySegment : U64 :=
  match segs.find? (addressIsWithinSegment · addr) with
  | some seg => adjustAddress seg addr
  | none => addr

end Segments

/-! ### Files -/

/-- What is read of `Elf32_Ehdr` or `Elf64_Ehdr`, and the checksum of the file. -/
structure Header where
  /-- `ELFCLASS32`. -/
  is32Bit : Bool
  type : BitVec 16
  checksum : U64

/-- `ET_DYN`. -/
def etDyn : BitVec 16 := 3

/-- `elf_kind`. -/
inductive ElfKind where
  | none
  | archive
  | elf (header : Header)

/-- What `IElf::create` finds. -/
structure ElfFile where
  buildId : Text
  debugLink : Option (Text × BitVec 32)
  /-- `sh_addr` and `sh_size` of the sections that are executable and loaded. -/
  sections : List (U64 × U64)

def ElfFile.getSegments (elf : ElfFile) : List Segment :=
  elf.sections.map fun (addr, size) => ⟨addr, addr, size⟩

/-- A call of `onLine` by `forEachLine`. -/
structure SourceLine where
  file : Text
  lineNr : U32
  addr : U64

/-- What the file system, the libraries and the options answer, each for the name of a file. -/
structure Objects where
  host : Host
  lstat : Text → Bool
  /-- `open`, `elf_begin` and `elf_kind`. -/
  elfKind : Text → Option ElfKind
  /-- `IElf::create`. -/
  elf : Text → Option ElfFile
  /-- `DwarfParser::open` and `forEachLine`. -/
  dwarf : Text → Option (List SourceLine)
  /-- The empty name cannot be opened. -/
  noName : dwarf [] = none
  mangleSourcePath : Text → Text
  /-- `IDisassembler::verify`, for the sections that it has got. -/
  verify : List Segment → U64 → Bool
  machineIs64Bit : Bool
  verifyOption : Bool
  parseSolibs : Bool

/-! ### The parser -/

/-- `ElfInstance`, and what its listeners have been told. -/
structure ElfInstance where
  curSegments : List Segment
  executableSegments : List Segment
  verifyAddresses : Bool
  elfIs32Bit : Bool
  elfIsShared : Bool
  filename : Text
  buildId : Text
  debuglink : Text
  debuglinkCrc : BitVec 32
  isMainFile : Bool
  checksum : U64
  initialized : Bool
  relocation : U64
  invalidBreakpoints : U32
  /-- The sections of `m_addressVerifier`. -/
  verifier : List Segment
  /-- The capability `handle-solibs`. -/
  handleSolibs : Bool
  /-- The files, and whether they are the main file. -/
  onFile : List (Text × Bool)
  onLine : List (Text × U32 × U64)

namespace ElfInstance

def new (handleSolibs : Bool) : ElfInstance where
  curSegments := []
  executableSegments := []
  verifyAddresses := false
  elfIs32Bit := true
  elfIsShared := false
  filename := []
  buildId := []
  debuglink := []
  debuglinkCrc := 0
  isMainFile := true
  checksum := 0
  initialized := false
  relocation := 0
  invalidBreakpoints := 0
  verifier := []
  handleSolibs := handleSolibs
  onFile := []
  onLine := []

variable (o : Objects)

/-- The part of `checkFile` for the main file. -/
def setHeader (e : ElfInstance) (header : Header) : ElfInstance :=
  { e with
    elfIs32Bit := header.is32Bit
    handleSolibs := !header.is32Bit == o.machineIs64Bit
    elfIsShared := header.type == etDyn
    checksum := if e.checksum = 0 then header.checksum else e.checksum }

/-- `checkFile`, or `none` where the main file has no header to read. -/
def checkFile (e : ElfInstance) : Option (Bool × ElfInstance) :=
  match o.elfKind e.filename with
  | none => some (false, e)
  | some kind =>
    match e.isMainFile, kind with
    | true, .elf header => some (true, setHeader o e header)
    | true, _ => none
    | false, .none => some (false, e)
    | false, _ => some (true, e)

/-- `addFile`, with the segments of its entry. -/
def addFile (e : ElfInstance) (filename : Text) (segments : List Segment) :
    Option (Bool × ElfInstance) := do
  let e :=
    if e.initialized then e
    else { e with verifyAddresses := o.verifyOption, initialized := true }
  let e :=
    { e with
      filename
      buildId := []
      debuglink := []
      curSegments := segments
      executableSegments := [] }
  let (out, e) ← checkFile o e
  if !out then return (false, e)
  return (true, { e with onFile := e.onFile ++ [(e.filename, e.isMainFile)] })

/-- `addressIsValid`, and whether it counts an invalid breakpoint. -/
def addressIsValid (e : ElfInstance) (addr : U64) : Bool × Bool :=
  if e.executableSegments.any (addressIsWithinSegment · addr) then
    if e.verifyAddresses then
      let out := o.verify e.verifier addr
      (out, !out)
    else (true, false)
  else (false, false)

/-- `ElfInstance::onLine`. -/
def foundLine (e : ElfInstance) (l : SourceLine) : ElfInstance :=
  let (valid, invalidBreakpoint) := e.addressIsValid o l.addr
  let e :=
    if invalidBreakpoint then { e with invalidBreakpoints := e.invalidBreakpoints + 1 } else e
  if !valid then e
  else
    { e with
      onLine := e.onLine ++ [(o.mangleSourcePath l.file, l.lineNr,
        adjustAddressBySegment e.curSegments l.addr + e.relocation)] }

def parseOneElf (e : ElfInstance) : ElfInstance :=
  match o.elf e.filename with
  | none => e
  | some elf =>
    let segments := elf.getSegments
    let e :=
      { e with
        curSegments := if e.curSegments.isEmpty then segments else e.curSegments
        executableSegments := e.executableSegments ++ segments
        buildId := elf.buildId }
    match elf.debugLink with
    | none => e
    | some (name, crc) => { e with debuglink := name, debuglinkCrc := crc }

def setupSections (e : ElfInstance) : ElfInstance :=
  { e with verifier := e.verifier ++ e.executableSegments }

/-- The debug information that `parseOneDwarf` opens. -/
def openDwarf (e : ElfInstance) : Option (List SourceLine) :=
  match o.dwarf e.filename with
  | some lines => some lines
  | none =>
    match (if e.buildId ≠ [] then o.dwarf (buildIdFile e.buildId) else none) with
    | some lines => some lines
    | none =>
      if e.debuglink ≠ [] then
        let debugPath := lookupDebuglinkFile o.host e.filename e.debuglink e.debuglinkCrc
        if debugPath = [] ∧ e.isMainFile then none else o.dwarf debugPath
      else none

def parseOneDwarf (e : ElfInstance) (relocation : U64) : ElfInstance :=
  let e := { e with invalidBreakpoints := 0, relocation }
  match e.openDwarf o with
  | none => e
  | some lines => lines.foldl (foundLine o) e

def doParse (e : ElfInstance) (relocation : U64) : Bool × ElfInstance :=
  if !o.lstat e.filename then (false, e)
  else (true, ((e.parseOneElf o).setupSections).parseOneDwarf o relocation)

def setMainFileRelocation (e : ElfInstance) (relocation : U64) : Bool × ElfInstance :=
  if e.elfIsShared then e.doParse o relocation else (true, e)

/-- The lines of a main file that can be relocated are left to `setMainFileRelocation`. -/
def parse (e : ElfInstance) : Bool × ElfInstance :=
  let (out, e) :=
    if e.isMainFile && e.elfIsShared then
      (true, if o.parseSolibs then e else (e.setMainFileRelocation o 0).2)
    else e.doParse o 0
  (out, { e with isMainFile := false })

end ElfInstance

end Kcov.Elf
