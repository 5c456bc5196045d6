import Kcov.Reporter.Database
import Mathlib.Data.List.AList

/-! The merge parser: the lines and hits of a reporter and of stored metadata records, file by file,
and the calls of its own listeners. -/

namespace Kcov

open Bytes

/-- `AddrMap_t`. -/
abbrev AddrMap := AList fun _ : U64 => U32

namespace AddrMap

def count (m : AddrMap) (addr : U64) : U32 := (m.lookup addr).getD 0

def addTo (m : AddrMap) (addr : U64) (n : U32) : AddrMap := m.insert addr (m.count addr + n)

end AddrMap

/-- `MergeParser::File`. -/
structure MergeFile where
  checksum : U32
  lines : AList fun _ : U32 => AddrMap
  addrHits : AddrMap
  isLocal : Bool

namespace MergeFile

/-- The constructor, or `none` where it panics. -/
def create (host : Host) (filename : Text) : Option MergeFile := do
  let data ← host.readFile filename
  return { checksum := host.hashBlock data, lines := ∅, addrHits := ∅, isLocal := false }

def setLocal (f : MergeFile) : MergeFile := { f with isLocal := true }

def lineAddrs (f : MergeFile) (lineNr : U32) : AddrMap := (f.lines.lookup lineNr).getD ∅

def addLine (f : MergeFile) (lineNr : U32) (addr : U64) : MergeFile :=
  { f with lines := f.lines.insert lineNr ((f.lineAddrs lineNr).addTo addr 1) }

def registerHits (f : MergeFile) (addr : U64) (hits : U32) : MergeFile :=
  { f with addrHits := f.addrHits.addTo addr hits }

/-- The file has the address in the line. -/
def hasAddr (f : MergeFile) (lineNr : U32) (addr : U64) : Bool := decide (addr ∈ f.lineAddrs lineNr)

/-- The test with which the hit bit of an address is set in a record. -/
def isHit (f : MergeFile) (addr : U64) : Bool := f.addrHits.count addr ≠ 0

end MergeFile

/-- What a merge parser is created with. -/
structure MergeSetup where
  host : Host
  runFilters : Text → Bool
  mangleSourcePath : Text → Text

/-- The maps of the parser and the calls of its line and collector listeners. A `File *` is the name
of the file. -/
structure MergeParser where
  files : Text → Option MergeFile
  fileNames : List Text
  filesByAddress : U64 → Option Text
  fileLineByAddress : U64 → Option U64
  pendingHits : U64 → Option U64
  reported : List Reporter.Event

/-- A metadata record: the lines of a file with their addresses. -/
structure Record where
  fileName : Text
  checksum : U32
  entries : List (U32 × List U64)
  deriving DecidableEq

def hitBit : U64 := (1 : U64) <<< 63

def hashAddress (host : Host) (filename : Text) (lineNr : U32) : U64 :=
  (host.hashBlock filename).setWidth 64 ||| (lineNr.setWidth 64 <<< 32)

namespace MergeParser

def create : MergeParser :=
  { files := fun _ => none
    fileNames := []
    filesByAddress := fun _ => none
    fileLineByAddress := fun _ => none
    pendingHits := fun _ => none
    reported := [] }

def report (s : MergeParser) (ev : Reporter.Event) : MergeParser :=
  { s with reported := s.reported ++ [ev] }

def modifyFile (s : MergeParser) (filename : Text) (g : MergeFile → MergeFile) : MergeParser :=
  { s with files := Function.update s.files filename ((s.files filename).map g) }

theorem modifyFile_files (s : MergeParser) (filename q : Text) (g : MergeFile → MergeFile) :
    (s.modifyFile filename g).files q =
      if q = filename then (s.files filename).map g else s.files q :=
  Function.update_apply _ _ _ _

/-- The lookup in `m_files`, with which a missing file is created. -/
def openFile (cfg : MergeSetup) (s : MergeParser) (filename : Text) : Option MergeParser :=
  match s.files filename with
  | some _ => some s
  | none => do
    let file ← MergeFile.create cfg.host filename
    return { s with
      files := Function.update s.files filename (some file)
      fileNames := s.fileNames ++ [filename] }

/-! ### The listener of a reporter -/

def onAddress (s : MergeParser) (addr hits : U64) : MergeParser :=
  match s.fileLineByAddress addr with
  | none => { s with pendingHits := Function.update s.pendingHits addr (some hits) }
  | some addr =>
    match s.filesByAddress addr with
    | none => s
    | some filename =>
      (s.modifyFile filename fun file => file.registerHits addr (hits.setWidth 32)).report
        (.hit addr hits)

/-- `onLineReporter`, or `none` where it panics. -/
def onLineReporter (cfg : MergeSetup) (s : MergeParser) (filename : Text) (lineNr : U32)
    (addr : U64) : Option MergeParser :=
  if !cfg.runFilters filename then some s
  else if !cfg.host.fileExists filename then some s
  else do
    let s ← s.openFile cfg filename
    let addrHash := hashAddress cfg.host filename lineNr &&& ~~~hitBit
    let s := { s with fileLineByAddress := Function.update s.fileLineByAddress addr (some addrHash) }
    let s := s.modifyFile filename fun file => file.setLocal.addLine lineNr addrHash
    let s := { s with filesByAddress := Function.update s.filesByAddress addrHash (some filename) }
    let s := s.report (.line filename lineNr addrHash)
    match s.pendingHits addr with
    | none => return s
    | some hits =>
      let s := s.onAddress addr hits
      return { s with pendingHits := Function.update s.pendingHits addr none }

/-- A call of the reporter. -/
def onNotification (cfg : MergeSetup) (s : MergeParser) : Notification → Option MergeParser
  | .onAddress lineHash hits => some (s.onAddress lineHash hits)
  | .onLineReporter file lineNr lineId => s.onLineReporter cfg file lineNr lineId

/-! ### Stored records -/

/-- The body of the loops of `parseFileData`, for one word of the address table. -/
def parseAddress (filename : Text) (lineNr : U32) (s : MergeParser) (word : U64) : MergeParser :=
  let hit := word &&& hitBit ≠ 0
  let addr := word &&& ~~~hitBit
  let s := s.modifyFile filename fun file => file.addLine lineNr addr
  let s := s.report (.line filename lineNr (addr &&& ~~~hitBit))
  if hit then
    (s.modifyFile filename fun file => file.registerHits addr 1).report (.hit addr 1)
  else s

/-- The loops of `parseFileData`. -/
def parseEntries (filename : Text) (s : MergeParser) (entries : List (U32 × List U64)) :
    MergeParser :=
  entries.foldl (fun s entry => entry.2.foldl (parseAddress filename entry.1) s) s

/-- What each address keeps, the entries keep. -/
theorem parseEntries_induction {I : MergeParser → Prop} {filename : Text}
    (haddress : ∀ n word s, I s → I (parseAddress filename n s word)) {s : MergeParser} (h : I s)
    (entries : List (U32 × List U64)) : I (parseEntries filename s entries) := by
  have hwords : ∀ n words s, I s → I (List.foldl (parseAddress filename n) s words) := by
    intro n words
    induction words with
    | nil => exact fun s hs => hs
    | cons word words ih => exact fun s hs => ih _ (haddress n word s hs)
  rw [parseEntries]
  induction entries generalizing s with
  | nil => exact h
  | cons entry entries ih => exact ih (hwords entry.1 entry.2 s h)

/-- `parseFileData`, or `none` where it panics. -/
def parseFileData (cfg : MergeSetup) (s : MergeParser) (fd : Record) : Option MergeParser :=
  let filename := cfg.mangleSourcePath fd.fileName
  if !cfg.host.fileExists filename then some s
  else
    match s.files filename with
    | none => do
      let s ← s.openFile cfg filename
      return s.parseEntries filename fd.entries
    | some file =>
      if file.checksum ≠ fd.checksum then some s
      else some (s.parseEntries filename fd.entries)

/-- The records of a merge, from a parser without files. -/
def parseAll (cfg : MergeSetup) (records : List Record) : Option MergeParser :=
  records.foldlM (parseFileData cfg) create

end MergeParser

end Kcov
