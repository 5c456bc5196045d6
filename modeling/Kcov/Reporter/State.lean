import Kcov.Reporter.Line
import Mathlib.Data.List.Basic

/-! The reporter: how the lines that a parser finds and the addresses that a collector hits become
the coverage of each line, and how stored coverage is taken in. -/

namespace Kcov

open Bytes

/-- `IFileParser::PossibleHits`. -/
inductive PossibleHits where
  | single
  | limited
  | unlimited
  deriving DecidableEq, Repr

/-- What a reporter is created with: its surroundings, the filters, the properties of the parser,
and the configuration. -/
structure ReporterSetup where
  host : Host
  runFilters : Text → Bool
  excludeLine : Text
  excludeRegion : Text
  hashFilename : Bool
  maxPossibleHits : PossibleHits
  checksum : U64
  cleanOutput : Bool
  /-- What `read_file` returns for `coverage.db`. -/
  database : Option (List Byte)

namespace ReporterSetup

/-- The line handler of the filter, before it has seen a line. -/
def lineHandler (cfg : ReporterSetup) : FileLineHandler :=
  FileLineHandler.create cfg.excludeLine cfg.excludeRegion

def singleShot (cfg : ReporterSetup) : Bool := cfg.maxPossibleHits ≠ .unlimited

/-- The hash of the name of a file or of its contents. -/
def fileHash (cfg : ReporterSetup) (file : Text) : U64 :=
  if !cfg.hashFilename then
    match cfg.host.readFile file with
    | some data => (cfg.host.hashBlock data).setWidth 64
    | none => 0
  else cfg.host.stringHash file

end ReporterSetup

/-- `ISourceFileCache::getLines`. -/
def Host.getLines (host : Host) (file : Text) : List Text :=
  if !host.fileExists file then []
  else
    match host.readFile file with
    | some data => splitString 0x0a data
    | none => []

/-- A line object, which never moves: the file and the number under which it was added. -/
structure LineRef where
  file : Text
  lineNr : U32
  deriving DecidableEq, Repr

structure PendingFileAddress where
  index : U64
  hits : U64
  deriving DecidableEq, Repr

/-- A call of the listeners of a reporter. -/
inductive Notification where
  | onAddress (lineHash hits : U64)
  | onLineReporter (file : Text) (lineNr : U32) (lineId : U64)
  deriving DecidableEq, Repr

/-- The reporter and the calls that it has made. A missing key of `addrToLine` and of
`pendingFiles` is an empty list, since the lists of the keys that the source adds to the former
are never empty, and it does not ask for the keys of the latter. -/
structure Reporter where
  files : Text → Option File
  fileNames : List Text
  addrToLine : U64 → List LineRef
  pendingFiles : U64 → List PendingFileAddress
  lineIdToFile : U64 → Option LineRef
  unmarshallingDone : Bool
  order : U64
  lineHandler : FileLineHandler
  notified : List Notification

namespace Reporter

def create (cfg : ReporterSetup) : Reporter :=
  { files := fun _ => none
    fileNames := []
    addrToLine := fun _ => []
    pendingFiles := fun _ => []
    lineIdToFile := fun _ => none
    unmarshallingDone := false
    order := 1
    lineHandler := cfg.lineHandler
    notified := [] }

/-! ### Queries -/

def line? (s : Reporter) (ref : LineRef) : Option Line :=
  (s.files ref.file).bind fun file => file.getLine ref.lineNr

def lineIsCode (s : Reporter) (file : Text) (lineNr : U32) : Bool :=
  match s.files file with
  | none => false
  | some f => f.lineIsCode lineNr

/-- `LineExecutionCount`. -/
structure ExecutionCount where
  hits : U32
  possibleHits : U32
  order : U64
  deriving DecidableEq, Repr

def getLineExecutionCount (cfg : ReporterSetup) (s : Reporter) (file : Text) (lineNr : U32) :
    ExecutionCount :=
  match s.line? ⟨file, lineNr⟩ with
  | none => { hits := 0, possibleHits := 0, order := 0 }
  | some line =>
    if line.unreachable then { hits := 0, possibleHits := 0, order := 0 }
    else { hits := line.hits, possibleHits := line.possibleHits cfg.singleShot, order := line.order }

/-! ### Lines -/

/-- The loop that marks the lines that the line filter refuses, from line `nr` on. -/
def markUnreachable (path : Text) :
    List Text → U32 → File → FileLineHandler → Option (File × FileLineHandler)
  | [], _, file, handler => some (file, handler)
  | text :: texts, nr, file, handler =>
    let (out, handler) := handler.matchLine path text
    if !out then
      match file.addLine nr (Line.new file.fileHash nr true) with
      | none => none
      | some file => markUnreachable path texts (nr + 1) file handler
    else markUnreachable path texts (nr + 1) file handler

/-- The start of `onLine`, up to where the file is known. The counter of the loop has 32 bits, so
a file with too many lines makes it run over. -/
def openFile (cfg : ReporterSetup) (s : Reporter) (path : Text) : Option Reporter :=
  match s.files path with
  | some _ => some s
  | none => do
    let texts := cfg.host.getLines path
    if 2 ^ 32 - 1 ≤ texts.length then none
    else
      let (file, handler) ←
        markUnreachable path texts 1 (File.new (cfg.fileHash path)) s.lineHandler
      return { s with
        files := Function.update s.files path (some file)
        fileNames := s.fileNames ++ [path]
        lineHandler := handler }

/-- The next part of `onLine`, up to where the line is known. -/
def openLine (s : Reporter) (ref : LineRef) : Option Reporter :=
  match s.files ref.file with
  | none => some s
  | some file =>
    match file.getLine ref.lineNr with
    | some _ => some s
    | none => do
      let file ← file.addLine ref.lineNr (Line.new file.fileHash ref.lineNr false)
      return { s with files := Function.update s.files ref.file (some file) }

def modifyLine (s : Reporter) (ref : LineRef) (g : Line → Line) : Reporter :=
  match s.files ref.file with
  | none => s
  | some file =>
    { s with files := Function.update s.files ref.file (some (file.modifyLine ref.lineNr g)) }

def notify (s : Reporter) (n : Notification) : Reporter := { s with notified := s.notified ++ [n] }

/-- The hits that wait for a line are counted at their indices. -/
def replay (pending : List PendingFileAddress) (line : Line) : Line :=
  pending.foldl (fun line p => line.registerHitIndex p.index p.hits) line

/-- The rest of `onLine`, for the line with the number `lineId` at `ref`. -/
def registerAddress (s : Reporter) (ref : LineRef) (lineId addr : U64) : Reporter :=
  let pending := s.pendingFiles lineId
  let dup := (s.addrToLine addr).any fun r => (s.line? r).any fun line => line.lineId == lineId
  let s := s.modifyLine ref fun line => replay pending (line.addAddress addr)
  { s with
    addrToLine := if dup then s.addrToLine
      else Function.update s.addrToLine addr (s.addrToLine addr ++ [ref])
    lineIdToFile := Function.update s.lineIdToFile lineId (some ref)
    pendingFiles := Function.update s.pendingFiles lineId []
    notified := s.notified ++ pending.map (fun p => .onAddress lineId p.hits) ++
      [.onLineReporter ref.file ref.lineNr lineId] }

/-- `onLine`, or `none` where the source writes outside a vector. -/
def onLine (cfg : ReporterSetup) (s : Reporter) (file : Text) (lineNr : U32) (addr : U64) :
    Option Reporter :=
  if !cfg.runFilters file then some s
  else do
    let ref := ⟨file, lineNr⟩
    let s ← s.openFile cfg file
    let s ← s.openLine ref
    match s.line? ref with
    | none => return s
    | some line => return s.registerAddress ref line.lineId addr

/-! ### Hits -/

/-- The body of the loop of `onAddressHit`. -/
def hitLine (cfg : ReporterSetup) (addr hits : U64) (s : Reporter) (ref : LineRef) : Reporter :=
  match s.line? ref with
  | none => s
  | some line =>
    let first := line.order = 0
    let s' := s.modifyLine ref fun line =>
      let line := line.registerHit addr hits cfg.singleShot
      if first then { line with order := s.order } else line
    { s' with
      order := if first then s.order + 1 else s.order
      notified := s.notified ++ [.onAddress line.lineId hits] }

def onAddressHit (cfg : ReporterSetup) (s : Reporter) (addr hits : U64) : Reporter :=
  (s.addrToLine addr).foldl (hitLine cfg addr hits) s

end Reporter

end Kcov
