import Kcov.Reporter.Summary

/-! The writers of reports: the files that they know, the totals that they write, and how they run
next to a reporter. -/

namespace Kcov

open Bytes

/-- The code lines and the executed lines that a loop has found. -/
structure LineCount where
  code : U32
  executed : U32
  deriving DecidableEq, Repr

/-- `WriterBase::File`. -/
structure WriterFile where
  name : Text
  codeLines : U32
  executedLines : U32
  lastLineNr : U32

namespace WriterFile

/-- The constructor with its `readFile`, or `none` where that panics. The number of the last line
is one more than the number of lines that `getline` returns. -/
def new (host : Host) (filename : Text) : Option WriterFile := do
  let data ← host.readFile filename
  return {
    name := filename
    codeLines := 0
    executedLines := 0
    lastLineNr := BitVec.ofNat 32 ((splitString 0x0a data).length + 1) }

/-- The numbers that the loops `for (n = 1; n < file->m_lastLineNr; n++)` visit. -/
def lineNrs (file : WriterFile) : List U32 :=
  (List.range' 1 (file.lastLineNr.toNat - 1)).map (BitVec.ofNat 32)

/-- A line that is code is counted, and once more if it has hits. -/
def count (cfg : ReporterSetup) (s : Reporter) (file : WriterFile) (c : LineCount) (n : U32) :
    LineCount :=
  if s.lineIsCode file.name n then
    let cnt := s.getLineExecutionCount cfg file.name n
    { executed := if cnt.hits ≠ 0 then c.executed + 1 else c.executed, code := c.code + 1 }
  else c

def store (file : WriterFile) (c : LineCount) : WriterFile :=
  { file with executedLines := c.executed, codeLines := c.code }

end WriterFile

/-- `WriterBase`. -/
structure WriterBase where
  files : List WriterFile

namespace WriterBase

/-- `onLine`, or `none` where a file that exists cannot be opened. -/
def onLine (cfg : ReporterSetup) (w : WriterBase) (file : Text) : Option WriterBase :=
  if !cfg.runFilters file then some w
  else if w.files.any (·.name = file) then some w
  else if !cfg.host.fileExists file then some w
  else do
    let f ← WriterFile.new cfg.host file
    return { files := w.files ++ [f] }

/-- The files in the order in which the loops over `m_files` visit them. -/
def filesInOrder (w : WriterBase) (it : IterationOrder) : List WriterFile :=
  (it.order (w.files.map (·.name))).filterMap fun name => w.files.find? (·.name = name)

/-- The sums over the counters of the files. -/
def totals (w : WriterBase) (it : IterationOrder) : LineCount :=
  (w.filesInOrder it).foldl
    (fun total file =>
      { code := total.code + file.codeLines, executed := total.executed + file.executedLines })
    { code := 0, executed := 0 }

end WriterBase

namespace HtmlWriter

/-- What `writeOne` counts: the counters are stored after every line. -/
def writeOne (cfg : ReporterSetup) (s : Reporter) (file : WriterFile) : WriterFile :=
  (file.lineNrs.foldl
    (fun (out, c) n =>
      let c := file.count cfg s c n
      (out.store c, c))
    (file, { code := 0, executed := 0 })).1

/-- `write`: the writer after it, and the totals of `writeIndex`. -/
def write (cfg : ReporterSetup) (s : Reporter) (w : WriterBase) (it : IterationOrder) :
    WriterBase × LineCount :=
  let w := { files := w.files.map (writeOne cfg s) : WriterBase }
  (w, w.totals it)

end HtmlWriter

namespace CoberturaWriter

/-- The counters are stored after every line that is code. -/
def sumOne (cfg : ReporterSetup) (s : Reporter) (file : WriterFile) : WriterFile :=
  (file.lineNrs.foldl
    (fun (out, c) n =>
      if !s.lineIsCode file.name n then (out, c)
      else
        let c := file.count cfg s c n
        (out.store c, c))
    (file, { code := 0, executed := 0 })).1

/-- `write`: the writer after it, and the totals of the header. -/
def write (cfg : ReporterSetup) (s : Reporter) (w : WriterBase) (it : IterationOrder) :
    WriterBase × LineCount :=
  let w := { files := w.files.map (sumOne cfg s) : WriterBase }
  (w, w.totals it)

end CoberturaWriter

namespace JsonWriter

/-- `write`: the totals, which are counted line by line. -/
def write (cfg : ReporterSetup) (s : Reporter) (w : WriterBase) (it : IterationOrder) : LineCount :=
  (w.filesInOrder it).foldl
    (fun total file => file.lineNrs.foldl (file.count cfg s) total)
    { code := 0, executed := 0 }

end JsonWriter

/-- A reporter and three writers that listen to the same parser. -/
structure Reports where
  reporter : Reporter
  html : WriterBase
  cobertura : WriterBase
  json : WriterBase

namespace Reports

/-- A call of the parser or of the collector, or the reports are written. -/
inductive Event where
  | call (ev : Reporter.Event)
  | write
  deriving DecidableEq, Repr

def create (cfg : ReporterSetup) : Reports :=
  { reporter := Reporter.create cfg
    html := { files := [] }
    cobertura := { files := [] }
    json := { files := [] } }

/-- The totals of a report do not depend on the order of the files, and neither does what the
writers keep. -/
def step (cfg : ReporterSetup) (it : IterationOrder) (r : Reports) : Event → Option Reports
  | .call ev => do
    let reporter ← r.reporter.step cfg ev
    match ev with
    | .line file _ _ =>
      let html ← r.html.onLine cfg file
      let cobertura ← r.cobertura.onLine cfg file
      let json ← r.json.onLine cfg file
      return { reporter, html, cobertura, json }
    | _ => return { r with reporter }
  | .write => some { r with
      html := (HtmlWriter.write cfg r.reporter r.html it).1
      cobertura := (CoberturaWriter.write cfg r.reporter r.cobertura it).1 }

def run (cfg : ReporterSetup) (it : IterationOrder) (evs : List Event) : Option Reports :=
  evs.foldlM (step cfg it) (create cfg)

/-- The calls of the parser and of the collector. -/
def calls (evs : List Event) : List Reporter.Event :=
  evs.filterMap fun
    | .call ev => some ev
    | .write => none

end Reports

end Kcov
