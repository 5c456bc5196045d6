import Kcov.Configuration

/-! The filters that decide which files and which lines are part of a report. -/

namespace Kcov

open Bytes

/-! ### Lines -/

/-- `FileLineHandler`: the patterns, the file of the last call and the nesting of excluded
regions in it, an `int` whose overflow is undefined. -/
structure FileLineHandler where
  curFile : Text
  ignoreSingleLinePatterns : List Text
  lineBeginPatterns : List Text
  lineEndPatterns : List Text
  excludeStart : Int

namespace FileLineHandler

def addRegion (h : FileLineHandler) (region : Text) : FileLineHandler :=
  let entries := splitString colon region
  { h with
    lineBeginPatterns := h.lineBeginPatterns ++ entries.take 1
    lineEndPatterns := h.lineEndPatterns ++ (entries.drop 1).take 1 }

/-- The constructor, with the values of `exclude-line` and `exclude-region`. -/
def create (excludeLine excludeRegion : Text) : FileLineHandler :=
  (splitString comma excludeRegion).foldl addRegion
    { curFile := []
      ignoreSingleLinePatterns :=
        [ascii "LCOV_EXCL_LINE", ascii "#[should_panic]"] ++ splitString comma excludeLine
      lineBeginPatterns := [ascii "LCOV_EXCL_START"]
      lineEndPatterns := [ascii "LCOV_EXCL_STOP"]
      excludeStart := 0 }

/-- `match`: whether the line is code, and the handler after it. -/
def matchLine (h : FileLineHandler) (filePath line : Text) : Bool × FileLineHandler :=
  let start := if h.curFile ≠ filePath then 0 else h.excludeStart
  let single := h.ignoreSingleLinePatterns.any (finds line)
  let start := if h.lineBeginPatterns.any (finds line) then start + 1 else start
  let out := !single && !decide (start > 0)
  let start := if h.lineEndPatterns.any (finds line) then start - 1 else start
  (out, { h with curFile := filePath, excludeStart := if start < 0 then 0 else start })

end FileLineHandler

/-! ### Files -/

/-- `PatternHandler`, which refers to the lists of the configuration. -/
structure PatternHandler where
  includePatterns : List Text
  excludePatterns : List Text

namespace PatternHandler

def isSetup (h : PatternHandler) : Bool :=
  !(h.includePatterns.isEmpty && h.excludePatterns.isEmpty)

def includeFile (h : PatternHandler) (file : Text) : Bool :=
  if h.includePatterns.isEmpty && h.excludePatterns.isEmpty then true
  else
    let out := h.includePatterns.isEmpty || h.includePatterns.any (finds file)
    out && !h.excludePatterns.any (finds file)

end PatternHandler

/-- `PathHandler`: real paths of directories and files. -/
structure PathHandler where
  includePaths : List Text
  excludePaths : List Text

namespace PathHandler

def create (host : Host) (includePaths excludePaths : List Text) : PathHandler :=
  { includePaths := includePaths.map host.realPath
    excludePaths := excludePaths.map host.realPath }

def isSetup (h : PathHandler) : Bool :=
  !(h.includePaths.isEmpty && h.excludePaths.isEmpty)

/-- The path is the directory or file `pattern` or lies under it. -/
def isUnder (path pattern : Text) : Bool :=
  decide (pattern <+: path) && (decide (path.length ≤ pattern.length) ||
    path[pattern.length]? == some slash)

def includeFile (host : Host) (h : PathHandler) (file : Text) : Bool :=
  if h.includePaths.isEmpty && h.excludePaths.isEmpty then true
  else
    let path := host.realPath file
    let out := h.includePaths.isEmpty || h.includePaths.any (isUnder path)
    out && !h.excludePaths.any (isUnder path)

end PathHandler

/-- `Filter` without its line handler, which `runLineFilters` updates. -/
structure Filter where
  patternHandler : PatternHandler
  pathHandler : PathHandler
  origRoot : Text
  newRoot : Text

namespace Filter

/-- The constructor, or `none` where a key is missing. -/
def create (host : Host) (conf : Configuration) : Option Filter := do
  let includePatterns ← conf.keyAsList .includePattern
  let excludePatterns ← conf.keyAsList .excludePattern
  let includePaths ← conf.keyAsList .includePath
  let excludePaths ← conf.keyAsList .excludePath
  let origRoot ← conf.keyAsString .origPathPrefix
  let newRoot ← conf.keyAsString .newPathPrefix
  return {
    patternHandler := { includePatterns, excludePatterns }
    pathHandler := PathHandler.create host includePaths excludePaths
    origRoot, newRoot }

def runFilters (host : Host) (f : Filter) (file : Text) : Bool :=
  let out := if f.pathHandler.isSetup then f.pathHandler.includeFile host file else true
  if out && f.patternHandler.isSetup then f.patternHandler.includeFile file else out

end Filter

end Kcov
