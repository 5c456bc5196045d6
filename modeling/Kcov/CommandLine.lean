import Kcov.Lib.Getopt
import Kcov.Merge.Directories
import Kcov.Numbers

/-! The options of kcov and their values, and how the configuration is made from them. -/

namespace Kcov.CommandLine

open Bytes Getopt

/-! ### Numbers -/

/-- What `std::stoul` throws. -/
inductive Thrown where
  | invalidArgument
  | outOfRange
  deriving DecidableEq, Repr

/-- The decimal digits behind white space and a sign. -/
def leadingDigits (str : Text) : Text :=
  (skipSign (str.dropWhile isSpace)).takeWhile (isDigitOf 10)

/-- `std::stoul`: the number, and how much of the text it is. -/
def stoul (str : Text) : Except Thrown (BitVec 64 × Nat) :=
  let s := str.dropWhile isSpace
  let digits := leadingDigits str
  let n := numberOf 10 digits
  if digits = [] then .error .invalidArgument
  else if 2 ^ 64 ≤ n then .error .outOfRange
  else
    let value := BitVec.ofNat 64 n
    .ok (if s.head? = some 0x2d then -value else value,
      str.length - ((skipSign s).length - digits.length))

/-- `isInteger`, which only catches `std::invalid_argument`. -/
def isInteger (str : Text) : Except Thrown Bool :=
  match stoul str with
  | .ok (_, pos) => .ok (decide (pos = str.length))
  | .error .invalidArgument => .ok false
  | .error .outOfRange => .error .outOfRange

/-! ### Keys -/

/-- `m_strings`, `m_ints` and `m_stringVectors`. -/
structure KeyMaps where
  strings : Text → Option Text
  ints : Text → Option (BitVec 32)
  stringVectors : Text → Option (List Text)

namespace KeyMaps

def empty : KeyMaps where
  strings _ := none
  ints _ := none
  stringVectors _ := none

def setString (keys : KeyMaps) (key val : Text) : KeyMaps :=
  { keys with strings := Function.update keys.strings key (some val) }

def setInt (keys : KeyMaps) (key : Text) (val : BitVec 32) : KeyMaps :=
  { keys with ints := Function.update keys.ints key (some val) }

def setList (keys : KeyMaps) (key : Text) (val : List Text) : KeyMaps :=
  { keys with stringVectors := Function.update keys.stringVectors key (some val) }

/-- `setKey` for a number of 64 bits, of which an `int` keeps the lower half. -/
def setLong (keys : KeyMaps) (key : Text) (val : BitVec 64) : KeyMaps :=
  keys.setInt key (val.setWidth 32)

end KeyMaps

/-- `IConfiguration::RunMode_t`. -/
inductive RunMode where
  | collectOnly
  | reportOnly
  | collectAndReport
  | mergeOnly
  | systemRecord
  | systemReport
  deriving DecidableEq, Repr

def RunMode.value : RunMode → BitVec 32
  | .collectOnly => 1
  | .reportOnly => 2
  | .collectAndReport => 3
  | .mergeOnly => 4
  | .systemRecord => 5
  | .systemReport => 6

def defaultStrings : List (String × String) :=
  [("kcov-binary-path", ""), ("binary-path", ""), ("python-command", "python"),
    ("bash-command", "bash"), ("kernel-coverage-path", "/sys/kernel/debug/kprobe-coverage"),
    ("coveralls-id", ""), ("strip-path", ""), ("exclude-line", ""), ("exclude-region", ""),
    ("orig-path-prefix", ""), ("new-path-prefix", ""), ("command-name", ""),
    ("merged-name", "[merged]"), ("css-file", ""), ("system-mode-write-file", ""),
    ("system-mode-read-results-file", ""), ("patchelf-command", "patchelf"),
    ("coveralls-service-name", "travis-ci")]

def defaultInts : List (String × BitVec 32) :=
  [("path-strip-level", 2), ("attach-pid", 0), ("parse-solibs", 1), ("clean-output", 0),
    ("low-limit", 25), ("high-limit", 75), ("output-interval", 5000),
    ("daemonize-on-first-process-exit", 0), ("dump-summary", 0),
    ("running-mode", RunMode.collectAndReport.value), ("bash-force-stderr-input", 0),
    ("bash-handle-sh-invocation", 0), ("bash-tracefd-cloexec", 0), ("bash-use-basic-parser", 0),
    ("bash-use-ps4", 1), ("bash-parse-binary-dir", 1), ("verify", 0),
    ("lldb-use-raw-breakpoint-writes", 0), ("system-mode-write-file-mode", 0o644),
    ("cobertura-full-paths", 0), ("codecov-full-paths", 0), ("cobertura-only", 0),
    ("is-go-binary", 0)]

def defaultLists : List String :=
  ["exclude-pattern", "include-pattern", "exclude-path", "include-path", "bash-parse-file-dir"]

def setupDefaults : KeyMaps :=
  let keys := defaultStrings.foldl (fun keys (key, val) => keys.setString (ascii key) (ascii val))
    .empty
  let keys := defaultInts.foldl (fun keys (key, val) => keys.setInt (ascii key) val) keys
  defaultLists.foldl (fun keys key => keys.setList (ascii key) []) keys

/-! ### The ends of `parse` -/

/-- How `parse` ends before it returns `true`. -/
inductive Stop where
  /-- It returns `false` through `usage()`. -/
  | usage
  | panic
  /-- `--version` ends the program. -/
  | exit
  /-- An exception leaves it. -/
  | thrown (e : Thrown)
  /-- It takes a null pointer for a string. -/
  | nullPointer
  deriving DecidableEq, Repr

/-- Nothing in `parse` catches exceptions. -/
def uncaught {α : Type} : Except Thrown α → Except Stop α
  | .ok a => .ok a
  | .error e => .error (.thrown e)

/-- A value for which `isInteger` is asked first. -/
def checkedNumber (otherwise : Stop) (value : Text) : Except Stop (BitVec 64) := do
  let valid ← uncaught (isInteger value)
  if valid then
    let (n, _) ← uncaught (stoul value)
    return n
  else throw otherwise

/-! ### `--configure` -/

/-- The keys whose values are checked. -/
def checkedKeys : List Text :=
  ["low-limit", "high-limit", "bash-use-basic-parser", "cobertura-full-paths",
    "codecov-full-paths"].map ascii

/-- The keys whose values are converted without a check. -/
def uncheckedKeys : List Text :=
  ["system-mode-read-results-file", "lldb-use-raw-breakpoint-writes"].map ascii

def stringKeys : List Text :=
  ["system-mode-write-file", "command-name", "css-file", "merged-name",
    "coveralls-service-name"].map ascii

def configure (keys : KeyMaps) (key value : Text) : Except Stop KeyMaps :=
  if checkedKeys.contains key then do
    let n ← checkedNumber .panic value
    return keys.setLong key n
  else if uncheckedKeys.contains key then do
    let (n, _) ← uncaught (stoul value)
    return keys.setLong key n
  else if stringKeys.contains key then return keys.setString key value
  else throw .panic

def comma : Byte := 0x2c
def colon : Byte := 0x3a
def tilde : Byte := 0x7e

/-- The key and the value of an entry of `--configure`. -/
def configureEntry (keys : KeyMaps) (entry : Text) : Except Stop KeyMaps :=
  match splitString equalsSign entry with
  | [key, value] => configure keys key value
  | _ => throw .usage

/-! ### The options -/

/-- The options without an argument, by their long names. -/
inductive Flag where
  | help | skipSolibs | exitFirstProcess | clang | clean | coberturaOnly | debugForceBashStderr
  | bashHandleShInvocation | bashTracefdCloexec | bashDontParseBinaryDir | collectOnly
  | reportOnly | merge | systemRecord | systemReport | verify | dumpSummary | version
  | uncommonOptions
  deriving DecidableEq, Repr

/-- The options that have an argument. -/
inductive Valued where
  | pid | limits | outputInterval | pathStripLevel | configure | excludePattern | includePattern
  | excludePath | includePath | coverallsId | stripPath | excludeLine | excludeRegion | debug
  | bashParseFilesInDirs | replaceSrcPath | pythonParser | patchelf | bashParser | bashMethod
  deriving DecidableEq, Repr

inductive Opt where
  | flag (f : Flag)
  | valued (v : Valued)
  deriving DecidableEq, Repr

def longOptions : List (LongOption Opt) :=
  [⟨ascii "help", false, .flag .help⟩, ⟨ascii "pid", true, .valued .pid⟩,
    ⟨ascii "limits", true, .valued .limits⟩,
    ⟨ascii "output-interval", true, .valued .outputInterval⟩,
    ⟨ascii "path-strip-level", true, .valued .pathStripLevel⟩,
    ⟨ascii "skip-solibs", false, .flag .skipSolibs⟩,
    ⟨ascii "exit-first-process", false, .flag .exitFirstProcess⟩,
    ⟨ascii "clang", false, .flag .clang⟩, ⟨ascii "configure", true, .valued .configure⟩,
    ⟨ascii "clean", false, .flag .clean⟩, ⟨ascii "cobertura-only", false, .flag .coberturaOnly⟩,
    ⟨ascii "exclude-pattern", true, .valued .excludePattern⟩,
    ⟨ascii "include-pattern", true, .valued .includePattern⟩,
    ⟨ascii "exclude-path", true, .valued .excludePath⟩,
    ⟨ascii "include-path", true, .valued .includePath⟩,
    ⟨ascii "coveralls-id", true, .valued .coverallsId⟩,
    ⟨ascii "strip-path", true, .valued .stripPath⟩,
    ⟨ascii "exclude-line", true, .valued .excludeLine⟩,
    ⟨ascii "exclude-region", true, .valued .excludeRegion⟩,
    ⟨ascii "debug", true, .valued .debug⟩,
    ⟨ascii "debug-force-bash-stderr", false, .flag .debugForceBashStderr⟩,
    ⟨ascii "bash-handle-sh-invocation", false, .flag .bashHandleShInvocation⟩,
    ⟨ascii "bash-tracefd-cloexec", false, .flag .bashTracefdCloexec⟩,
    ⟨ascii "bash-dont-parse-binary-dir", false, .flag .bashDontParseBinaryDir⟩,
    ⟨ascii "bash-parse-files-in-dirs", true, .valued .bashParseFilesInDirs⟩,
    ⟨ascii "replace-src-path", true, .valued .replaceSrcPath⟩,
    ⟨ascii "collect-only", false, .flag .collectOnly⟩,
    ⟨ascii "report-only", false, .flag .reportOnly⟩, ⟨ascii "merge", false, .flag .merge⟩,
    ⟨ascii "python-parser", true, .valued .pythonParser⟩,
    ⟨ascii "patchelf", true, .valued .patchelf⟩,
    ⟨ascii "bash-parser", true, .valued .bashParser⟩,
    ⟨ascii "bash-method", true, .valued .bashMethod⟩,
    ⟨ascii "system-record", false, .flag .systemRecord⟩,
    ⟨ascii "system-report", false, .flag .systemReport⟩, ⟨ascii "verify", false, .flag .verify⟩,
    ⟨ascii "dump-summary", false, .flag .dumpSummary⟩, ⟨ascii "version", false, .flag .version⟩,
    ⟨ascii "uncommon-options", false, .flag .uncommonOptions⟩]

/-- `"+:hp:s:l:t:"`. Two of these take an argument that is not used. -/
def shortOptions : List (ShortOption Opt) :=
  [⟨0x68, false, .flag .help⟩, ⟨0x70, true, .valued .pid⟩,
    ⟨0x73, true, .flag .bashHandleShInvocation⟩, ⟨0x6c, true, .valued .limits⟩,
    ⟨0x74, true, .flag .bashTracefdCloexec⟩]

/-- What `parse` asks the system for besides files. -/
structure System where
  host : Host
  /-- `realpath` finds the path. -/
  realpath : Text → Bool
  /-- `getenv("HOME")`. -/
  home : Option Text
  lookPath : Text → Option Text
  /-- `getParserType` of the parser for a file. -/
  parserType : Text → Option Text

/-- The variables of `parse` and the members that it sets. The file to run is not needed where the
path is known from `/proc`. -/
structure ParseState where
  keys : KeyMaps
  pathIsKnown : Bool
  printUsage : Bool
  printUncommon : Bool
  debugMask : BitVec 32

def ParseState.extraNeeded (s : ParseState) : Nat := if s.pathIsKnown then 1 else 2

namespace ParseState

def setString (s : ParseState) (key : String) (val : Text) : ParseState :=
  { s with keys := s.keys.setString (ascii key) val }

def setInt (s : ParseState) (key : String) (val : BitVec 32) : ParseState :=
  { s with keys := s.keys.setInt (ascii key) val }

def setList (s : ParseState) (key : String) (val : List Text) : ParseState :=
  { s with keys := s.keys.setList (ascii key) val }

end ParseState

/-- `getCommaSeparatedList`. -/
def getCommaSeparatedList (str : Text) : List Text := str.splitOn comma

/-- A path with the directory of the user for its `~`. -/
def expandHome (sys : System) (s : Text) : Except Stop Text :=
  if s.head? = some tilde then
    match sys.home with
    | some home => return home ++ s.drop 1
    | none => throw .nullPointer
  else return s

/-- `expandPath`. -/
def expandPath (sys : System) (paths : List Text) : Except Stop (List Text) :=
  paths.mapM (expandHome sys)

/-- `fmt("/proc/%lu/exe", pid)`. -/
def procPath (pid : Text) : Text := ascii "/proc/" ++ pid ++ ascii "/exe"

/-- The effect of an option without an argument. -/
def handleFlag (s : ParseState) : Flag → Except Stop ParseState
  | .help => return { s with printUsage := true }
  | .uncommonOptions => return { s with printUncommon := true }
  | .verify => return s.setInt "verify" 1
  | .version => throw .exit
  | .skipSolibs => return s.setInt "parse-solibs" 0
  | .exitFirstProcess => return s.setInt "daemonize-on-first-process-exit" 1
  | .clean => return s.setInt "clean-output" 1
  | .coberturaOnly => return s.setInt "cobertura-only" 1
  | .debugForceBashStderr =>
    return (s.setInt "bash-force-stderr-input" 1).setInt "bash-use-ps4" 1
  | .bashHandleShInvocation => return s.setInt "bash-handle-sh-invocation" 1
  | .bashTracefdCloexec => return s.setInt "bash-tracefd-cloexec" 1
  | .collectOnly => return s.setInt "running-mode" RunMode.collectOnly.value
  | .reportOnly => return s.setInt "running-mode" RunMode.reportOnly.value
  | .merge => return s.setInt "running-mode" RunMode.mergeOnly.value
  | .dumpSummary => return s.setInt "dump-summary" 1
  | .systemRecord =>
    return (s.setInt "running-mode" RunMode.systemRecord.value).setInt "parse-solibs" 0
  | .systemReport =>
    return (s.setInt "running-mode" RunMode.systemReport.value).setInt "parse-solibs" 0
  | .bashDontParseBinaryDir => return s.setInt "bash-parse-binary-dir" 0
  -- the table has it, the switch does not
  | .clang => throw .panic

/-- The effect of an option with its argument. -/
def handleArgument (sys : System) (s : ParseState) (optarg : Text) :
    Valued → Except Stop ParseState
  | .pid => do
    let pid ← checkedNumber .usage optarg
    let keys := s.keys.setLong (ascii "attach-pid") pid
    let found := sys.host.fileExists (procPath (decimal pid.toNat))
    return { s with keys, pathIsKnown := s.pathIsKnown || found }
  | .outputInterval => do
    let n ← checkedNumber .usage optarg
    return { s with keys := s.keys.setLong (ascii "output-interval") n }
  | .pathStripLevel => do
    let n ← checkedNumber .usage optarg
    let level : BitVec 32 := n.setWidth 32
    return s.setInt "path-strip-level" (if level = 0 then 0x7fffffff else level)
  | .debug => do
    let n ← checkedNumber .usage optarg
    return { s with debugMask := n.setWidth 32 }
  | .limits =>
    match getCommaSeparatedList optarg with
    | [low, high] => do
      let lowLimit ← checkedNumber .usage low
      let highLimit ← checkedNumber .usage high
      let keys := (s.keys.setLong (ascii "low-limit") lowLimit).setLong (ascii "high-limit") highLimit
      return { s with keys }
    | _ => throw .usage
  | .configure => do
    let keys ← (splitString comma optarg).foldlM configureEntry s.keys
    return { s with keys }
  | .includePath => do
    let paths ← expandPath sys (getCommaSeparatedList optarg)
    return s.setList "include-path" paths
  | .excludePath => do
    let paths ← expandPath sys (getCommaSeparatedList optarg)
    return s.setList "exclude-path" paths
  | .replaceSrcPath =>
    match optarg.splitOn colon with
    | [originalPathPrefix, newPathPrefix] =>
      if sys.realpath newPathPrefix then
        return (s.setString "orig-path-prefix" originalPathPrefix).setString "new-path-prefix"
          newPathPrefix
      else throw .panic
    | _ => throw .panic
  | .bashMethod =>
    if optarg = ascii "DEBUG" then return s.setInt "bash-use-ps4" 0
    else if optarg = ascii "PS4" then return s.setInt "bash-use-ps4" 1
    else throw .panic
  | .includePattern => return s.setList "include-pattern" (getCommaSeparatedList optarg)
  | .excludePattern => return s.setList "exclude-pattern" (getCommaSeparatedList optarg)
  | .bashParseFilesInDirs => return s.setList "bash-parse-file-dir" (getCommaSeparatedList optarg)
  | .pythonParser => return s.setString "python-command" optarg
  | .patchelf => return s.setString "patchelf-command" optarg
  | .bashParser => return s.setString "bash-command" optarg
  | .coverallsId => return s.setString "coveralls-id" optarg
  | .stripPath => return s.setString "strip-path" optarg
  | .excludeLine => return s.setString "exclude-line" optarg
  | .excludeRegion => return s.setString "exclude-region" optarg

/-- A round of the loop over the options. -/
def handle (sys : System) (s : ParseState) : Found Opt → Except Stop ParseState
  | .option (.flag f) _ => handleFlag s f
  | .option (.valued v) (some optarg) => handleArgument sys s optarg v
  | .option (.valued _) none => throw .nullPointer
  | .missingArgument => throw .usage
  | .unrecognized => throw .usage

/-! ### The other arguments -/

def keyAsString (keys : KeyMaps) (key : String) : Except Stop Text :=
  match keys.strings (ascii key) with
  | some val => .ok val
  | none => .error .panic

def keyAsInt (keys : KeyMaps) (key : String) : Except Stop (BitVec 32) :=
  match keys.ints (ascii key) with
  | some val => .ok val
  | none => .error .panic

/-- `argv[afterOpts + 1]` as a string; behind the last argument there is a null pointer. -/
def inFile : List Text → Except Stop Text
  | path :: _ => .ok path
  | [] => .error .nullPointer

/-- The file to run, or that of the process. -/
def filePath (sys : System) (keys : KeyMaps) (args : List Text) : Except Stop Text := do
  let pid ← keyAsInt keys "attach-pid"
  if pid = 0 then inFile args
  else
    let path := sys.host.realPath (procPath (printSigned pid))
    if sys.host.fileExists path then return path else inFile args

/-- The keys for the program, which is not known when reports are merged. -/
def setupProgram (sys : System) (keys : KeyMaps) (outArgument : Text) (args : List Text) :
    Except Stop KeyMaps := do
  let path ← filePath sys keys args
  let binaryPath := (sys.lookPath path).getD path
  let parserType := sys.parserType binaryPath
  let coberturaOnly ← keyAsInt keys "cobertura-only"
  let setup : OutputSetup :=
    { host := sys.host
      outArgument
      mergeMode := false
      coberturaOnly := coberturaOnly ≠ 0
      binaryPath
      script := parserType = some (ascii "bash") || parserType = some (ascii "python") }
  let keys := keys.setString (ascii "binary-path") (splitPath binaryPath).1
  let keys := keys.setString (ascii "binary-name") setup.binaryName
  let keys := keys.setString (ascii "target-directory") setup.targetDirectory
  let runningMode ← keyAsInt keys "running-mode"
  if runningMode = RunMode.reportOnly.value ∧ !sys.host.fileExists setup.targetDirectory then
    throw .usage
  let commandName ← keyAsString keys "command-name"
  if commandName = [] then return keys.setString (ascii "command-name") setup.binaryName
  else return keys

/-- The keys for the output directory, and those for the program. -/
def setupPaths (sys : System) (keys : KeyMaps) (outArgument : Text) (args : List Text) :
    Except Stop KeyMaps := do
  let setup : OutputSetup :=
    { host := sys.host, outArgument, mergeMode := true, coberturaOnly := false, binaryPath := [],
      script := false }
  let keys := keys.setString (ascii "out-directory") setup.outDirectory
  let runningMode ← keyAsInt keys "running-mode"
  if runningMode = RunMode.mergeOnly.value then
    let keys := keys.setString (ascii "binary-name") setup.binaryName
    return keys.setString (ascii "target-directory") setup.targetDirectory
  else setupProgram sys keys outArgument args

/-- What `parse` has set where it returns `true`. -/
structure Parsed where
  keys : KeyMaps
  printUncommon : Bool
  debugMask : BitVec 32
  programArgs : List Text

/-- `parse`, behind the loop over the options. -/
def finish (sys : System) (s : ParseState) (args : List Text) : Except Stop Parsed :=
  if s.printUsage then throw .usage
  else if args.length < s.extraNeeded then throw .usage
  else
    match args with
    | [] => throw .nullPointer
    | outArgument :: programArgs => do
      let keys ← setupPaths sys s.keys outArgument programArgs
      return { keys, printUncommon := s.printUncommon, debugMask := s.debugMask, programArgs }

/-- `STATUS_MSG`. -/
def statusMsg : BitVec 32 := 16

def ParseState.start (sys : System) (program : Text) : ParseState where
  keys := setupDefaults.setString (ascii "kcov-binary-path") (sys.host.realPath program)
  pathIsKnown := false
  printUsage := false
  printUncommon := false
  debugMask := statusMsg

/-- `parse`, for the name of the program and its arguments. -/
def parse (sys : System) (program : Text) (args : List Text) : Except Stop Parsed := do
  let (found, args) := getoptLong longOptions shortOptions args
  let s ← found.foldlM (handle sys) (.start sys program)
  finish sys s args

end Kcov.CommandLine
