import Kcov.Engines.Engine
import Kcov.Numbers
import Kcov.Reporter.ScriptHits

/-! The bash engine: bash writes a marker before each command that it traces, and the engine reads
the markers line by line. -/

namespace Kcov.Bash

open Bytes Reporter

def newline : Byte := 0x0a
def apostrophe : Byte := 0x27
def atSign : Byte := 0x40
def backslash : Byte := 0x5c

/-- `getline`: a line with its end, and the rest of the stream. -/
def getLine : Text → Text × Text
  | [] => ([], [])
  | b :: s =>
    if b = newline then ([b], s)
    else
      let (line, rest) := getLine s
      (b :: line, rest)

/-- `s.substr(s.find(pattern))`, or `none` where the pattern is not found. -/
def substrFrom (pattern s : Text) : Option Text := s.tails.find? (pattern.isPrefixOf ·)

/-! ### The lines of the scripts -/

/-- The fields of `ScriptEngineBase`, and what its listeners have been told. -/
structure ScriptEngineBase where
  reportedFiles : List Text
  lineIdToAddress : List (U64 × U64)
  onFile : List Text
  onLine : List (Text × U32 × U64)

/-- No file has been parsed yet. -/
def ScriptEngineBase.empty : ScriptEngineBase := ⟨[], [], [], []⟩

def getLineId (host : Host) (ref : LineRef) : U64 :=
  (host.stringHash ref.file &&& 0xffffffff) ||| (ref.lineNr.setWidth 64 <<< 32)

namespace ScriptEngineBase

-- which lines of a file the parser takes for code
variable (host : Host) (codeLines : List Text → List U32)

def fileLineFound (filename : Text) (e : ScriptEngineBase) (lineNo : U32) : ScriptEngineBase :=
  let id := getLineId host ⟨filename, lineNo⟩
  let address := scriptAddress host ⟨filename, lineNo⟩
  if (e.lineIdToAddress.lookup id).isSome then e
  else
    { e with
      lineIdToAddress := (id, address) :: e.lineIdToAddress
      onLine := e.onLine ++ [(host.realPath filename, lineNo, address)] }

def parseFile (e : ScriptEngineBase) (filename : Text) : ScriptEngineBase :=
  (codeLines (host.getLines filename)).foldl (fileLineFound host filename) e

/-- A file is parsed when its first line is executed. -/
def reportFile (e : ScriptEngineBase) (filename : Text) : ScriptEngineBase :=
  if e.reportedFiles.contains filename then e
  else
    parseFile host codeLines
      { e with reportedFiles := e.reportedFiles ++ [filename], onFile := e.onFile ++ [filename] }
      filename

/-- What `m_lineIdToAddress` has for a line, or 0. -/
def address (e : ScriptEngineBase) (ref : LineRef) : U64 :=
  (e.lineIdToAddress.lookup (getLineId host ref)).getD 0

end ScriptEngineBase

/-! ### The engine -/

inductive InputType where
  | normal
  | quote
  | singleQuote
  | multiline
  deriving DecidableEq, Repr

/-- `getInputType`, where `m_inputType` is the first argument. -/
def getInputType : InputType → Text → InputType
  | out, [] => out
  | out, b :: s =>
    if b = backslash ∧ out = .normal then
      match s with
      | [] => out
      | _ :: s => getInputType out s
    else if b = apostrophe then getInputType (if out = .normal then .singleQuote else .normal) s
    else getInputType out s

section InputType

variable {out : InputType} {b : Byte} {s : Text}

theorem getInputType_cons (h : ¬(b = backslash ∧ out = .normal)) : getInputType out (b :: s) =
    if b = apostrophe then getInputType (if out = .normal then .singleQuote else .normal) s
    else getInputType out s := by
  rw [getInputType.eq_def]
  exact if_neg h

theorem getInputType_escaped :
    getInputType .normal (backslash :: b :: s) = getInputType .normal s := by
  rw [getInputType.eq_def]
  exact if_pos ⟨rfl, rfl⟩

theorem getInputType_open :
    getInputType .normal (apostrophe :: s) = getInputType .singleQuote s := by
  rw [getInputType_cons (by decide), if_pos rfl, if_pos rfl]

theorem getInputType_close :
    getInputType .singleQuote (apostrophe :: s) = getInputType .normal s := by
  rw [getInputType_cons (by decide), if_pos rfl, if_neg (by decide)]

end InputType

/-- The engine behind `start`. -/
structure State where
  base : ScriptEngineBase
  /-- What is still to be read from `m_stderr`. -/
  stderr : Text
  inputType : InputType
  /-- The events that the listener has got. -/
  events : List (EngineEvent U64)
  /-- What the engine has printed to its own standard error. -/
  printed : Text

/-- The engine that has not read anything yet, and what the child writes. -/
def begun (base : ScriptEngineBase) (stderr : Text) : State where
  base := base
  stderr := stderr
  inputType := .normal
  events := []
  printed := []

/-- The helper scripts are skipped. -/
def isHelper (filename : Text) : Bool :=
  finds filename (ascii "bash-helper.sh") || finds filename (ascii "bash-helper-debug-trap.sh")

namespace State

variable (host : Host) (codeLines : List Text → List U32)

/-- The line at `ref` has been executed. -/
def report (s : State) (ref : LineRef) : State :=
  let base := s.base.reportFile host codeLines ref.file
  { s with base, events := s.events ++ [⟨.breakpoint, 1, base.address host ref⟩] }

/-- `checkEvents` from the second and third part of a marker on. -/
def reportParts (s : State) (file lineNo : Text) : Bool × State :=
  let filename := host.realPath file
  if isHelper filename then (true, s)
  else if !stringIsIntegerAnyBase lineNo then
    (false, { s with
      printed := s.printed ++ ascii "kcov: error: " ++ lineNo ++ ascii " is not an integer\n" })
  else
    -- a line number is an `unsigned int`
    (true, s.report host codeLines ⟨filename, ((stringToInteger lineNo).getD 0).setWidth 32⟩)

/-- `checkEvents` without the printing of the child's standard output. -/
def checkEvents (s : State) : Bool × State :=
  if s.stderr = [] then (false, s)
  else
    let (curLine, stderr) := getLine s.stderr
    let cur := cString curLine
    let s := { s with stderr }
    if s.inputType = .singleQuote then
      (true, { s with inputType := getInputType s.inputType cur })
    else
      match substrFrom (ascii "kcov@") cur with
      | none => (true, { s with printed := s.printed ++ cur })
      | some marker =>
        let s := { s with inputType := getInputType s.inputType cur }
        match splitString atSign marker with
        | _ :: file :: lineNo :: _ => s.reportParts host codeLines file lineNo
        | _ => (true, s)

/-- `n` calls of `checkEvents`, none of which returns false. -/
def checkEventsTimes : Nat → State → Option State
  | 0, s => some s
  | n + 1, s =>
    match s.checkEvents host codeLines with
    | (true, s) => checkEventsTimes n s
    | (false, _) => none

end State

/-! ### Lines -/

section Lines

variable {s t : Text}

theorem getLine_eq (h : newline ∉ s) : getLine (s ++ newline :: t) = (s ++ [newline], t) := by
  induction s with
  | nil => exact if_pos rfl
  | cons b s ih =>
    rw [List.mem_cons, not_or] at h
    rw [List.cons_append, getLine, if_neg (Ne.symm h.1), ih h.2]
    rfl

theorem getLine_append (h : newline ∉ s) :
    getLine (s ++ t) = (s ++ (getLine t).1, (getLine t).2) := by
  induction s with
  | nil => rfl
  | cons b s ih =>
    rw [List.mem_cons, not_or] at h
    rw [List.cons_append, getLine, if_neg (Ne.symm h.1), ih h.2]
    rfl

theorem cString_append (h : 0 ∉ s) : cString (s ++ t) = s ++ cString t := by
  rw [cString, List.takeWhile_append_of_pos]
  · rfl
  · intro b hb
    simpa using fun hz : b = 0 => h (hz ▸ hb)

end Lines

/-! ### Markers -/

section Markers

variable {n : Nat} {t : Text}

/-- The marker is found behind any number of letters. -/
theorem substrFrom_marker : substrFrom (ascii "kcov@") (List.replicate n 0x6b ++ ascii "kcov@" ++ t) =
    some (ascii "kcov@" ++ t) := by
  induction n with
  | zero =>
    change (ascii "kcov@" ++ t).tails.find? _ = _
    rw [show ascii "kcov@" ++ t = 0x6b :: (ascii "cov@" ++ t) from rfl, List.tails, List.find?_cons]
    rfl
  | succ n ih =>
    have hnot : (ascii "kcov@").isPrefixOf
        (0x6b :: (List.replicate n 0x6b ++ ascii "kcov@" ++ t)) = false := by
      cases n <;> rfl
    rw [substrFrom] at ih ⊢
    rw [List.replicate_succ, List.cons_append, List.cons_append, List.tails, List.find?_cons, hnot]
    exact ih

theorem splitString_marker {file lineNo : Text} (hfile : atSign ∉ file) (hline : atSign ∉ lineNo) :
    splitString atSign (ascii "kcov@" ++ (file ++ atSign :: lineNo ++ atSign :: t)) =
      ascii "kcov" :: file :: lineNo :: splitString atSign t := by
  have hkcov : atSign ∉ ascii "kcov" := by decide
  rw [List.append_assoc, List.cons_append, show ascii "kcov@" = ascii "kcov" ++ [atSign] from rfl,
    List.append_assoc, List.singleton_append, splitString_item hkcov, splitString_item hfile,
    splitString_item hline]

theorem decimal_plain {n : Nat} {b : Byte} (h : b ∈ decimal n) :
    b ≠ atSign ∧ b ≠ apostrophe ∧ b ≠ backslash ∧ b ≠ newline ∧ b ≠ 0 := by
  have hdigit : ∀ b : Byte, 0x30 ≤ b → b ≤ 0x39 →
      b ≠ atSign ∧ b ≠ apostrophe ∧ b ≠ backslash ∧ b ≠ newline ∧ b ≠ 0 := by
    decide
  exact hdigit b (digit_of_mem_decimal h).1 (digit_of_mem_decimal h).2

end Markers

namespace State

variable {host : Host} {codeLines : List Text → List U32} {s : State}

theorem reportParts_decimal {file : Text} {n : Nat} (hscript : isHelper (host.realPath file) = false)
    (hn : n < 2 ^ 64) : s.reportParts host codeLines file (decimal n) =
      (true, s.report host codeLines ⟨host.realPath file, BitVec.ofNat 32 n⟩) := by
  have hwidth : (BitVec.ofNat 64 n).setWidth 32 = BitVec.ofNat 32 n :=
    BitVec.setWidth_ofNat_of_le (by decide) n
  rw [reportParts]
  simp only [hscript, stringIsIntegerAnyBase_decimal hn, stringToInteger_decimal hn, hwidth,
    Bool.not_true, Bool.false_eq_true, if_false, Option.getD_some]

/-- What holds of the characters of `kcov@` and of the two parts holds of the start of a marker. -/
theorem forall_mem_head {p : Byte → Prop} {n : Nat} {file lineNo : Text}
    (hkcov : ∀ b ∈ ascii "kcov@", p b) (hfile : ∀ b ∈ file, p b) (hline : ∀ b ∈ lineNo, p b) :
    ∀ b ∈ List.replicate n 0x6b ++ ascii "kcov@" ++ (file ++ atSign :: lineNo ++ [atSign]), p b := by
  have hat : p atSign := hkcov atSign (by decide)
  intro b hb
  simp only [List.mem_append, List.mem_cons, List.not_mem_nil, or_false, List.mem_replicate] at hb
  rcases hb with (⟨-, rfl⟩ | hb) | (hb | rfl | hb) | rfl
  · exact hkcov 0x6b (by decide)
  · exact hkcov b hb
  · exact hfile b hb
  · exact hat
  · exact hline b hb
  · exact hat

/-- A marker is decoded by its first two parts behind `kcov`. -/
theorem checkEvents_marker {n : Nat} {file lineNo t : Text} (hnormal : s.inputType = .normal)
    (hstderr : s.stderr = List.replicate n 0x6b ++ ascii "kcov@" ++
      (file ++ atSign :: lineNo ++ atSign :: t))
    (hfile : ∀ b ∈ file, b ≠ atSign ∧ b ≠ newline ∧ b ≠ 0)
    (hline : ∀ b ∈ lineNo, b ≠ atSign ∧ b ≠ newline ∧ b ≠ 0) :
    s.checkEvents host codeLines = reportParts host codeLines
      { s with
        stderr := (getLine t).2
        inputType := getInputType .normal (List.replicate n 0x6b ++ ascii "kcov@" ++
          (file ++ atSign :: lineNo ++ atSign :: cString (getLine t).1)) }
      file lineNo := by
  let head := List.replicate n 0x6b ++ ascii "kcov@" ++ (file ++ atSign :: lineNo ++ [atSign])
  have hhead : ∀ b ∈ head, b ≠ newline ∧ b ≠ 0 :=
    forall_mem_head (by decide) (fun b hb => (hfile b hb).2) fun b hb => (hline b hb).2
  have hstream : s.stderr = head ++ t := by
    rw [hstderr]
    simp [head]
  have hne : s.stderr ≠ [] := by
    rw [hstderr]
    simp [ascii]
  have hget : getLine s.stderr = (head ++ (getLine t).1, (getLine t).2) := by
    rw [hstream, getLine_append fun h => (hhead _ h).1 rfl]
  have hcur : cString (head ++ (getLine t).1) = List.replicate n 0x6b ++ ascii "kcov@" ++
      (file ++ atSign :: lineNo ++ atSign :: cString (getLine t).1) := by
    rw [cString_append fun h => (hhead _ h).2 rfl]
    simp [head]
  have hsplit := fun t => splitString_marker (t := t)
    (fun h => (hfile _ h).1 rfl) (fun h => (hline _ h).1 rfl)
  rw [checkEvents, if_neg hne, hget]
  simp only [hcur, hnormal, reduceCtorEq, if_false, substrFrom_marker, hsplit]

end State

end Kcov.Bash
