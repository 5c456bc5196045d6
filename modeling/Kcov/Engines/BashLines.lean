import Kcov.Engines.Bash
import Kcov.Lib.Runs
import Kcov.Strings

/-! The lines of a bash script that the engine takes for code, and the lines that it passes over as
the rest of the command before. -/

namespace Kcov.Bash

open Bytes Search Runs

/-! ### The parsers -/

def dollar : Byte := 0x24
def leftParenthesis : Byte := 0x28
def rightParenthesis : Byte := 0x29
def hyphen : Byte := 0x2d
def lessThan : Byte := 0x3c
def graveAccent : Byte := 0x60
def rightBrace : Byte := 0x7d

/-- The `#` at position `comment` does not begin a comment: it belongs to `$#` or to a variable in
braces, or it comes behind a quote. -/
def keepsComment (s : Text) (comment : Nat) : Bool :=
  (1 ≤ comment && s[comment - 1]? = some dollar) ||
    (2 ≤ comment && finds (s.take (comment + 2)) (ascii "$\x7b") &&
      (s.drop comment).contains rightBrace) ||
    (1 ≤ comment && ((s.take comment).contains doubleQuote ||
      (s.take comment).contains singleQuote))

/-- A trimmed line without its comment. -/
def removeComment (s : Text) : Text :=
  match findPos [numberSign] s with
  | none => s
  | some comment => if keepsComment s comment then s else (trimString s).take comment

/-- The text of a line that the parsers look at. -/
def lineText (line : Text) : Text := removeComment (trimString line)

/-- `while`, `if` and `switch` endings. -/
def keywords : List Text := ["esac", "fi", "do", "done", "else", "then"].map ascii

def isFunctionKeyword (s : Text) : Bool := decide (ascii "function" <+: s)

/-- The end of the name in front of the parentheses, which may have blanks behind it. -/
def nameEnd (s : Text) : Nat → Nat
  | fnPos + 2 => if s[fnPos + 1]? = some space then nameEnd s (fnPos + 1) else fnPos + 2
  | fnPos => fnPos

/-- `fn() {`, where the name is a single word. -/
def isFunction (s : Text) : Bool :=
  match findPos (ascii "()") s with
  | none => false
  | some fnPos => !(s.take (nameEnd s fnPos)).contains space

/-- The rules of `parseFileFull` that pass over a line before the state is looked at. -/
def skipsLine (s : Text) : Bool :=
  s = [] || decide (ascii ";;" <+: s) || s = ascii "\x7b" || s = ascii "\x7d" || s = ascii "(" ||
    s = ascii ")" || keywords.contains s || isFunctionKeyword s || isFunction s

inductive LineState where
  | none
  | backslash
  | quote
  | heredoc
  deriving DecidableEq, Repr

/-- The variables of the loop of `parseFileFull`, and the numbers of the lines it has found. -/
structure ParseState where
  state : LineState
  caseActive : Bool
  arithmeticActive : Bool
  heredocMarker : Text
  lineNo : Nat
  found : List Nat
  deriving DecidableEq, Repr

def ParseState.start : ParseState where
  state := .none
  caseActive := false
  arithmeticActive := false
  heredocMarker := []
  lineNo := 0
  found := []

def opensArithmetic (s : Text) : Bool := finds s (ascii "$((") || finds s (ascii "$[")

/-- A multi-line string assignment. -/
def opensQuote (s : Text) : Bool :=
  (finds s (ascii "=\"") || finds s (ascii "= \"")) && s.count doubleQuote = 1

/-- A `-` behind `<<` marks the suppression of tabs. -/
def skipHyphen (s : Text) : Text := if s.head? = some hyphen then s.drop 1 else s

def removeQuotes (marker : Text) : Text :=
  if 2 < marker.length ∧ (marker.head? = some doubleQuote ∨ marker.head? = some singleQuote) ∧
      marker.head? = marker.getLast? then
    (marker.drop 1).dropLast
  else marker

/-- The marker of a here document, from the text behind its `<<`: a word without its quotes. -/
def heredocMarkerOf (s : Text) : Text :=
  removeQuotes ((trimString (skipHyphen s)).takeWhile fun b => !isBlank b)

/-- The marker of `<<<` would begin with the third of the characters. -/
def isHeredocMarker (marker : Text) : Bool := marker ≠ [] && marker.head? ≠ some lessThan

/-- The end characters that are cut off the last line of a here document. -/
def heredocEndChars : List Byte := [space, tab, carriageReturn, newline, graveAccent]

namespace ParseState

/-- Where a here document starts in a line. -/
def heredocStart (p : ParseState) (s : Text) : Option Nat :=
  match findPos (ascii "<<") s with
  | none => none
  | some pos =>
    if !p.arithmeticActive && !decide (ascii "let " <+: s) && !finds s (ascii "$((") &&
        !finds s (ascii "))") then some pos
    else none

/-- The label of a `case` switch; functions have balanced parentheses. -/
def isCaseLabel (p : ParseState) (s : Text) : Bool :=
  p.caseActive && s.getLast? = some rightParenthesis &&
    (findPos [leftParenthesis] s).all (· = 0)

/-- What a command leaves of the `case` statements and of the arithmetic around it. -/
def closeCommand (p : ParseState) (s : Text) : ParseState :=
  { p with
    caseActive :=
      if ascii "case" <+: s then true
      else if ascii "esac" <+: s then false
      else p.caseActive
    arithmeticActive :=
      if finds s (ascii "))") || finds s (ascii "]") then false else p.arithmeticActive }

/-- The last part of the loop, from the `case` statements on. -/
def reportCommand (p : ParseState) (s : Text) : ParseState :=
  let p := p.closeCommand s
  if p.arithmeticActive then p
  else if p.isCaseLabel s then p
  else { p with found := p.found ++ [p.lineNo] }

def openCommand (p : ParseState) (s : Text) : ParseState :=
  { p with arithmeticActive := p.arithmeticActive || opensArithmetic s }

/-- The part of the loop behind the states. -/
def parseCommand (p : ParseState) (s : Text) : ParseState :=
  let p := p.openCommand s
  if s.getLast? = some backslash then { p with state := .backslash }.reportCommand s
  else if opensQuote s then { p with state := .quote }
  else
    match p.heredocStart s with
    | none => p.reportCommand s
    | some pos =>
      let marker := heredocMarkerOf (s.drop (pos + 2))
      let p := { p with
        heredocMarker := marker
        state := if isHeredocMarker marker then .heredoc else p.state }
      if trimString (s.take pos) = ascii "done" then p else p.reportCommand s

/-- The body of the loop of `parseFileFull`, for the text of a line. -/
def parseText (p : ParseState) (s : Text) : ParseState :=
  let p := { p with lineNo := p.lineNo + 1 }
  if skipsLine s then p
  else
    match p.state with
    | .backslash =>
      if s.getLast? ≠ some backslash then { p with state := .none } else p
    | .quote =>
      -- the line that ends the string is a command of its own
      if findPos [doubleQuote] s = some (s.length - 1) then { p with state := .none }.parseCommand s
      else p
    | .heredoc =>
      if trimStringOf heredocEndChars s = p.heredocMarker then { p with state := .none } else p
    | .none => p.parseCommand s

def parseLine (p : ParseState) (line : Text) : ParseState := p.parseText (lineText line)

end ParseState

def parseFileFull (lines : List Text) : ParseState :=
  lines.foldl ParseState.parseLine .start

/-- The rules of `parseFileBasic`. -/
def skipsLineBasic (s : Text) : Bool :=
  s = [] || keywords.contains s || s = ascii "\x7d" || s = ascii "\x7b" || s = ascii ")" ||
    s = ascii "(" || isFunctionKeyword s

/-- The body of the loop of `parseFileBasic`, with the numbers of the lines it has found and of the
last line. -/
def parseTextBasic (p : List Nat × Nat) (s : Text) : List Nat × Nat :=
  let lineNo := p.2 + 1
  (if skipsLineBasic s then p.1 else p.1 ++ [lineNo], lineNo)

def parseFileBasic (lines : List Text) : List Nat × Nat :=
  lines.foldl (fun p line => parseTextBasic p (lineText line)) ([], 0)

/-- Which lines of a file are code; the parsers count lines in an `unsigned int`. -/
def codeLines (useBasicParser : Bool) (lines : List Text) : List U32 :=
  (if useBasicParser then (parseFileBasic lines).1 else (parseFileFull lines).found).map
    (BitVec.ofNat 32)

theorem parseFileFull_append (pre lines : List Text) :
    parseFileFull (pre ++ lines) = lines.foldl ParseState.parseLine (parseFileFull pre) := by
  rw [parseFileFull, List.foldl_append]
  rfl

theorem parseFileFull_snoc (lines : List Text) (line : Text) :
    parseFileFull (lines ++ [line]) = (parseFileFull lines).parseLine line :=
  parseFileFull_append lines [line]

theorem parseFileBasic_append (pre lines : List Text) : parseFileBasic (pre ++ lines) =
    lines.foldl (fun p line => parseTextBasic p (lineText line)) (parseFileBasic pre) := by
  rw [parseFileBasic, List.foldl_append]
  rfl

theorem parseFileBasic_snoc (lines : List Text) (line : Text) :
    parseFileBasic (lines ++ [line]) = parseTextBasic (parseFileBasic lines) (lineText line) :=
  parseFileBasic_append lines [line]

/-! ### Lines found -/

namespace ParseState

variable {p : ParseState} {s : Text}

theorem reportCommand_lineNo : (p.reportCommand s).lineNo = p.lineNo := by
  unfold reportCommand
  dsimp only
  split_ifs <;> rfl

theorem reportCommand_found : (p.reportCommand s).found = p.found ∨
    (p.reportCommand s).found = p.found ++ [p.lineNo] := by
  unfold reportCommand
  dsimp only
  split_ifs
  · exact Or.inl rfl
  · exact Or.inl rfl
  · exact Or.inr rfl

theorem parseCommand_lineNo : (p.parseCommand s).lineNo = p.lineNo := by
  unfold parseCommand
  dsimp only
  split_ifs
  · exact reportCommand_lineNo
  · rfl
  split
  · exact reportCommand_lineNo
  next pos _ =>
    by_cases hdone : trimString (s.take pos) = ascii "done"
    · rw [if_pos hdone]
      rfl
    · rw [if_neg hdone]
      exact reportCommand_lineNo

theorem parseCommand_found : (p.parseCommand s).found = p.found ∨
    (p.parseCommand s).found = p.found ++ [p.lineNo] := by
  unfold parseCommand
  dsimp only
  split_ifs
  · exact reportCommand_found
  · exact Or.inl rfl
  split
  · exact reportCommand_found
  next pos _ =>
    by_cases hdone : trimString (s.take pos) = ascii "done"
    · rw [if_pos hdone]
      exact Or.inl rfl
    · rw [if_neg hdone]
      exact reportCommand_found

theorem parseText_lineNo : (p.parseText s).lineNo = p.lineNo + 1 := by
  unfold parseText
  dsimp only
  split
  · rfl
  split
  · split_ifs <;> rfl
  · split_ifs
    · exact parseCommand_lineNo
    · rfl
  · split_ifs <;> rfl
  · exact parseCommand_lineNo

theorem parseText_found : (p.parseText s).found = p.found ∨
    (p.parseText s).found = p.found ++ [p.lineNo + 1] := by
  unfold parseText
  dsimp only
  split
  · exact Or.inl rfl
  split
  · left
    split_ifs <;> rfl
  · split_ifs
    · exact parseCommand_found
    · exact Or.inl rfl
  · left
    split_ifs <;> rfl
  · exact parseCommand_found

/-- The lines found so far have been read. -/
def FoundRead (p : ParseState) : Prop := ∀ n ∈ p.found, n ≤ p.lineNo

theorem FoundRead.parseText (h : p.FoundRead) : (p.parseText s).FoundRead := by
  intro n hn
  rw [parseText_lineNo]
  rcases parseText_found (p := p) (s := s) with hfound | hfound
  · rw [hfound] at hn
    exact (h n hn).trans (Nat.le_succ _)
  · rw [hfound, List.mem_append, List.mem_singleton] at hn
    rcases hn with hn | rfl
    · exact (h n hn).trans (Nat.le_succ _)
    · exact le_rfl

theorem FoundRead.succ_notMem (h : p.FoundRead) : p.lineNo + 1 ∉ p.found := fun hmem =>
  absurd (h _ hmem) (by omega)

theorem foundRead_parseFileFull (lines : List Text) : (parseFileFull lines).FoundRead := by
  induction lines using List.reverseRecOn with
  | nil => simp [FoundRead, parseFileFull, ParseState.start]
  | append_singleton lines line ih =>
    rw [parseFileFull_snoc]
    exact ih.parseText

end ParseState

theorem parseFileBasic_le (lines : List Text) :
    ∀ n ∈ (parseFileBasic lines).1, n ≤ (parseFileBasic lines).2 := by
  induction lines using List.reverseRecOn with
  | nil => simp [parseFileBasic]
  | append_singleton lines line ih =>
    have hle : ∀ n ∈ (parseFileBasic lines).1, n ≤ (parseFileBasic lines).2 + 1 := fun n hn =>
      (ih n hn).trans (Nat.le_succ _)
    rw [parseFileBasic_snoc, parseTextBasic]
    dsimp only
    split
    · exact hle
    · simpa [or_imp, forall_and] using hle

/-- The next line is code to `parseFileBasic` exactly if its rules do not pass over it. -/
theorem mem_parseFileBasic (pre : List Text) (line : Text) :
    (parseFileBasic pre).2 + 1 ∈ (parseFileBasic (pre ++ [line])).1 ↔
      skipsLineBasic (lineText line) = false := by
  have hnew : (parseFileBasic pre).2 + 1 ∉ (parseFileBasic pre).1 := fun hmem =>
    absurd (parseFileBasic_le pre _ hmem) (by omega)
  rw [parseFileBasic_snoc, parseTextBasic]
  cases skipsLineBasic (lineText line) <;> simp [hnew]

/-! ### Lines that are continued -/

/-- A line whose text ends with a backslash. -/
def EndsInBackslash (line : Text) : Prop := (lineText line).getLast? = some backslash

/-- `line` is passed over because of the state that the lines before have left. -/
def IsSwallowed (pre : List Text) (line : Text) : Prop :=
  (parseFileFull pre).state = .backslash ∧ skipsLine (lineText line) = false

/-- The lines that are passed over because of a backslash come behind a line that ends with one. -/
def SwallowsContinuations (lines : List Text) : Prop :=
  AllSteps (fun pre line => IsSwallowed pre line → ∃ last ∈ pre.getLast?, EndsInBackslash last) lines

/-- A line that ends a command without being looked at: the parser is behind a backslash, an early
rule passes over the line, and it does not end with a backslash. -/
def EndsUnseen (pre : List Text) (line : Text) : Prop :=
  (parseFileFull pre).state = .backslash ∧ skipsLine (lineText line) = true ∧ ¬EndsInBackslash line

section Continuations

namespace ParseState

variable {p : ParseState} {s line : Text}

@[simp] theorem reportCommand_state : (p.reportCommand s).state = p.state := by
  unfold reportCommand
  dsimp only
  split_ifs <;> rfl

@[simp] theorem reportCommand_heredocMarker :
    (p.reportCommand s).heredocMarker = p.heredocMarker := by
  unfold reportCommand
  dsimp only
  split_ifs <;> rfl

/-- The marker of the here document that a command opens. -/
def opensHeredoc (p : ParseState) (s : Text) : Option Text :=
  match (p.openCommand s).heredocStart s with
  | none => none
  | some pos =>
    if isHeredocMarker (heredocMarkerOf (s.drop (pos + 2))) then
      some (heredocMarkerOf (s.drop (pos + 2)))
    else none

/-- The state behind a command. -/
theorem parseCommand_state : (p.parseCommand s).state =
    if s.getLast? = some backslash then .backslash
    else if opensQuote s then .quote
    else if (p.opensHeredoc s).isSome then .heredoc
    else p.state := by
  rw [parseCommand, opensHeredoc]
  dsimp only
  split
  · rw [reportCommand_state]
  split
  · rfl
  cases (p.openCommand s).heredocStart s with
  | none => exact reportCommand_state
  | some pos =>
    dsimp only
    rw [apply_ite state, reportCommand_state, ite_self]
    by_cases hmarker : isHeredocMarker (heredocMarkerOf (s.drop (pos + 2))) = true
    · simp only [hmarker, if_true, Option.isSome_some]
    · simp only [hmarker, Bool.false_eq_true, if_false, Option.isSome_none]
      rfl

/-- Only a line that ends with a backslash is continued. -/
theorem getLast?_of_parseCommand (hnone : p.state = .none)
    (h : (p.parseCommand s).state = .backslash) : s.getLast? = some backslash := by
  by_contra hlast
  rw [parseCommand_state, if_neg hlast, hnone] at h
  split_ifs at h

theorem parseLine_skipped (h : skipsLine (lineText line) = true) :
    p.parseLine line = { p with lineNo := p.lineNo + 1 } := if_pos h

/-- Behind a line the parser expects a continuation only if the line ends with a backslash, or if
it has been passed over. -/
theorem parseLine_backslash (h : (p.parseLine line).state = .backslash) :
    EndsInBackslash line ∨ skipsLine (lineText line) = true ∧ p.state = .backslash := by
  cases hskip : skipsLine (lineText line) with
  | true =>
    rw [parseLine_skipped hskip] at h
    exact Or.inr ⟨rfl, h⟩
  | false =>
    left
    rw [EndsInBackslash]
    rw [parseLine, parseText] at h
    simp only [hskip, Bool.false_eq_true, if_false] at h
    cases hstate : p.state with
    | none =>
      simp only [hstate] at h
      exact getLast?_of_parseCommand rfl h
    | backslash =>
      simp only [hstate] at h
      by_contra hlast
      rw [if_pos hlast] at h
      cases h
    | quote =>
      simp only [hstate] at h
      split at h
      · exact getLast?_of_parseCommand rfl h
      · cases h
    | heredoc =>
      simp only [hstate] at h
      split at h <;> cases h

end ParseState

/-- Only continuations are passed over exactly if every line that has ended a command unseen comes
before one that an early rule passes over as well. -/
theorem swallowsContinuations_iff (lines : List Text) : SwallowsContinuations lines ↔
    AllSteps (fun pre line => ∀ before last, pre = before ++ [last] → EndsUnseen before last →
      skipsLine (lineText line) = true) lines := by
  refine forall_congr' fun pre => forall_congr' fun line => imp_congr_right fun _ => ?_
  constructor
  · rintro h before last rfl ⟨hstate, hskip, hends⟩
    have hkept : (parseFileFull (before ++ [last])).state = .backslash := by
      rw [parseFileFull_snoc, ParseState.parseLine_skipped hskip]
      exact hstate
    by_contra hline
    obtain ⟨l, hl, hlends⟩ := h ⟨hkept, Bool.eq_false_iff.mpr hline⟩
    rw [List.getLast?_concat] at hl
    exact hends (Option.mem_some_iff.mp hl ▸ hlends)
  · rintro h ⟨hstate, hline⟩
    cases pre using List.reverseRecOn with
    | nil => cases hstate
    | append_singleton before last =>
      refine ⟨last, by simp, ?_⟩
      by_contra hends
      rw [parseFileFull_snoc] at hstate
      have hunseen := (ParseState.parseLine_backslash hstate).resolve_left hends
      have hskip := h before last rfl ⟨hunseen.2, hunseen.1, hends⟩
      rw [hline] at hskip
      cases hskip

/-- An empty line ends the command, and the command behind it is passed over. -/
theorem not_swallowsContinuations_empty :
    ¬SwallowsContinuations [ascii "a \\", [], ascii "b"] := by
  intro h
  obtain ⟨last, hlast, hends⟩ :=
    h [ascii "a \\", []] (ascii "b") (List.prefix_refl _) (by unfold IsSwallowed; decide)
  cases hlast
  revert hends
  unfold EndsInBackslash
  decide

end Continuations

end Kcov.Bash
