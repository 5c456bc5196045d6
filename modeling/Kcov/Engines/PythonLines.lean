import Kcov.Lib.Runs
import Kcov.Strings
import Mathlib.Algebra.Group.Nat.Even

/-! The lines of a Python file that the engine takes for code, and whether it keeps track of the
strings that go over several lines. -/

namespace Kcov.Python

open Bytes Search Runs

/-! ### The parser -/

/-- Three single quotes. -/
def singleQuotes : Text := List.replicate 3 singleQuote

/-- Three double quotes. -/
def doubleQuotes : Text := List.replicate 3 doubleQuote

def multilineIdx (s : Text) : Option Nat :=
  match findPos singleQuotes s with
  | some idx => some idx
  | none => findPos doubleQuotes s

def isStringDelimiter (c : Byte) : Bool := c = singleQuote || c = doubleQuote

def isPythonString (s : Text) : Bool :=
  if s.length < 2 then false
  else if !s.head?.any isStringDelimiter then false
  else if !s.getLast?.any isStringDelimiter then false
  else !s.all isStringDelimiter

inductive LineState where
  | start
  | multilineActive
  deriving DecidableEq, Repr

/-- The variables of the loop of `parseFile`, and the numbers of the lines it has found. -/
structure ParseState where
  state : LineState
  multiLineStartLine : Bool
  lineNo : Nat
  found : List Nat
  deriving DecidableEq, Repr

/-- The rules that pass over a trimmed line before the state is looked at. -/
def skipsLine (s : Text) : Bool :=
  s = [] || s.head? = some numberSign || s = ascii "\x7d" || s = ascii "\x7d," || s = ascii "]" ||
    s = ascii "]," || s = ascii "[" || finds s (ascii "else:") || finds s (ascii "finally:") ||
    isPythonString s

namespace ParseState

def fileLineFound (p : ParseState) : ParseState := { p with found := p.found ++ [p.lineNo] }

/-- The body of the loop of `parseFile`. -/
def parseLine (p : ParseState) (line : Text) : ParseState :=
  let s := trimString line
  let p := { p with lineNo := p.lineNo + 1 }
  if skipsLine s then p
  else
    match p.state, multilineIdx s with
    | .start, some idx =>
      if multilineIdx (s.drop (idx + 3)) = none then
        { p with
          state := .multilineActive
          multiLineStartLine := if 0 < idx then true else p.multiLineStartLine }
      else p.fileLineFound
    | .start, none => p.fileLineFound
    | .multilineActive, some _ =>
      if p.multiLineStartLine then
        { p.fileLineFound with state := .start, multiLineStartLine := false }
      else { p with state := .start }
    | .multilineActive, none => p

end ParseState

/-- The loop of `parseFile` over the lines of a file. -/
def parseLines (lines : List Text) : ParseState :=
  lines.foldl ParseState.parseLine
    { state := .start, multiLineStartLine := false, lineNo := 0, found := [] }

/-! ### The strings of a file -/

/-- The triple double quotes in some lines, which do not overlap and are counted from the left. -/
def quoteCount (lines : List Text) : Nat := (lines.map (occurrences doubleQuotes)).sum

/-- After each line the parser is inside a string if and only if the quotes so far leave one
open. -/
def TracksStrings (lines : List Text) : Prop :=
  ∀ pre, pre <+: lines → ((parseLines pre).state = .multilineActive ↔ Odd (quoteCount pre))

/-- A line with an odd number of quotes is not passed over, and has a single one if it comes outside
a string. A line with an even number of them that comes inside a string has none or is passed
over. -/
def KeepsTrack (pre : List Text) (line : Text) : Prop :=
  if Odd (occurrences doubleQuotes line) then
    skipsLine (trimString line) = false ∧
      (Odd (quoteCount pre) ∨ occurrences doubleQuotes line = 1)
  else
    Odd (quoteCount pre) → occurrences doubleQuotes line = 0 ∨ skipsLine (trimString line) = true

section Tracking

variable {s line : Text} {pre lines : List Text}

theorem doubleQuotes_ne_nil : doubleQuotes ≠ [] := by decide

theorem occurrences_trimmed : occurrences doubleQuotes (trimString line) =
    occurrences doubleQuotes line :=
  occurrences_trimString doubleQuotes_ne_nil (by decide)

/-- Without single quotes only the double ones begin a string. -/
theorem multilineIdx_eq (h : ¬singleQuotes <:+: s) : multilineIdx s = findPos doubleQuotes s := by
  rw [multilineIdx, findPos_eq_none.mpr h]

theorem not_infix_trimmed (h : ¬singleQuotes <:+: line) : ¬singleQuotes <:+: trimString line := by
  obtain ⟨front, back, hs, -, -⟩ := trimString_split line
  intro hin
  rw [hs] at h
  exact h (hin.trans ⟨front, back, rfl⟩)

theorem multilineIdx_eq_none (h : ¬singleQuotes <:+: s) :
    multilineIdx s = none ↔ occurrences doubleQuotes s = 0 := by
  rw [multilineIdx_eq h, occurrences_eq_zero doubleQuotes_ne_nil]

/-- Behind the first quotes of a line there are no others if and only if it has one. -/
theorem multilineIdx_rest {idx : Nat} (h : ¬singleQuotes <:+: s) (hidx : multilineIdx s = some idx) :
    multilineIdx (s.drop (idx + 3)) = none ↔ occurrences doubleQuotes s = 1 := by
  have hrest : ¬singleQuotes <:+: s.drop (idx + 3) := fun hin =>
    h (hin.trans (List.drop_suffix _ s).isInfix)
  rw [multilineIdx_eq h] at hidx
  rw [multilineIdx_eq_none hrest, occurrences_of_find doubleQuotes_ne_nil hidx,
    Nat.add_eq_right]
  rfl

/-- The state behind a line, by the state before it and the quotes in the line. -/
theorem parseLine_state (p : ParseState) (h : ¬singleQuotes <:+: line) :
    (p.parseLine line).state =
      if skipsLine (trimString line) then p.state
      else match p.state with
        | .start => if occurrences doubleQuotes line = 1 then .multilineActive else .start
        | .multilineActive =>
          if occurrences doubleQuotes line = 0 then .multilineActive else .start := by
  have htrim := not_infix_trimmed h
  rw [ParseState.parseLine]
  cases hskip : skipsLine (trimString line) with
  | true => rfl
  | false =>
    simp only [Bool.false_eq_true, if_false]
    cases hidx : multilineIdx (trimString line) with
    | none =>
      have hzero := (multilineIdx_eq_none htrim).mp hidx
      rw [occurrences_trimmed] at hzero
      cases hstate : p.state <;> simp [hzero, ParseState.fileLineFound]
    | some idx =>
      have hsome : occurrences doubleQuotes line ≠ 0 := by
        intro hzero
        rw [← occurrences_trimmed, ← multilineIdx_eq_none htrim, hidx] at hzero
        cases hzero
      have hrest := multilineIdx_rest htrim hidx
      rw [occurrences_trimmed] at hrest
      cases hstate : p.state with
      | start =>
        simp only [hrest]
        split <;> rfl
      | multilineActive =>
        simp only [hsome, if_false]
        split <;> rfl

theorem parseLines_snoc : parseLines (pre ++ [line]) = (parseLines pre).parseLine line := by
  rw [parseLines, List.foldl_append]
  rfl

theorem quoteCount_snoc : quoteCount (pre ++ [line]) =
    quoteCount pre + occurrences doubleQuotes line := by
  simp [quoteCount]

/-- Where the parser has kept track of the lines before, it does so behind a line exactly if the
line lets it. -/
theorem tracks_step (h : ¬singleQuotes <:+: line)
    (hpre : (parseLines pre).state = .multilineActive ↔ Odd (quoteCount pre)) :
    ((parseLines (pre ++ [line])).state = .multilineActive ↔ Odd (quoteCount (pre ++ [line]))) ↔
      KeepsTrack pre line := by
  have hodd : ∀ n, n = 1 → Odd n := fun n hn => hn ▸ odd_one
  have heven : ∀ n, n = 0 → ¬Odd n := fun n hn => by simp [hn]
  rw [parseLines_snoc, quoteCount_snoc, parseLine_state _ h, KeepsTrack, Nat.odd_add,
    ← Nat.not_odd_iff_even]
  by_cases hskip : skipsLine (trimString line) = true
  · simp only [hskip, if_true]
    grind
  cases hstate : (parseLines pre).state with
  | start =>
    simp only [hstate, reduceCtorEq, false_iff] at hpre
    simp only [hskip]
    grind
  | multilineActive =>
    simp only [hstate, true_iff] at hpre
    simp only [hskip]
    grind

/-- The parser keeps track of the strings of a file exactly if every line of it lets it. -/
theorem tracksStrings_iff (hsingle : ∀ line ∈ lines, ¬singleQuotes <:+: line) :
    TracksStrings lines ↔ AllSteps KeepsTrack lines := by
  refine forall_prefix_iff (by decide) ?_
  intro pre line hpre htracks
  have hline : line ∈ lines := hpre.subset (by simp)
  exact tracks_step (hsingle line hline) htracks

/-- Two strings over two lines each. -/
theorem tracksStrings_twoStrings :
    TracksStrings [ascii "a = \"\"\"b", ascii "\"\"\"", ascii "c(\"\"\"", ascii "d\"\"\")", []] := by
  refine (tracksStrings_iff (by decide)).mpr (allSteps_iff_getElem.mpr ?_)
  unfold KeepsTrack
  decide

/-- The line that closes the string is passed over as one with an `else:`. -/
theorem not_tracksStrings_else : ¬TracksStrings [ascii "\"\"\"a", ascii "else:\"\"\""] := by
  intro h
  have hlast := h [ascii "\"\"\"a", ascii "else:\"\"\""] (List.prefix_refl _)
  revert hlast
  decide

end Tracking

end Kcov.Python
