import Kcov.Engines.BashComments
import Kcov.Engines.PythonLines

/-! Files that are saved with carriage returns at the ends of their lines, wholly or in part, and
which lines of them are code. -/

namespace Kcov

open Bytes Search Runs

/-- A line, and whether it is saved with a carriage return. -/
structure SavedLine where
  text : Text
  endsInReturn : Bool
  deriving DecidableEq, Repr

namespace SavedLine

/-- What `getline` leaves of the line. -/
def saved (l : SavedLine) : Text :=
  if l.endsInReturn then l.text ++ [carriageReturn] else l.text

/-- The text of a line has neither of the characters that end lines. -/
structure IsPlain (l : SavedLine) : Prop where
  lineFeed : lineFeed ∉ l.text
  carriageReturn : carriageReturn ∉ l.text

instance : DecidablePred IsPlain := fun l =>
  decidable_of_iff (¬l.text.contains lineFeed = true ∧ ¬l.text.contains carriageReturn = true)
    ⟨fun h => ⟨mt List.contains_iff_mem.mpr h.1, mt List.contains_iff_mem.mpr h.2⟩,
      fun h => ⟨mt List.contains_iff_mem.mp h.lineFeed,
        mt List.contains_iff_mem.mp h.carriageReturn⟩⟩

/-- A line of blanks and tabs, or nothing, is saved with a carriage return. -/
def IsBlankReturn (l : SavedLine) : Prop :=
  l.endsInReturn = true ∧ ∀ b ∈ l.text, isBlank b = true

instance : DecidablePred IsBlankReturn := fun _ => inferInstanceAs (Decidable (_ ∧ _))

section Trimmed

variable {l : SavedLine}

theorem IsBlankReturn.trimString_saved (h : l.IsBlankReturn) :
    trimString l.saved = [Kcov.carriageReturn] := by
  have hall : ∀ b ∈ l.text ++ [Kcov.carriageReturn], b ∈ whiteSpace := by
    intro b hb
    rcases List.mem_append.mp hb with hb | hb
    · exact isBlank_mem (h.2 b hb)
    · rw [List.mem_singleton.mp hb]
      decide
  have hblank : l.text.dropWhile isBlank = [] := List.dropWhile_eq_nil_iff.mpr h.2
  rw [saved, if_pos h.1, trimString, trimStringOf_all hall, List.dropWhile_append, hblank]
  rfl

theorem IsBlankReturn.trimString_text (h : l.IsBlankReturn) : trimString l.text = [] :=
  Bash.trimString_blanks h.2

/-- Behind any other text the carriage return is cut off. -/
theorem trimString_saved (hplain : l.IsPlain) (h : ¬l.IsBlankReturn) :
    trimString l.saved = trimString l.text := by
  rw [saved]
  split
  next hreturn =>
    apply trimStringOf_padded (fun _ => isBlank_mem) (by decide)
    intro hall
    refine h ⟨hreturn, fun b hb => ?_⟩
    have hb' := hall b hb
    simp only [whiteSpace, List.mem_cons, List.not_mem_nil, or_false] at hb'
    rcases hb' with rfl | rfl | rfl | rfl
    · rfl
    · rfl
    · exact absurd hb hplain.lineFeed
    · exact absurd hb hplain.carriageReturn
  next => rfl

end Trimmed

end SavedLine

/-! ### Python -/

namespace Python

namespace ParseState

/-- The same state with other lines in front of those it has found. -/
def after (p : ParseState) (found : List Nat) : ParseState := { p with found := found ++ p.found }

/-- Without the lines it has found. -/
def bare (p : ParseState) : ParseState := { p with found := [] }

variable {p q : ParseState} {line line' : Text}

theorem bare_after (p : ParseState) : p.bare.after p.found = p := by
  rw [bare, after, List.append_nil]

theorem parseLine_after (p : ParseState) (found : List Nat) (line : Text) :
    (p.after found).parseLine line = (p.parseLine line).after found := by
  obtain ⟨state, startLine, lineNo, before⟩ := p
  rw [parseLine, parseLine]
  cases skipsLine (trimString line) with
  | true => rfl
  | false =>
    cases state with
    | start =>
      cases multilineIdx (trimString line) with
      | none => simp [after, fileLineFound]
      | some idx =>
        by_cases hends : multilineIdx ((trimString line).drop (idx + 3)) = none
        · simp [after, hends]
        · simp [after, fileLineFound, hends]
    | multilineActive =>
      cases multilineIdx (trimString line) with
      | none => rfl
      | some idx => cases startLine <;> simp [after, fileLineFound]

/-- The rest of the state does not depend on the lines that have been found. -/
theorem parseLine_eq (p : ParseState) (line : Text) :
    p.parseLine line = (p.bare.parseLine line).after p.found := by
  rw [← parseLine_after, bare_after]

theorem parseLine_congr (h : trimString line = trimString line') :
    p.parseLine line = p.parseLine line' := by
  rw [parseLine, parseLine, h]

theorem bare_parseLine (h : p.bare = q.bare) (line : Text) :
    (p.parseLine line).bare = (q.parseLine line).bare := by
  rw [parseLine_eq p, parseLine_eq q, h]
  rfl

theorem parseLine_empty (h : trimString line = []) :
    p.parseLine line = { p with lineNo := p.lineNo + 1 } := by
  rw [parseLine, h]
  rfl

/-- A carriage return is a line like others that are not passed over. -/
theorem parseLine_return (h : trimString line = [carriageReturn]) :
    p.parseLine line = { p with
      lineNo := p.lineNo + 1
      found := if p.state = .start then p.found ++ [p.lineNo + 1] else p.found } := by
  have hskip : skipsLine [carriageReturn] = false := by
    decide
  have hidx : multilineIdx [carriageReturn] = none := by
    decide
  rw [parseLine, h, hskip, hidx]
  cases hstate : p.state <;> rfl

theorem parseLine_lineNo (p : ParseState) (line : Text) :
    (p.parseLine line).lineNo = p.lineNo + 1 := by
  unfold parseLine fileLineFound
  dsimp only
  split
  · rfl
  · split
    all_goals first | rfl | (split <;> rfl)

theorem parseLine_found (p : ParseState) (line : Text) :
    (p.parseLine line).found = p.found ∨ (p.parseLine line).found = p.found ++ [p.lineNo + 1] := by
  unfold parseLine fileLineFound
  dsimp only
  split
  · exact Or.inl rfl
  · split
    · split
      · exact Or.inl rfl
      · exact Or.inr rfl
    · exact Or.inr rfl
    · split
      · exact Or.inr rfl
      · exact Or.inl rfl
    · exact Or.inl rfl

end ParseState

section Files

variable {file : List SavedLine}

theorem parseLines_lineNo (lines : List Text) : (parseLines lines).lineNo = lines.length := by
  induction lines using List.reverseRecOn with
  | nil => rfl
  | append_singleton lines line ih =>
    rw [parseLines_snoc, ParseState.parseLine_lineNo, ih, List.length_append, List.length_singleton]

theorem notes_parseLines (f : SavedLine → Text) :
    Notes fun file => (parseLines (file.map f)).found := by
  refine ⟨rfl, fun pre l => ?_⟩
  rw [List.map_append, List.map_singleton, parseLines_snoc, ← List.length_map f,
    ← parseLines_lineNo]
  exact ParseState.parseLine_found _ _

/-- The carriage returns only make a difference to what is found. -/
theorem bare_parseLines (hplain : ∀ l ∈ file, l.IsPlain) :
    (parseLines (file.map (·.saved))).bare = (parseLines (file.map (·.text))).bare := by
  induction file using List.reverseRecOn with
  | nil => rfl
  | append_singleton pre l ih =>
    have hpre := ih fun l hl => hplain l (List.mem_append_left _ hl)
    rw [List.map_append, List.map_append, List.map_singleton, List.map_singleton, parseLines_snoc,
      parseLines_snoc]
    by_cases hblank : l.IsBlankReturn
    · have hlineNo := congrArg ParseState.lineNo hpre
      rw [ParseState.parseLine_return hblank.trimString_saved,
        ParseState.parseLine_empty hblank.trimString_text]
      simp only [ParseState.bare, ParseState.mk.injEq, and_true] at hpre ⊢
      exact ⟨hpre.1, hpre.2.1, congrArg (· + 1) hpre.2.2⟩
    · rw [ParseState.parseLine_congr (l.trimString_saved (hplain l (by simp)) hblank)]
      exact ParseState.bare_parseLine hpre _

/-- The same lines are found exactly if every blank line that is saved with a carriage return comes
inside a string. -/
theorem parseLines_same_iff (hplain : ∀ l ∈ file, l.IsPlain) :
    (∀ n, n ∈ (parseLines (file.map (·.saved))).found ↔
      n ∈ (parseLines (file.map (·.text))).found) ↔
    AllSteps (fun pre l => l.IsBlankReturn →
      (parseLines (pre.map (·.text))).state = .multilineActive) file := by
  rw [(notes_parseLines (·.saved)).same_iff (notes_parseLines (·.text))]
  refine forall_congr' fun pre => forall_congr' fun l => forall_congr' fun hpre => ?_
  have hbefore : ∀ l ∈ pre, l.IsPlain := fun l hl =>
    hplain l (hpre.subset (List.mem_append_left _ hl))
  have hbare := bare_parseLines hbefore
  have hnew : ∀ f : SavedLine → Text, pre.length + 1 ∉ (parseLines (pre.map f)).found :=
    fun f hmem => absurd ((notes_parseLines f).le pre _ hmem) (by omega)
  simp only [List.map_append, List.map_singleton, parseLines_snoc]
  by_cases hblank : l.IsBlankReturn
  · have hbareState := congrArg ParseState.state hbare
    have hstate : (parseLines (pre.map (·.saved))).state = (parseLines (pre.map (·.text))).state :=
      hbareState
    rw [ParseState.parseLine_return hblank.trimString_saved,
      ParseState.parseLine_empty hblank.trimString_text, parseLines_lineNo, hstate, List.length_map]
    cases (parseLines (pre.map (·.text))).state <;> simp [hnew, hblank]
  · rw [ParseState.parseLine_congr (l.trimString_saved (hplain l (hpre.subset (by simp))) hblank),
      ParseState.parseLine_eq, ParseState.parseLine_eq (parseLines (pre.map (·.text))), hbare]
    simp [ParseState.after, hnew, hblank]

end Files

end Python

/-! ### Bash -/

namespace Bash

theorem lineText_saved {l : SavedLine} (hplain : l.IsPlain) (h : ¬l.IsBlankReturn) :
    lineText l.saved = lineText l.text := by
  rw [lineText, lineText, l.trimString_saved hplain h]

theorem lineText_blankReturn {l : SavedLine} (h : l.IsBlankReturn) :
    lineText l.saved = [carriageReturn] := by
  rw [lineText, h.trimString_saved]
  decide

theorem lineText_blank {l : SavedLine} (h : l.IsBlankReturn) : lineText l.text = [] := by
  rw [lineText, h.trimString_text]
  rfl

namespace ParseState

/-- The same state with other lines in front of those it has found. -/
def after (p : ParseState) (found : List Nat) : ParseState := { p with found := found ++ p.found }

/-- Without the lines it has found. -/
def bare (p : ParseState) : ParseState := { p with found := [] }

variable {p q : ParseState} {s : Text}

theorem bare_after (p : ParseState) : p.bare.after p.found = p := by
  rw [bare, after, List.append_nil]

theorem reportCommand_after (p : ParseState) (found : List Nat) (s : Text) :
    (p.after found).reportCommand s = (p.reportCommand s).after found := by
  have hlabel : ((p.after found).closeCommand s).isCaseLabel s = (p.closeCommand s).isCaseLabel s :=
    rfl
  have harithmetic : ((p.after found).closeCommand s).arithmeticActive =
      (p.closeCommand s).arithmeticActive := rfl
  rw [reportCommand, reportCommand, harithmetic, hlabel]
  split
  · rfl
  split
  · rfl
  · simp [after, closeCommand]

theorem parseCommand_after (p : ParseState) (found : List Nat) (s : Text) :
    (p.after found).parseCommand s = (p.parseCommand s).after found := by
  have hopen : (p.after found).openCommand s = (p.openCommand s).after found := rfl
  have hstart : ((p.openCommand s).after found).heredocStart s = (p.openCommand s).heredocStart s :=
    rfl
  rw [parseCommand, parseCommand, hopen]
  dsimp only
  rw [hstart]
  split
  · exact reportCommand_after { p.openCommand s with state := .backslash } found s
  split
  · rfl
  cases (p.openCommand s).heredocStart s with
  | none => exact reportCommand_after (p.openCommand s) found s
  | some pos =>
    dsimp only
    split
    · rfl
    · exact reportCommand_after { p.openCommand s with
        heredocMarker := heredocMarkerOf (s.drop (pos + 2))
        state := if isHeredocMarker (heredocMarkerOf (s.drop (pos + 2))) = true then .heredoc
          else (p.openCommand s).state } found s

theorem parseText_after (p : ParseState) (found : List Nat) (s : Text) :
    (p.after found).parseText s = (p.parseText s).after found := by
  obtain ⟨state, caseActive, arithmeticActive, marker, lineNo, before⟩ := p
  rw [parseText, parseText]
  dsimp only [after]
  split
  · rfl
  cases state with
  | none => exact parseCommand_after ⟨.none, caseActive, arithmeticActive, marker, _, before⟩ found s
  | backslash =>
    dsimp only
    split <;> rfl
  | quote =>
    dsimp only
    split
    · exact parseCommand_after ⟨.none, caseActive, arithmeticActive, marker, _, before⟩ found s
    · rfl
  | heredoc => by_cases hend : trimStringOf heredocEndChars s = marker <;> simp [hend]

/-- The rest of the state does not depend on the lines that have been found. -/
theorem parseText_eq (p : ParseState) (s : Text) :
    p.parseText s = (p.bare.parseText s).after p.found := by
  rw [← parseText_after, bare_after]

theorem bare_parseText (h : p.bare = q.bare) (s : Text) :
    (p.parseText s).bare = (q.parseText s).bare := by
  rw [parseText_eq p, parseText_eq q, h]
  rfl

/-- A carriage return is a line like others that are not passed over: it ends a command that goes
on behind a backslash, and else it is code where no arithmetic is active. -/
theorem parseText_return (hmarker : p.heredocMarker ≠ [carriageReturn]) :
    p.parseText [carriageReturn] = { p with
      state := if p.state = .backslash then .none else p.state
      lineNo := p.lineNo + 1
      found := if p.state = .none ∧ p.arithmeticActive = false then p.found ++ [p.lineNo + 1]
        else p.found } := by
  obtain ⟨state, caseActive, arithmeticActive, marker, lineNo, before⟩ := p
  have hskip : skipsLine [carriageReturn] = false := by
    decide
  have hquote : findPos [doubleQuote] [carriageReturn] ≠ some 0 := by
    decide
  have hend : trimStringOf heredocEndChars [carriageReturn] = [carriageReturn] := by
    decide
  rw [parseText, hskip]
  cases state with
  | none => cases caseActive <;> cases arithmeticActive <;> rfl
  | backslash => rfl
  | quote =>
    show (if _ then _ else _) = _
    rw [List.length_singleton, if_neg hquote]
    rfl
  | heredoc =>
    dsimp only
    rw [hend]
    exact if_neg (Ne.symm hmarker)

theorem parseText_empty (p : ParseState) : p.parseText [] = { p with lineNo := p.lineNo + 1 } := rfl

theorem mem_heredocMarkerOf {b : Byte} (h : b ∈ heredocMarkerOf s) : b ∈ s := by
  have hquotes : ∀ marker, b ∈ removeQuotes marker → b ∈ marker := by
    intro marker hb
    rw [removeQuotes] at hb
    split at hb
    · exact List.mem_of_mem_drop (List.mem_of_mem_dropLast hb)
    · exact hb
  have hword := (List.takeWhile_sublist _).subset (hquotes _ h)
  have htrimmed := mem_of_mem_trimString hword
  rw [skipHyphen] at htrimmed
  split at htrimmed
  · exact List.mem_of_mem_drop htrimmed
  · exact htrimmed

theorem parseCommand_marker (p : ParseState) (s : Text) :
    (p.parseCommand s).heredocMarker = p.heredocMarker ∨
      ∃ n, (p.parseCommand s).heredocMarker = heredocMarkerOf (s.drop n) := by
  rw [parseCommand]
  dsimp only
  split
  · exact Or.inl reportCommand_heredocMarker
  split
  · exact Or.inl rfl
  cases (p.openCommand s).heredocStart s with
  | none => exact Or.inl reportCommand_heredocMarker
  | some pos =>
    right
    refine ⟨pos + 2, ?_⟩
    dsimp only
    rw [apply_ite heredocMarker, reportCommand_heredocMarker, ite_self]

theorem parseText_marker (p : ParseState) (s : Text) :
    (p.parseText s).heredocMarker = p.heredocMarker ∨
      ∃ n, (p.parseText s).heredocMarker = heredocMarkerOf (s.drop n) := by
  rw [parseText]
  dsimp only
  split
  · exact Or.inl rfl
  split
  · left
    split <;> rfl
  · split
    · exact parseCommand_marker { p with lineNo := p.lineNo + 1, state := .none } s
    · exact Or.inl rfl
  · left
    split <;> rfl
  · exact parseCommand_marker { p with lineNo := p.lineNo + 1 } s

end ParseState

theorem mem_of_mem_lineText {line : Text} {b : Byte} (h : b ∈ lineText line) : b ∈ line := by
  rw [lineText, removeComment] at h
  split at h
  · exact mem_of_mem_trimString h
  · split at h
    · exact mem_of_mem_trimString h
    · exact mem_of_mem_trimString (mem_of_mem_trimString (List.mem_of_mem_take h))

section Files

variable {file : List SavedLine}

theorem parseFileFull_lineNo (lines : List Text) : (parseFileFull lines).lineNo = lines.length := by
  induction lines using List.reverseRecOn with
  | nil => rfl
  | append_singleton lines line ih =>
    rw [parseFileFull_snoc, ParseState.parseLine, ParseState.parseText_lineNo, ih,
      List.length_append, List.length_singleton]

theorem notes_parseFileFull (f : SavedLine → Text) :
    Notes fun file => (parseFileFull (file.map f)).found := by
  refine ⟨rfl, fun pre l => ?_⟩
  rw [List.map_append, List.map_singleton, parseFileFull_snoc, ← List.length_map f,
    ← parseFileFull_lineNo]
  exact ParseState.parseText_found

/-- A marker has no carriage return in it. -/
theorem marker_parseFileFull (hplain : ∀ l ∈ file, l.IsPlain) :
    carriageReturn ∉ (parseFileFull (file.map (·.saved))).heredocMarker := by
  induction file using List.reverseRecOn with
  | nil => simp [parseFileFull, ParseState.start]
  | append_singleton pre l ih =>
    have hpre := ih fun l hl => hplain l (List.mem_append_left _ hl)
    rw [List.map_append, List.map_singleton, parseFileFull_snoc, ParseState.parseLine]
    by_cases hblank : l.IsBlankReturn
    · rw [lineText_blankReturn hblank, ParseState.parseText_return]
      · exact hpre
      · intro hmarker
        exact hpre (hmarker ▸ List.mem_singleton_self _)
    · have hl := hplain l (by simp)
      rw [lineText_saved hl hblank]
      rcases ParseState.parseText_marker (parseFileFull (pre.map (·.saved))) (lineText l.text) with
        hsame | ⟨n, hnew⟩
      · rwa [hsame]
      · rw [hnew]
        intro hmem
        exact hl.carriageReturn
          (mem_of_mem_lineText (List.mem_of_mem_drop (ParseState.mem_heredocMarkerOf hmem)))

/-- The carriage returns only make a difference to what is found, if none of them is the end of a
command that goes on behind a backslash. -/
theorem bare_parseFileFull (hplain : ∀ l ∈ file, l.IsPlain)
    (hback : AllSteps (fun pre l => l.IsBlankReturn →
      (parseFileFull (pre.map (·.text))).state ≠ .backslash) file) :
    (parseFileFull (file.map (·.saved))).bare = (parseFileFull (file.map (·.text))).bare := by
  induction file using List.reverseRecOn with
  | nil => rfl
  | append_singleton pre l ih =>
    obtain ⟨hback, hlast⟩ := allSteps_snoc.mp hback
    have hplain' : ∀ l ∈ pre, l.IsPlain := fun l hl => hplain l (List.mem_append_left _ hl)
    have hpre := ih hplain' hback
    rw [List.map_append, List.map_append, List.map_singleton, List.map_singleton,
      parseFileFull_snoc, parseFileFull_snoc, ParseState.parseLine, ParseState.parseLine]
    by_cases hblank : l.IsBlankReturn
    · have hmarker : (parseFileFull (pre.map (·.saved))).heredocMarker ≠ [carriageReturn] :=
        fun h => marker_parseFileFull hplain' (h ▸ List.mem_singleton_self _)
      have hstate := congrArg ParseState.state hpre
      have hnot : (parseFileFull (pre.map (·.saved))).state ≠ .backslash := fun h =>
        hlast hblank (hstate.symm.trans h)
      rw [lineText_blankReturn hblank, lineText_blank hblank, ParseState.parseText_return hmarker,
        ParseState.parseText_empty, if_neg hnot]
      simp only [ParseState.bare, ParseState.mk.injEq, and_true] at hpre ⊢
      exact ⟨hpre.1, hpre.2.1, hpre.2.2.1, hpre.2.2.2.1, congrArg (· + 1) hpre.2.2.2.2⟩
    · rw [lineText_saved (hplain l (by simp)) hblank]
      exact ParseState.bare_parseText hpre _

/-- Where no blank line with a carriage return comes behind a backslash, the same lines are found
exactly if each of them comes inside a string, a here document or active arithmetic. -/
theorem parseFileFull_same_iff (hplain : ∀ l ∈ file, l.IsPlain)
    (hback : AllSteps (fun pre l => l.IsBlankReturn →
      (parseFileFull (pre.map (·.text))).state ≠ .backslash) file) :
    (∀ n, n ∈ (parseFileFull (file.map (·.saved))).found ↔
      n ∈ (parseFileFull (file.map (·.text))).found) ↔
    AllSteps (fun pre l => l.IsBlankReturn → (parseFileFull (pre.map (·.text))).state ≠ .none ∨
      (parseFileFull (pre.map (·.text))).arithmeticActive = true) file := by
  rw [(notes_parseFileFull (·.saved)).same_iff (notes_parseFileFull (·.text))]
  refine forall_congr' fun pre => forall_congr' fun l => forall_congr' fun hpre => ?_
  have hbefore : ∀ l ∈ pre, l.IsPlain := fun l hl =>
    hplain l (hpre.subset (List.mem_append_left _ hl))
  have hbare := bare_parseFileFull hbefore fun pre' l' hpre' =>
    hback pre' l' ((hpre'.trans (List.prefix_append pre [l])).trans hpre)
  have hnew : ∀ f : SavedLine → Text, pre.length + 1 ∉ (parseFileFull (pre.map f)).found :=
    fun f hmem => absurd ((notes_parseFileFull f).le pre _ hmem) (by omega)
  simp only [List.map_append, List.map_singleton, parseFileFull_snoc, ParseState.parseLine]
  by_cases hblank : l.IsBlankReturn
  · have hmarker : (parseFileFull (pre.map (·.saved))).heredocMarker ≠ [carriageReturn] :=
      fun h => marker_parseFileFull hbefore (h ▸ List.mem_singleton_self _)
    have hbareState := congrArg ParseState.state hbare
    have hstate : (parseFileFull (pre.map (·.saved))).state =
      (parseFileFull (pre.map (·.text))).state := hbareState
    have hbareArithmetic := congrArg ParseState.arithmeticActive hbare
    have harithmetic : (parseFileFull (pre.map (·.saved))).arithmeticActive =
      (parseFileFull (pre.map (·.text))).arithmeticActive := hbareArithmetic
    rw [lineText_blankReturn hblank, lineText_blank hblank, ParseState.parseText_return hmarker,
      ParseState.parseText_empty, parseFileFull_lineNo, hstate, harithmetic, List.length_map]
    cases (parseFileFull (pre.map (·.text))).arithmeticActive <;>
      by_cases hnone : (parseFileFull (pre.map (·.text))).state = .none <;>
      simp [hnew, hblank, hnone]
  · rw [lineText_saved (hplain l (hpre.subset (by simp))) hblank, ParseState.parseText_eq,
      ParseState.parseText_eq (parseFileFull (pre.map (·.text))), hbare]
    simp [ParseState.after, hnew, hblank]

theorem parseFileBasic_lineNo (lines : List Text) : (parseFileBasic lines).2 = lines.length := by
  induction lines using List.reverseRecOn with
  | nil => rfl
  | append_singleton lines line ih =>
    rw [parseFileBasic_snoc, parseTextBasic, ih, List.length_append, List.length_singleton]

theorem notes_parseFileBasic (f : SavedLine → Text) :
    Notes fun file => (parseFileBasic (file.map f)).1 := by
  refine ⟨rfl, fun pre l => ?_⟩
  rw [List.map_append, List.map_singleton, parseFileBasic_snoc, parseTextBasic,
    parseFileBasic_lineNo, List.length_map]
  dsimp only
  split
  · exact Or.inl rfl
  · exact Or.inr rfl

/-- The same lines are found exactly if no blank line is saved with a carriage return. -/
theorem parseFileBasic_same_iff (hplain : ∀ l ∈ file, l.IsPlain) :
    (∀ n, n ∈ (parseFileBasic (file.map (·.saved))).1 ↔
      n ∈ (parseFileBasic (file.map (·.text))).1) ↔
    ∀ l ∈ file, ¬l.IsBlankReturn := by
  have hread : ∀ (f : SavedLine → Text) pre l,
      pre.length + 1 ∈ (parseFileBasic ((pre ++ [l]).map f)).1 ↔
        skipsLineBasic (lineText (f l)) = false := by
    intro f pre l
    rw [List.map_append, List.map_singleton, ← mem_parseFileBasic (pre.map f) (f l),
      parseFileBasic_lineNo, List.length_map]
  have hreturn : skipsLineBasic [carriageReturn] = false := by
    decide
  have hempty : skipsLineBasic [] = true := rfl
  have hstep : ∀ l : SavedLine, l.IsPlain → ((skipsLineBasic (lineText l.saved) = false ↔
      skipsLineBasic (lineText l.text) = false) ↔ ¬l.IsBlankReturn) := by
    intro l hl
    by_cases hblank : l.IsBlankReturn
    · rw [lineText_blankReturn hblank, lineText_blank hblank, hreturn, hempty]
      simp [hblank]
    · rw [lineText_saved hl hblank]
      simp [hblank]
  rw [(notes_parseFileBasic (·.saved)).same_iff (notes_parseFileBasic (·.text))]
  constructor
  · intro h l hl
    obtain ⟨pre, rest, rfl⟩ := List.append_of_mem hl
    have hsame := h pre l ⟨rest, by simp⟩
    simp only [hread] at hsame
    exact (hstep l (hplain l hl)).mp hsame
  · intro h pre l hpre
    have hl : l ∈ file := hpre.subset (by simp)
    simp only [hread]
    exact (hstep l (hplain l hl)).mpr (h l hl)

end Files

end Bash

/-- What the endings of lines are to leave as it is: the lines that each of the parsers reports. -/
structure SameCode (file : List SavedLine) : Prop where
  python : ∀ n, n ∈ (Python.parseLines (file.map (·.saved))).found ↔
    n ∈ (Python.parseLines (file.map (·.text))).found
  bash : Bash.SameLines (file.map (·.text)) (file.map (·.saved))

/-- Carriage returns leave the lines that are code exactly if no blank line gets one. -/
theorem sameCode_iff {file : List SavedLine} (hplain : ∀ l ∈ file, l.IsPlain) :
    SameCode file ↔ ∀ l ∈ file, ¬l.IsBlankReturn := by
  constructor
  · intro h
    exact (Bash.parseFileBasic_same_iff hplain).mp fun n => (h.bash.2 n)
  · intro h
    have hnone : ∀ {P : List SavedLine → SavedLine → Prop},
        AllSteps (fun pre l => l.IsBlankReturn → P pre l) file := fun pre l hpre hblank =>
      absurd hblank (h l (hpre.subset (by simp)))
    exact
      { python := (Python.parseLines_same_iff hplain).mpr hnone
        bash := ⟨fun n => ((Bash.parseFileFull_same_iff hplain hnone).mpr hnone n),
          fun n => ((Bash.parseFileBasic_same_iff hplain).mpr h n)⟩ }

/-- An empty line keeps its ending. -/
theorem sameCode_keptEmpty :
    SameCode [⟨ascii "if a:  # b", true⟩, ⟨[], false⟩, ⟨ascii "\tc()", true⟩] :=
  (sameCode_iff (by decide)).mpr (by decide)

/-- An empty line gets a carriage return. -/
theorem not_sameCode_empty : ¬SameCode [⟨[], true⟩] := by
  intro h
  have hfound := h.python 1
  revert hfound
  decide

end Kcov
