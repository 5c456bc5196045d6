import Kcov.Engines.BashLines

/-! Here documents in bash scripts: when the parser is inside one from the redirection to the
delimiter. -/

namespace Kcov.Bash

open Bytes Search

/-! ### Redirections -/

/-- How the delimiter of a here document is written. -/
inductive Quoting where
  | plain
  | single
  | double
  | backslash
  deriving DecidableEq, Repr

def Quoting.apply : Quoting → Text → Text
  | .plain, word => word
  | .single, word => singleQuote :: (word ++ [singleQuote])
  | .double, word => doubleQuote :: (word ++ [doubleQuote])
  | .backslash, word => Bash.backslash :: word

/-- The characters that end a word of a command. -/
def metacharacters : List Byte := ascii " \t;|&<>()"

/-- The characters that a word in such quotes does not have. -/
def Quoting.excluded : Quoting → List Byte
  | .plain | .backslash => metacharacters ++ whiteSpace ++ [singleQuote, doubleQuote, Bash.backslash]
  | .single => [singleQuote]
  | .double => [doubleQuote]

/-- A line with a single redirection `<<` or `<<-`. -/
structure Redirection where
  before : Text
  dash : Bool
  blanks : Text
  quoting : Quoting
  word : Text
  after : Text
  blanks_blank : ∀ b ∈ blanks, isBlank b = true
  word_ne_nil : word ≠ []
  word_excluded : ∀ b ∈ word, b ∉ quoting.excluded
  after_ends : ∀ b ∈ after.head?, b ∈ metacharacters
  /-- A hyphen behind the redirection belongs to it. -/
  word_hyphen : dash = false → blanks = [] → quoting = .plain → word.head? ≠ some hyphen
  before_single : ¬ascii "<<" <:+: before ++ [lessThan]
  after_single : ¬ascii "<<" <:+: after

namespace Redirection

/-- The text behind the `<<`. -/
def behind (r : Redirection) : Text :=
  (if r.dash then [hyphen] else []) ++ r.blanks ++ r.quoting.apply r.word ++ r.after

def line (r : Redirection) : Text := r.before ++ ascii "<<" ++ r.behind

end Redirection

/-! ### The document -/

/-- What is left of the last line of a here document when it is compared with the marker. -/
def endText (s : Text) : Text := trimStringOf heredocEndChars s

/-- A line ends a here document with this marker. -/
def Closes (marker line : Text) : Prop :=
  skipsLine (lineText line) = false ∧ endText (lineText line) = marker

instance (marker line : Text) : Decidable (Closes marker line) :=
  inferInstanceAs (Decidable (_ ∧ _))

/-- Behind this line the parser is in a here document with this marker: the line is a command that
opens it, or it belongs to a document with the same marker. -/
def ParseState.OpensDocument (p : ParseState) (line marker : Text) : Prop :=
  let s := lineText line
  if p.state = .heredoc then p.heredocMarker = marker ∧ ¬Closes marker line
  else skipsLine s = false ∧
    (p.state = .none ∨ p.state = .quote ∧ findPos [doubleQuote] s = some (s.length - 1)) ∧
    s.getLast? ≠ some backslash ∧ opensQuote s = false ∧ p.opensHeredoc s = some marker

/-- The parser is in a here document behind the line and behind every line of the body. -/
def InDocument (pre : List Text) (line : Text) (body : List Text) : Prop :=
  ∀ b, b <+: body → (parseFileFull (pre ++ line :: b)).state = .heredoc

/-- The parser is back outside behind the line with the delimiter, and none of the lines in between
is code. -/
def EndsAtDelimiter (pre : List Text) (line : Text) (body : List Text) (closing : Text) : Prop :=
  (parseFileFull (pre ++ line :: (body ++ [closing]))).state = .none ∧
    (parseFileFull (pre ++ line :: body)).found = (parseFileFull (pre ++ [line])).found

namespace ParseState

variable {p : ParseState} {s line marker : Text}

theorem parseLine_heredoc (h : p.state = .heredoc) : p.parseLine line =
    { p with
      state := if Closes p.heredocMarker line then .none else .heredoc
      lineNo := p.lineNo + 1 } := by
  rw [parseLine, parseText]
  cases hskip : skipsLine (lineText line) with
  | true => simp [h, Closes, hskip]
  | false =>
    simp only [Bool.false_eq_true, if_false, h, Closes, hskip, true_and]
    rw [endText]
    split <;> rfl

theorem parseCommand_heredoc (h : p.state ≠ .heredoc) :
    (p.parseCommand s).state = .heredoc ∧ (p.parseCommand s).heredocMarker = marker ↔
      s.getLast? ≠ some backslash ∧ opensQuote s = false ∧ p.opensHeredoc s = some marker := by
  rw [parseCommand_state]
  by_cases hlast : s.getLast? = some backslash
  · simp [hlast]
  by_cases hquote : opensQuote s = true
  · simp [hlast, hquote]
  rw [Bool.not_eq_true] at hquote
  rw [if_neg hlast, hquote, if_neg Bool.false_ne_true]
  cases hopens : p.opensHeredoc s with
  | none => simp [h]
  | some m =>
    have hmarker : (p.parseCommand s).heredocMarker = m := by
      rw [opensHeredoc] at hopens
      rw [parseCommand]
      dsimp only
      rw [if_neg hlast, hquote, if_neg Bool.false_ne_true]
      split at hopens
      · cases hopens
      next pos hpos =>
        obtain ⟨-, hm⟩ := Option.ite_none_right_eq_some.mp hopens
        rw [apply_ite heredocMarker, reportCommand_heredocMarker, ite_self]
        exact Option.some.inj hm
    simp [hmarker, hlast]

theorem parseLine_opens : (p.parseLine line).state = .heredoc ∧
    (p.parseLine line).heredocMarker = marker ↔ p.OpensDocument line marker := by
  rw [OpensDocument]
  by_cases hstate : p.state = .heredoc
  · rw [if_pos hstate, parseLine_heredoc hstate]
    dsimp only
    split
    next hcloses => grind
    next hcloses => grind
  rw [if_neg hstate, parseLine, parseText]
  cases hskip : skipsLine (lineText line) with
  | true => simp [hstate]
  | false =>
    let q : ParseState := { p with state := .none, lineNo := p.lineNo + 1 }
    -- whether a command opens a document depends on the arithmetic only
    have hcommand : (q.parseCommand (lineText line)).state = .heredoc ∧
        (q.parseCommand (lineText line)).heredocMarker = marker ↔
          (lineText line).getLast? ≠ some backslash ∧ opensQuote (lineText line) = false ∧
            p.opensHeredoc (lineText line) = some marker :=
      parseCommand_heredoc (by simp [q])
    simp only [Bool.false_eq_true, if_false]
    cases hcases : p.state with
    | none => simpa using hcommand
    | heredoc => exact absurd hcases hstate
    | backslash =>
      dsimp only
      split <;> simp
    | quote =>
      dsimp only
      split
      next hend => simpa [hend] using hcommand
      next hend => simp [hend]

/-- A line that does not end a here document leaves everything but the line number. -/
theorem parseLine_body (h : p.state = .heredoc) (hline : ¬Closes p.heredocMarker line) :
    p.parseLine line = { p with lineNo := p.lineNo + 1 } := by
  rw [parseLine_heredoc h, if_neg hline, h]

theorem foldl_body {body : List Text} (h : p.state = .heredoc)
    (hbody : ∀ l ∈ body, ¬Closes p.heredocMarker l) :
    body.foldl parseLine p = { p with lineNo := p.lineNo + body.length } := by
  induction body generalizing p with
  | nil => rfl
  | cons l body ih =>
    rw [List.foldl_cons, parseLine_body h (hbody l List.mem_cons_self),
      ih (p := { p with lineNo := p.lineNo + 1 }) h fun l' hl' =>
        hbody l' (List.mem_cons_of_mem l hl'), List.length_cons, Nat.add_assoc, Nat.add_comm 1]

/-- The parser is inside a here document behind each of some lines exactly if none of them ends
it. -/
theorem forall_prefix_heredoc {body : List Text} (h : p.state = .heredoc) :
    (∀ b, b <+: body → (b.foldl parseLine p).state = .heredoc) ↔
      ∀ l ∈ body, ¬Closes p.heredocMarker l := by
  constructor
  · intro hall
    induction body generalizing p with
    | nil => simp
    | cons l body ih =>
      have hl : ¬Closes p.heredocMarker l := by
        intro hcloses
        have hfirst := hall [l] (by simp)
        rw [List.foldl_cons, List.foldl_nil, parseLine_heredoc h, if_pos hcloses] at hfirst
        cases hfirst
      have hrest := ih (p := { p with lineNo := p.lineNo + 1 }) h fun b hb => by
        have hcons := hall (l :: b) (by simpa using hb)
        rwa [List.foldl_cons, parseLine_body h hl] at hcons
      exact List.forall_mem_cons.mpr ⟨hl, hrest⟩
  · intro hnone b hb
    rw [foldl_body h fun l hl => hnone l (hb.subset hl)]
    exact h

theorem document_end {body : List Text} (h : p.state = .heredoc)
    (hbody : ∀ l ∈ body, ¬Closes p.heredocMarker l) :
    ((body ++ [line]).foldl parseLine p).state = .none ↔ Closes p.heredocMarker line := by
  have hlast := @parseLine_heredoc { p with lineNo := p.lineNo + body.length } line h
  rw [List.foldl_append, foldl_body h hbody, List.foldl_cons, List.foldl_nil, hlast]
  dsimp only
  split
  next hcloses => simp [hcloses]
  next hcloses => simp [hcloses]

end ParseState

section Document

variable {pre body : List Text} {line : Text}

theorem parseFileFull_document (pre : List Text) (line : Text) (b : List Text) :
    parseFileFull (pre ++ line :: b) =
      b.foldl ParseState.parseLine ((parseFileFull pre).parseLine line) := by
  rw [parseFileFull_append, List.foldl_cons]

/-- The parser stays in a document that the line has opened until a line of the body ends it. -/
theorem inDocument_iff : InDocument pre line body ↔
    ((parseFileFull pre).parseLine line).state = .heredoc ∧
      ∀ l ∈ body, ¬Closes ((parseFileFull pre).parseLine line).heredocMarker l := by
  rw [InDocument]
  simp only [parseFileFull_document]
  constructor
  · intro hall
    have hstate := hall [] List.nil_prefix
    exact ⟨hstate, (ParseState.forall_prefix_heredoc hstate).mp hall⟩
  · rintro ⟨hstate, hbody⟩
    exact (ParseState.forall_prefix_heredoc hstate).mpr hbody

/-- A here document goes on to its delimiter and ends there exactly if its line opens a document
with the delimiter for a marker, as it is read in the last line, that line is looked at, and no line
before it ends the document. -/
theorem endsAtDelimiter_iff (pre : List Text) (r : Redirection) (body : List Text) {closing : Text}
    (hclosing : trimString closing = r.word) :
    InDocument pre r.line body ∧ EndsAtDelimiter pre r.line body closing ↔
      (parseFileFull pre).OpensDocument r.line (endText (removeComment r.word)) ∧
      skipsLine (removeComment r.word) = false ∧
      ∀ l ∈ body, ¬Closes (endText (removeComment r.word)) l := by
  have hword : lineText closing = removeComment r.word := by rw [lineText, hclosing]
  rw [← ParseState.parseLine_opens, inDocument_iff, EndsAtDelimiter]
  simp only [parseFileFull_document, List.foldl_nil]
  generalize (parseFileFull pre).parseLine r.line = q
  constructor
  · rintro ⟨⟨hstate, hbody⟩, hend, -⟩
    have hcloses := (ParseState.document_end hstate hbody).mp hend
    rw [Closes, hword] at hcloses
    rw [hcloses.2]
    exact ⟨⟨hstate, rfl⟩, hcloses.1, hbody⟩
  · rintro ⟨⟨hstate, hmarker⟩, hskip, hbody⟩
    rw [← hmarker] at hbody
    refine ⟨⟨hstate, hbody⟩, ?_, ?_⟩
    · rw [ParseState.document_end hstate hbody, Closes, hword]
      exact ⟨hskip, hmarker.symm⟩
    · rw [ParseState.foldl_body hstate hbody]

end Document

/-- `cat << 'EOF'`. -/
def quotedDelimiter : Redirection where
  before := ascii "cat "
  dash := false
  blanks := ascii " "
  quoting := .single
  word := ascii "EOF"
  after := []
  blanks_blank := by decide
  word_ne_nil := by decide
  word_excluded := by decide
  after_ends := by decide
  word_hyphen := by decide
  before_single := by decide
  after_single := by decide

/-- A document of one line. -/
theorem endsAtDelimiter_quoted :
    InDocument [] quotedDelimiter.line [ascii "fi"] ∧
      EndsAtDelimiter [] quotedDelimiter.line [ascii "fi"] (ascii "EOF") :=
  (endsAtDelimiter_iff [] quotedDelimiter [ascii "fi"] (by decide)).mpr
    ⟨by unfold ParseState.OpensDocument; decide, by decide, by decide⟩

/-- `cat <<EOF|tr a b`. -/
def pipedDelimiter : Redirection where
  before := ascii "cat "
  dash := false
  blanks := []
  quoting := .plain
  word := ascii "EOF"
  after := ascii "|tr a b"
  blanks_blank := by decide
  word_ne_nil := by decide
  word_excluded := by decide
  after_ends := by decide
  word_hyphen := by decide
  before_single := by decide
  after_single := by decide

/-- The marker goes on behind the delimiter, up to the next blank. -/
theorem not_endsAtDelimiter_pipe :
    ¬EndsAtDelimiter [] pipedDelimiter.line [ascii "x"] (ascii "EOF") := by
  rintro ⟨hend, -⟩
  revert hend
  decide

end Kcov.Bash
