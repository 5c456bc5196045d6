import Kcov.Engines.BashLines

/-! Trailing comments in bash scripts: when a comment behind a line changes which lines are code. -/

namespace Kcov.Bash

open Bytes Search

/-- A line with a comment behind it. -/
def commented (line : Text) (blank : Byte) (comment : Text) : Text :=
  line ++ blank :: numberSign :: comment

/-- The lines that are passed over if they are nothing else. -/
def exactLines : List Text := ["\x7b", "\x7d", "(", ")"].map ascii ++ keywords

/-- The rules that pass over a line by how it begins. -/
def skipsByStart (s : Text) : Bool :=
  decide (ascii ";;" <+: s) || isFunctionKeyword s || isFunction s

/-! ### The text of a line with a comment -/

section LineText

variable {line comment : Text} {blank : Byte}

theorem lineText_plain (h : numberSign ∉ line) : lineText line = trimString line := by
  have hnone : findPos [numberSign] (trimString line) = none := by
    rw [findPos_eq_none, List.singleton_infix_iff]
    exact fun hmem => h (mem_of_mem_trimString hmem)
  rw [lineText, removeComment, hnone]

theorem trimString_number (a c : Text) : trimString (a ++ numberSign :: c) =
    a.dropWhile isBlank ++ numberSign :: c.rdropWhile fun b => whiteSpace.contains b :=
  trimStringOf_append_cons (by decide) (by decide)

/-- A `#` behind a blank begins a comment if there are no quotes in front of it and no braces behind
it. -/
theorem keepsComment_blank {v c : Text} (hlast : ∀ b ∈ v.getLast?, isBlank b = true)
    (hdouble : doubleQuote ∉ v) (hsingle : singleQuote ∉ v) (hbrace : rightBrace ∉ c) :
    keepsComment (v ++ numberSign :: c) v.length = false := by
  have hdollar : (1 ≤ v.length && decide ((v ++ numberSign :: c)[v.length - 1]? = some dollar)) =
      false := by
    cases v using List.reverseRecOn with
    | nil => rfl
    | append_singleton v b =>
      have hb : isBlank b = true := hlast b (by simp)
      have hne : b ≠ dollar := by
        rintro rfl
        cases hb
      simp [hne]
  have hbraces : ((v ++ numberSign :: c).drop v.length).contains rightBrace = false := by
    rw [List.drop_left]
    simpa [hbrace] using (by decide : rightBrace ≠ numberSign)
  rw [keepsComment, hdollar, hbraces, List.take_left]
  simp [hdouble, hsingle]

/-- A comment is cut off, and the white space in front of it stays. -/
theorem lineText_commented (hnumber : numberSign ∉ line) (hdouble : doubleQuote ∉ line)
    (hsingle : singleQuote ∉ line) (hblank : isBlank blank = true) (hbrace : rightBrace ∉ comment) :
    lineText (commented line blank comment) = (line ++ [blank]).dropWhile isBlank := by
  let v := (line ++ [blank]).dropWhile isBlank
  let c := comment.rdropWhile fun b => whiteSpace.contains b
  have hmem : ∀ b ∈ v, b ∈ line ∨ b = blank := fun b hb => by
    simpa using (List.dropWhile_suffix _).subset hb
  have hnot : ∀ b, isBlank b = false → b ∉ line → b ∉ v := by
    rintro b hb hline hv
    rcases hmem b hv with h | rfl
    · exact hline h
    · rw [hblank] at hb
      cases hb
  have hlast : ∀ b ∈ v.getLast?, isBlank b = true := by
    intro b hb
    have hv : v ≠ [] := by
      rintro hnil
      simp [hnil] at hb
    obtain ⟨front, hfront⟩ := List.dropWhile_suffix (l := line ++ [blank]) isBlank
    have hsame : (line ++ [blank]).getLast? = v.getLast? := by
      rw [← hfront, List.getLast?_append_of_ne_nil _ hv]
    rw [← hsame, List.getLast?_concat] at hb
    cases hb
    exact hblank
  have hbrace' : rightBrace ∉ c := fun h => hbrace ((List.rdropWhile_prefix _ _).subset h)
  have hcut : trimString (commented line blank comment) = v ++ numberSign :: c := by
    rw [commented, List.append_cons]
    exact trimString_number _ _
  rw [lineText, hcut, removeComment, findPos_singleton (hnot _ (by decide) hnumber)]
  dsimp only
  rw [keepsComment_blank hlast (hnot _ (by decide) hdouble) (hnot _ (by decide) hsingle) hbrace',
    if_neg Bool.false_ne_true, trimString_number, List.dropWhile_idempotent, List.take_left]

/-- The text of a line, and the white space that a comment leaves behind it. -/
theorem dropWhile_blank (line : Text) (hblank : isBlank blank = true) :
    (trimString line = [] ∧ (line ++ [blank]).dropWhile isBlank = []) ∨
    trimString line ≠ [] ∧ ∃ w, w ≠ [] ∧ (∀ b ∈ w, b ∈ whiteSpace) ∧
      (line ++ [blank]).dropWhile isBlank = trimString line ++ w := by
  have hmem : blank ∈ whiteSpace := isBlank_mem hblank
  rcases all_or_last whiteSpace line with hall | ⟨a, x, c, rfl, hx, hc⟩
  · rw [trimString, trimStringOf_all hall, List.dropWhile_append]
    by_cases hnil : line.dropWhile isBlank = []
    · left
      simp [hnil, hblank]
    · right
      rw [if_neg (by simpa using hnil)]
      exact ⟨hnil, [blank], by simp, by simpa using hmem, rfl⟩
  · have hx' : isBlank x = false := Bool.eq_false_iff.mpr fun h => hx (isBlank_mem h)
    right
    rw [trimString, trimStringOf_append_cons hx hx', rdropWhile_contains hc, List.append_assoc,
      List.dropWhile_append]
    refine ⟨by simp, c ++ [blank], by simp, by simpa [or_imp, forall_and] using ⟨hc, hmem⟩, ?_⟩
    split
    next hnil => simp [List.isEmpty_iff.mp hnil, hx']
    next => simp

end LineText

/-! ### White space behind a line -/

section Padding

variable {t w : Text} {p : Text}

theorem findPos_padded (hw : ∀ b ∈ w, b ∈ whiteSpace) (hp : p ≠ [])
    (hwhite : ∀ b ∈ whiteSpace, b ∉ p) : findPos p (t ++ w) = findPos p t :=
  findPos_append_right hp fun b hb => hwhite b (hw b hb)

theorem finds_padded (hw : ∀ b ∈ w, b ∈ whiteSpace) (hp : p ≠ [])
    (hwhite : ∀ b ∈ whiteSpace, b ∉ p) : finds (t ++ w) p = finds t p :=
  decide_eq_decide.mpr (infix_append_right hp fun b hb => hwhite b (hw b hb))

theorem prefix_padded (hw : ∀ b ∈ w, b ∈ whiteSpace) (hwhite : ∀ b ∈ whiteSpace, b ∉ p) :
    p <+: t ++ w ↔ p <+: t :=
  prefix_append_iff fun b hb => hwhite b (hw b hb)

theorem nameEnd_le (s : Text) (n : Nat) : nameEnd s n ≤ n := by
  induction n with
  | zero => exact le_rfl
  | succ n ih =>
    cases n with
    | zero => exact le_rfl
    | succ n =>
      rw [nameEnd]
      split
      · exact ih.trans (Nat.le_succ _)
      · exact le_rfl

theorem nameEnd_append {n : Nat} (hn : n ≤ t.length) : nameEnd (t ++ w) n = nameEnd t n := by
  induction n with
  | zero => rfl
  | succ n ih =>
    cases n with
    | zero => rfl
    | succ n =>
      rw [nameEnd, nameEnd, List.getElem?_append_left (by omega), ih (by omega)]

theorem isFunction_padded (hw : ∀ b ∈ w, b ∈ whiteSpace) : isFunction (t ++ w) = isFunction t := by
  rw [isFunction, isFunction, findPos_padded hw (by decide) (by decide)]
  cases hpos : findPos (ascii "()") t with
  | none => rfl
  | some pos =>
    have hlen := (prefix_drop_of_findPos hpos).length_le
    rw [List.length_drop] at hlen
    have hle : pos ≤ t.length := by
      have : 0 < (ascii "()").length := by decide
      omega
    dsimp only
    rw [nameEnd_append hle, List.take_append_of_le_length ((nameEnd_le t pos).trans hle)]

theorem skipsByStart_padded (hw : ∀ b ∈ w, b ∈ whiteSpace) :
    skipsByStart (t ++ w) = skipsByStart t := by
  simp only [skipsByStart, isFunctionKeyword, isFunction_padded hw,
    prefix_padded (p := ascii ";;") hw (by decide),
    prefix_padded (p := ascii "function") hw (by decide)]

theorem skipsLine_eq {s : Text} (hs : s ≠ []) :
    skipsLine s = (exactLines.contains s || skipsByStart s) := by
  rw [Bool.eq_iff_iff]
  simp only [skipsLine, skipsByStart, exactLines, hs, Bool.or_eq_true, decide_eq_true_eq,
    List.contains_iff_mem, List.mem_append, List.map_cons, List.map_nil, List.mem_cons,
    List.not_mem_nil, false_or, or_assoc, or_comm, or_left_comm]

/-- A line with white space behind it is not one of the lines that are passed over as a whole. -/
theorem padded_notMem (hne : w ≠ []) (hw : ∀ b ∈ w, b ∈ whiteSpace) : t ++ w ∉ exactLines := by
  have hexact : ∀ e ∈ exactLines, ∀ b ∈ whiteSpace, b ∉ e := by decide
  obtain ⟨b, hb⟩ := List.exists_mem_of_ne_nil w hne
  exact fun hmem => hexact _ hmem b (hw b hb) (by simp [hb])

theorem skipsLine_padded (hne : w ≠ []) (hw : ∀ b ∈ w, b ∈ whiteSpace) :
    skipsLine (t ++ w) = skipsByStart t := by
  rw [skipsLine_eq (by simp [hne]), skipsByStart_padded hw]
  simp [padded_notMem hne hw]

theorem getLast?_padded (hne : w ≠ []) (hw : ∀ b ∈ w, b ∈ whiteSpace) {c : Byte}
    (hc : c ∉ whiteSpace) : (t ++ w).getLast? ≠ some c := by
  rw [List.getLast?_append_of_ne_nil t hne]
  exact fun h => hc (hw c (List.mem_of_getLast? h))

theorem trimString_padded {m : Text} (hw : ∀ b ∈ w, b ∈ whiteSpace) (hm : m ≠ [])
    (hlast : ∀ b ∈ m.getLast?, b ∉ whiteSpace) : trimString (m ++ w) = trimString m := by
  refine trimStringOf_padded (fun b => isBlank_mem) hw fun hall => ?_
  have hmem := List.getLast_mem hm
  exact hlast _ (List.getLast?_eq_getLast_of_ne_nil hm) (hall _ hmem)

theorem trimString_blanks (hw : ∀ b ∈ w, isBlank b = true) : trimString w = [] := by
  rw [trimString, trimStringOf_all fun b hb => isBlank_mem (hw b hb), List.dropWhile_eq_nil_iff]
  exact hw

/-- The text behind a redirection gives the same marker, unless there is nothing but white space
and not all of it is blank. -/
theorem heredocMarkerOf_padded {m : Text} (hw : ∀ b ∈ w, b ∈ whiteSpace)
    (hlast : ∀ b ∈ m.getLast?, b ∉ whiteSpace)
    (hempty : m = [] ∨ m = [hyphen] → ∀ b ∈ w, isBlank b = true) :
    heredocMarkerOf (m ++ w) = heredocMarkerOf m := by
  have hhead : w.head? ≠ some hyphen := fun h =>
    absurd (hw hyphen (List.mem_of_mem_head? h)) (by decide)
  rw [heredocMarkerOf, heredocMarkerOf]
  suffices htrim : trimString (skipHyphen (m ++ w)) = trimString (skipHyphen m) by rw [htrim]
  cases m with
  | nil =>
    rw [List.nil_append, skipHyphen, if_neg hhead, trimString_blanks (hempty (Or.inl rfl))]
    rfl
  | cons b m =>
    by_cases hb : b = hyphen
    · subst hb
      change trimString (m ++ w) = trimString m
      cases m with
      | nil =>
        rw [List.nil_append, trimString_blanks (hempty (Or.inr rfl))]
        rfl
      | cons c m => exact trimString_padded hw (List.cons_ne_nil c m) (by simpa using hlast)
    · have hb' : some b ≠ some hyphen := fun h => hb (Option.some.inj h)
      rw [List.cons_append, skipHyphen, skipHyphen, List.head?_cons, List.head?_cons, if_neg hb',
        if_neg hb']
      exact trimString_padded hw (List.cons_ne_nil b m) hlast

end Padding

/-! ### Lines behind a comment -/

namespace ParseState

/-- The command ends as the label of a `case` switch, and is no code. -/
def isLabelLine (p : ParseState) (s : Text) : Bool :=
  let p := p.openCommand s
  !(p.heredocStart s).any (fun pos => trimString (s.take pos) = ascii "done") &&
    !(p.closeCommand s).arithmeticActive && (p.closeCommand s).isCaseLabel s

variable {p : ParseState} {t w : Text}

theorem openCommand_padded (hw : ∀ b ∈ w, b ∈ whiteSpace) :
    p.openCommand (t ++ w) = p.openCommand t := by
  rw [openCommand, openCommand, opensArithmetic, opensArithmetic,
    finds_padded hw (by decide) (by decide), finds_padded hw (by decide) (by decide)]

theorem heredocStart_padded (hw : ∀ b ∈ w, b ∈ whiteSpace) :
    p.heredocStart (t ++ w) = p.heredocStart t := by
  rw [heredocStart, heredocStart, findPos_padded hw (by decide) (by decide)]
  cases hpos : findPos (ascii "<<") t with
  | none => rfl
  | some pos =>
    -- the blank of `let ` does not come from the white space, as a redirection comes in front of it
    have hlet : ascii "let " <+: t ++ w ↔ ascii "let " <+: t := by
      refine ⟨fun h => ?_, fun h => h.trans (List.prefix_append t w)⟩
      rcases List.prefix_or_prefix_of_prefix h (List.prefix_append t w) with hle | hle
      · exact hle
      · have hin : ascii "<<" <:+: t := findPos_isSome.mp (by rw [hpos]; rfl)
        exact absurd (hin.trans hle.isInfix) (by decide)
    simp only [hlet, finds_padded hw (by decide : ascii "$((" ≠ []) (by decide),
      finds_padded hw (by decide : ascii "))" ≠ []) (by decide)]

theorem closeCommand_padded (hw : ∀ b ∈ w, b ∈ whiteSpace) :
    p.closeCommand (t ++ w) = p.closeCommand t := by
  simp only [closeCommand, finds_padded hw (by decide : ascii "))" ≠ []) (by decide),
    finds_padded hw (by decide : ascii "]" ≠ []) (by decide),
    prefix_padded (p := ascii "case") hw (by decide),
    prefix_padded (p := ascii "esac") hw (by decide)]

/-- A label with white space behind it is none. -/
theorem reportCommand_padded (hne : w ≠ []) (hw : ∀ b ∈ w, b ∈ whiteSpace) :
    p.reportCommand (t ++ w) =
      if (p.closeCommand t).arithmeticActive then p.closeCommand t
      else { p.closeCommand t with found := p.found ++ [p.lineNo] } := by
  have hlabel : (p.closeCommand t).isCaseLabel (t ++ w) = false := by
    rw [isCaseLabel, decide_eq_false (getLast?_padded hne hw (by decide)), Bool.and_false,
      Bool.false_and]
  rw [reportCommand, closeCommand_padded hw]
  dsimp only
  rw [hlabel]
  rfl

theorem reportCommand_padded_eq (hne : w ≠ []) (hw : ∀ b ∈ w, b ∈ whiteSpace)
    (hlabel : (!(p.closeCommand t).arithmeticActive && (p.closeCommand t).isCaseLabel t) = false) :
    p.reportCommand (t ++ w) = p.reportCommand t := by
  rw [reportCommand_padded hne hw, reportCommand]
  cases harith : (p.closeCommand t).arithmeticActive with
  | true => simp
  | false =>
    rw [harith] at hlabel
    have hno : (p.closeCommand t).isCaseLabel t = false := by simpa using hlabel
    simp only [harith, hno, Bool.false_eq_true, if_false]
    rfl

theorem opensQuote_false {s : Text} (h : doubleQuote ∉ s) : opensQuote s = false := by
  rw [opensQuote, List.count_eq_zero_of_not_mem h]
  simp

theorem heredocStart_eq_some {pos : Nat} (h : p.heredocStart t = some pos) :
    findPos (ascii "<<") t = some pos := by
  rw [heredocStart] at h
  split at h
  · cases h
  next hpos =>
    obtain ⟨-, heq⟩ := Option.ite_none_right_eq_some.mp h
    rw [hpos, heq]

theorem heredocStart_le {pos : Nat} (h : p.heredocStart t = some pos) : pos + 2 ≤ t.length := by
  have hlen := (prefix_drop_of_findPos (heredocStart_eq_some h)).length_le
  have htwo : (ascii "<<").length = 2 := rfl
  rw [List.length_drop] at hlen
  omega

/-- A command is the same with white space behind it, unless it is a label, or it ends with a
redirection and not all of the white space is blank. -/
theorem parseCommand_padded (hne : w ≠ []) (hw : ∀ b ∈ w, b ∈ whiteSpace) (hback : backslash ∉ t)
    (hquote : doubleQuote ∉ t)
    (hlast : (∃ b ∈ t, b ∉ whiteSpace) → ∀ b ∈ t.getLast?, b ∉ whiteSpace)
    (hlabel : p.isLabelLine t = false)
    (hredirection : ∀ pos ∈ (p.openCommand t).heredocStart t,
      t.drop (pos + 2) = [] ∨ t.drop (pos + 2) = [hyphen] → ∀ b ∈ w, isBlank b = true) :
    p.parseCommand (t ++ w) = p.parseCommand t := by
  have hquote' : doubleQuote ∉ t ++ w := fun h =>
    (List.mem_append.mp h).elim hquote fun h => absurd (hw _ h) (by decide)
  have hback' : t.getLast? ≠ some backslash := fun h => hback (List.mem_of_getLast? h)
  rw [isLabelLine] at hlabel
  rw [parseCommand, parseCommand, openCommand_padded hw]
  dsimp only at hlabel ⊢
  rw [if_neg (getLast?_padded hne hw (by decide)), if_neg hback', opensQuote_false hquote',
    opensQuote_false hquote, heredocStart_padded hw, if_neg Bool.false_ne_true,
    if_neg Bool.false_ne_true]
  cases hstart : (p.openCommand t).heredocStart t with
  | none =>
    rw [hstart] at hlabel
    exact reportCommand_padded_eq hne hw hlabel
  | some pos =>
    have hle := heredocStart_le hstart
    have hmarker : heredocMarkerOf ((t ++ w).drop (pos + 2)) =
        heredocMarkerOf (t.drop (pos + 2)) := by
      rw [List.drop_append_of_le_length hle]
      refine heredocMarkerOf_padded hw (fun b hb => ?_) (hredirection pos hstart)
      have hless : lessThan ∈ t := by
        have hin : ascii "<<" <:+: t :=
          findPos_isSome.mp (by rw [heredocStart_eq_some hstart]; rfl)
        exact hin.subset (by decide)
      apply hlast ⟨lessThan, hless, by decide⟩
      rw [List.getLast?_drop] at hb
      split at hb
      · cases hb
      · exact hb
    dsimp only
    rw [hmarker, List.take_append_of_le_length (by omega)]
    by_cases hdone : trimString (t.take pos) = ascii "done"
    · rw [if_pos hdone, if_pos hdone]
    · rw [if_neg hdone, if_neg hdone]
      rw [hstart, Option.any_some, decide_eq_false hdone] at hlabel
      exact reportCommand_padded_eq hne hw hlabel

end ParseState

/-! ### What a comment changes -/

/-- The text of a line with a comment behind it. -/
def commentedText (line : Text) (blank : Byte) : Text := (line ++ [blank]).dropWhile isBlank

/-- A comment behind a line changes nothing: the line is not one that is passed over as a whole, nor
a label, and it does not end with a redirection and white space that is not blank. Inside a here
document the line is not its marker where all of it would be trimmed. -/
structure CommentIgnored (p : ParseState) (line : Text) (blank : Byte) : Prop where
  exact : lineText line ∉ exactLines
  label : p.state = .none → skipsLine (lineText line) = false → p.isLabelLine (lineText line) = false
  redirection : p.state = .none → skipsLine (lineText line) = false →
    ∀ pos ∈ (p.openCommand (lineText line)).heredocStart (lineText line),
      (lineText line).drop (pos + 2) = [] ∨ (lineText line).drop (pos + 2) = [hyphen] →
      ∀ b ∈ (commentedText line blank).drop (lineText line).length, isBlank b = true
  document : p.state = .heredoc → skipsLine (lineText line) = false →
    (∀ b ∈ lineText line, b ∈ heredocEndChars) →
    lineText line ≠ p.heredocMarker ∧ commentedText line blank ≠ p.heredocMarker

/-- The parsers find the same lines. -/
def SameLines (lines lines' : List Text) : Prop :=
  (∀ n, n ∈ (parseFileFull lines').found ↔ n ∈ (parseFileFull lines).found) ∧
    ∀ n, n ∈ (parseFileBasic lines').1 ↔ n ∈ (parseFileBasic lines).1

section Ignored

variable {p : ParseState} {line : Text} {blank : Byte} {w : Text}

theorem skipsLine_notExact (hne : lineText line ≠ []) (h : lineText line ∉ exactLines) :
    skipsLine (lineText line) = skipsByStart (lineText line) := by
  rw [skipsLine_eq hne]
  simp [h]

theorem trimStringOf_trimmed (chars : List Byte) (h : ∀ b ∈ commentedText line blank, b ∈ chars) :
    trimStringOf chars (commentedText line blank) = commentedText line blank := by
  rw [trimStringOf_all h, commentedText, List.dropWhile_idempotent]

theorem trimStringOf_text {chars : List Byte} (hnumber : numberSign ∉ line)
    (h : ∀ b ∈ lineText line, b ∈ chars) : trimStringOf chars (lineText line) = lineText line := by
  rw [trimStringOf_all h, lineText_plain hnumber, trimString, trimStringOf,
    List.dropWhile_idempotent]

/-- A line with a comment is the line with some white space behind it, unless it is empty. -/
theorem commentedText_cases (hnumber : numberSign ∉ line) (hdouble : doubleQuote ∉ line)
    (hback : backslash ∉ line) (hblank : isBlank blank = true) :
    (lineText line = [] ∧ commentedText line blank = []) ∨
      lineText line ≠ [] ∧ doubleQuote ∉ lineText line ∧ backslash ∉ lineText line ∧
        ∃ w, w ≠ [] ∧ (∀ b ∈ w, b ∈ whiteSpace) ∧ commentedText line blank = lineText line ++ w := by
  rw [commentedText, lineText_plain hnumber]
  rcases dropWhile_blank line hblank with hempty | ⟨hne, hcut⟩
  · exact .inl hempty
  · exact .inr ⟨hne, fun hmem => hdouble (mem_of_mem_trimString hmem),
      fun hmem => hback (mem_of_mem_trimString hmem), hcut⟩

/-- A line with a comment is the same to the parser if the comment is ignored. -/
theorem parseText_commented (hnumber : numberSign ∉ line) (hdouble : doubleQuote ∉ line)
    (hback : backslash ∉ line) (hblank : isBlank blank = true)
    (h : CommentIgnored p line blank) :
    p.parseText (commentedText line blank) = p.parseText (lineText line) := by
  rcases commentedText_cases hnumber hdouble hback hblank with
    ⟨hnil, hnil'⟩ | ⟨hne, hquote, hback', w, hw, hwhite, hcut'⟩
  · rw [hnil', hnil]
  have hdrop : (commentedText line blank).drop (lineText line).length = w := by
    rw [hcut', List.drop_left]
  have hskip : skipsLine (commentedText line blank) = skipsLine (lineText line) := by
    rw [hcut', skipsLine_padded hw hwhite, skipsLine_notExact hne h.exact]
  rw [ParseState.parseText, ParseState.parseText, hskip]
  cases hskips : skipsLine (lineText line) with
  | true => rfl
  | false =>
    dsimp only
    rw [if_neg Bool.false_ne_true, if_neg Bool.false_ne_true]
    cases hstate : p.state with
    | none =>
      have hlast : (∃ b ∈ lineText line, b ∉ whiteSpace) →
          ∀ b ∈ (lineText line).getLast?, b ∉ whiteSpace := by
        rw [lineText_plain hnumber]
        exact getLast?_trimString
      have hredirection := h.redirection hstate hskips
      rw [hdrop] at hredirection
      rw [hcut']
      exact ParseState.parseCommand_padded hw hwhite hback' hquote hlast (h.label hstate hskips)
        hredirection
    | backslash =>
      have hline : (lineText line).getLast? ≠ some backslash := fun hlast =>
        hback' (List.mem_of_getLast? hlast)
      have hcommented : (commentedText line blank).getLast? ≠ some backslash := by
        rw [hcut']
        exact getLast?_padded hw hwhite (by decide)
      rw [if_pos hline, if_pos hcommented]
    | quote =>
      have hline : findPos [doubleQuote] (lineText line) = none := by
        rw [findPos_eq_none, List.singleton_infix_iff]
        exact hquote
      have hcommented : findPos [doubleQuote] (commentedText line blank) = none := by
        rw [hcut', findPos_padded hwhite (by decide) (by decide), hline]
      rw [hline, hcommented]
      rfl
    | heredoc =>
      by_cases hall : ∀ b ∈ lineText line, b ∈ heredocEndChars
      · obtain ⟨hline, hcommented⟩ := h.document hstate hskips hall
        have hsub : ∀ b ∈ whiteSpace, b ∈ heredocEndChars := by decide
        have hall' : ∀ b ∈ commentedText line blank, b ∈ heredocEndChars := by
          rw [hcut']
          exact fun b hb => (List.mem_append.mp hb).elim (hall b) fun hb => hsub b (hwhite b hb)
        rw [trimStringOf_trimmed _ hall', trimStringOf_text hnumber hall, if_neg hline,
          if_neg hcommented]
      · have hsub : ∀ b ∈ w, b ∈ heredocEndChars := fun b hb =>
          (by decide : ∀ b ∈ whiteSpace, b ∈ heredocEndChars) b (hwhite b hb)
        have hends : ∀ b, isBlank b = true → b ∈ heredocEndChars := fun b hb =>
          (by decide : ∀ b ∈ whiteSpace, b ∈ heredocEndChars) b (isBlank_mem hb)
        rw [hcut', trimStringOf_padded hends hsub hall]

end Ignored

/-! ### What the lines behind tell -/

namespace ParseState

variable {p : ParseState}

/-- A line `]` is code exactly if the parser expects a command. -/
theorem mem_found_bracket (h : p.FoundRead) :
    p.lineNo + 1 ∈ (p.parseLine (ascii "]")).found ↔ p.state = .none := by
  have htext : lineText (ascii "]") = ascii "]" := by decide
  have hskip : skipsLine (ascii "]") = false := by decide
  have hlast : (ascii "]").getLast? ≠ some backslash := by decide
  rw [parseLine, htext, parseText, hskip]
  dsimp only
  rw [if_neg Bool.false_ne_true]
  cases hstate : p.state with
  | none =>
    have hquote : opensQuote (ascii "]") = false := by decide
    have hpos : findPos (ascii "<<") (ascii "]") = none := by decide
    have hcloses : finds (ascii "]") (ascii "]") = true := by decide
    have hends : (ascii "]").getLast? ≠ some rightParenthesis := by decide
    simp [parseCommand, hlast, hquote, heredocStart, hpos, reportCommand, closeCommand, hcloses,
      isCaseLabel, hends, openCommand]
  | backslash => simpa [hlast] using h.succ_notMem
  | quote =>
    have hpos : findPos [doubleQuote] (ascii "]") = none := by decide
    simpa [hpos] using h.succ_notMem
  | heredoc =>
    dsimp only
    split <;> simpa using h.succ_notMem

end ParseState

theorem skipsLineBasic_eq {s : Text} (hs : s ≠ []) :
    skipsLineBasic s = (exactLines.contains s || isFunctionKeyword s) := by
  rw [Bool.eq_iff_iff]
  simp only [skipsLineBasic, exactLines, hs, Bool.or_eq_true, decide_eq_true_eq,
    List.contains_iff_mem, List.mem_append, List.map_cons, List.map_nil, List.mem_cons,
    List.not_mem_nil, false_or, or_assoc, or_comm, or_left_comm]

section Necessary

variable {line comment : Text} {blank : Byte} {p : ParseState} {t w m : Text}

theorem skipsLineBasic_padded (hne : w ≠ []) (hw : ∀ b ∈ w, b ∈ whiteSpace) :
    skipsLineBasic (t ++ w) = isFunctionKeyword t := by
  rw [skipsLineBasic_eq (by simp [hne]), isFunctionKeyword, isFunctionKeyword]
  simp [padded_notMem hne hw, prefix_padded (p := ascii "function") hw (by decide)]

/-- A line with a comment is the same to `parseFileBasic` exactly if it is not one that is passed
over as a whole. -/
theorem skipsLineBasic_commented (hnumber : numberSign ∉ line) (hblank : isBlank blank = true) :
    skipsLineBasic (commentedText line blank) = skipsLineBasic (lineText line) ↔
      lineText line ∉ exactLines := by
  rcases dropWhile_blank line hblank with ⟨hnil, hnil'⟩ | ⟨hne, w, hw, hwhite, hcut⟩
  · rw [commentedText, hnil', lineText_plain hnumber, hnil]
    exact iff_of_true rfl (by decide)
  rw [commentedText, hcut, lineText_plain hnumber, skipsLineBasic_padded hw hwhite,
    skipsLineBasic_eq hne]
  by_cases hmem : trimString line ∈ exactLines
  · have hkeyword : isFunctionKeyword (trimString line) = false :=
      (by decide : ∀ s ∈ exactLines, isFunctionKeyword s = false) _ hmem
    simp [hmem, hkeyword]
  · simp [hmem]

/-- White space that is not all blank is taken for the marker of a here document. -/
theorem isHeredocMarker_white (hm : m = [] ∨ m = [hyphen]) (hw : ∀ b ∈ w, b ∈ whiteSpace)
    (hall : ¬∀ b ∈ w, isBlank b = true) : isHeredocMarker (heredocMarkerOf (m ++ w)) = true := by
  have hskip : skipHyphen (m ++ w) = w := by
    rcases hm with rfl | rfl
    · exact if_neg fun h => absurd (hw hyphen (List.mem_of_mem_head? h)) (by decide)
    · rfl
  have hne : w.dropWhile isBlank ≠ [] := fun hnil => hall (List.dropWhile_eq_nil_iff.mp hnil)
  obtain ⟨b, v, hv⟩ := List.exists_cons_of_ne_nil hne
  have hb : isBlank b = false := by
    have hhead := List.head_dropWhile_not isBlank hne
    simpa [hv] using hhead
  have hmem : b ∈ whiteSpace := hw b ((List.dropWhile_suffix _).subset (by rw [hv]; simp))
  rw [heredocMarkerOf, hskip, trimString, trimStringOf_all hw, hv,
    List.takeWhile_cons_of_pos (by simp [hb]), removeQuotes, if_neg, isHeredocMarker]
  · have hless : b ≠ lessThan := by
      rintro rfl
      revert hmem
      decide
    simp [hless]
  · rintro ⟨-, h, -⟩
    rw [List.head?_cons, Option.some.injEq, Option.some.injEq] at h
    rcases h with rfl | rfl <;> revert hmem <;> decide

theorem heredocMarkerOf_empty (hm : m = [] ∨ m = [hyphen]) :
    isHeredocMarker (heredocMarkerOf m) = false := by
  rcases hm with rfl | rfl <;> decide

theorem reportCommand_label (harith : (p.closeCommand t).arithmeticActive = false)
    (hcase : (p.closeCommand t).isCaseLabel t = true) :
    p.reportCommand t = p.closeCommand t := by
  rw [ParseState.reportCommand, harith, if_neg Bool.false_ne_true, if_pos hcase]

theorem mem_found_padded (hne : w ≠ []) (hw : ∀ b ∈ w, b ∈ whiteSpace)
    (harith : (p.closeCommand t).arithmeticActive = false) :
    p.lineNo ∈ (p.reportCommand (t ++ w)).found := by
  rw [ParseState.reportCommand_padded hne hw, harith]
  simp

/-- A label is no code, and with white space behind it it is. -/
theorem mem_found_label (hp : p.lineNo ∉ p.found) (hne : w ≠ []) (hw : ∀ b ∈ w, b ∈ whiteSpace)
    (hback : backslash ∉ t) (hquote : doubleQuote ∉ t) (hlabel : p.isLabelLine t = true) :
    p.lineNo ∉ (p.parseCommand t).found ∧ p.lineNo ∈ (p.parseCommand (t ++ w)).found := by
  have hquote' : doubleQuote ∉ t ++ w := fun h =>
    (List.mem_append.mp h).elim hquote fun h => absurd (hw _ h) (by decide)
  have hback' : t.getLast? ≠ some backslash := fun h => hback (List.mem_of_getLast? h)
  rw [ParseState.isLabelLine] at hlabel
  simp only [Bool.and_eq_true, Bool.not_eq_true'] at hlabel
  obtain ⟨⟨hdone, harith⟩, hcase⟩ := hlabel
  rw [ParseState.parseCommand, ParseState.parseCommand]
  dsimp only
  rw [if_neg (getLast?_padded hne hw (by decide)), if_neg hback', ParseState.opensQuote_false hquote',
    ParseState.opensQuote_false hquote, if_neg Bool.false_ne_true, if_neg Bool.false_ne_true,
    ParseState.openCommand_padded hw, ParseState.heredocStart_padded hw]
  cases hstart : (p.openCommand t).heredocStart t with
  | none =>
    rw [reportCommand_label harith hcase]
    exact ⟨hp, mem_found_padded hne hw harith⟩
  | some pos =>
    rw [hstart, Option.any_some, decide_eq_false_iff_not] at hdone
    have hle := ParseState.heredocStart_le hstart
    dsimp only
    rw [List.take_append_of_le_length (by omega), if_neg hdone, if_neg hdone, reportCommand_label]
    · exact ⟨hp, mem_found_padded hne hw harith⟩
    · exact harith
    · exact hcase

/-- A redirection at the end of a command opens a here document only with white space behind it that
is not all blank. -/
theorem state_redirection {pos : Nat} (hp : p.state = .none) (hne : w ≠ [])
    (hw : ∀ b ∈ w, b ∈ whiteSpace) (hback : backslash ∉ t) (hquote : doubleQuote ∉ t)
    (hstart : (p.openCommand t).heredocStart t = some pos)
    (hm : t.drop (pos + 2) = [] ∨ t.drop (pos + 2) = [hyphen])
    (hall : ¬∀ b ∈ w, isBlank b = true) :
    (p.parseCommand t).state = .none ∧ (p.parseCommand (t ++ w)).state = .heredoc := by
  have hquote' : doubleQuote ∉ t ++ w := fun h =>
    (List.mem_append.mp h).elim hquote fun h => absurd (hw _ h) (by decide)
  have hback' : t.getLast? ≠ some backslash := fun h => hback (List.mem_of_getLast? h)
  have hline : p.opensHeredoc t = none := by
    rw [ParseState.opensHeredoc, hstart]
    exact if_neg (by simp [heredocMarkerOf_empty hm])
  have hpadded : (p.opensHeredoc (t ++ w)).isSome = true := by
    rw [ParseState.opensHeredoc, ParseState.openCommand_padded hw,
      ParseState.heredocStart_padded hw, hstart]
    dsimp only
    rw [List.drop_append_of_le_length (ParseState.heredocStart_le hstart),
      if_pos (isHeredocMarker_white hm hw hall), Option.isSome_some]
  rw [ParseState.parseCommand_state, ParseState.parseCommand_state,
    if_neg (getLast?_padded hne hw (by decide)), if_neg hback', ParseState.opensQuote_false hquote',
    ParseState.opensQuote_false hquote, hline, hpadded]
  exact ⟨hp, rfl⟩

/-- A comment is ignored if the parser finds the same line and goes on in the same way. -/
theorem commentIgnored_of (hp : p.FoundRead) (hnumber : numberSign ∉ line)
    (hdouble : doubleQuote ∉ line) (hback : backslash ∉ line) (hblank : isBlank blank = true)
    (hexact : lineText line ∉ exactLines)
    (hfound : p.lineNo + 1 ∈ (p.parseText (commentedText line blank)).found ↔
      p.lineNo + 1 ∈ (p.parseText (lineText line)).found)
    (hstate : (p.parseText (commentedText line blank)).state = .none ↔
      (p.parseText (lineText line)).state = .none) : CommentIgnored p line blank := by
  rcases commentedText_cases hnumber hdouble hback hblank with
    ⟨hnil, -⟩ | ⟨hne, hquote, hback', w, hw, hwhite, hcut'⟩
  · have hskips : skipsLine (lineText line) = true := by rw [hnil]; rfl
    exact ⟨hexact, by simp [hskips], by simp [hskips], by simp [hskips]⟩
  have hdrop : (commentedText line blank).drop (lineText line).length = w := by
    rw [hcut', List.drop_left]
  have hskip : skipsLine (lineText line ++ w) = skipsLine (lineText line) := by
    rw [skipsLine_padded hw hwhite, skipsLine_notExact hne hexact]
  rw [hcut', ParseState.parseText, ParseState.parseText, hskip] at hfound hstate
  dsimp only at hfound hstate
  refine ⟨hexact, fun hnone hskips => ?_, fun hnone hskips pos hpos hm => ?_,
    fun hheredoc hskips hall => ?_⟩
  · rw [hskips, if_neg Bool.false_ne_true, if_neg Bool.false_ne_true, hnone] at hfound
    by_contra hlabel
    obtain ⟨hline, hpadded⟩ := mem_found_label (p := { p with state := .none, lineNo := p.lineNo + 1 })
      hp.succ_notMem hw hwhite hback' hquote (Bool.eq_true_of_not_eq_false hlabel)
    exact hline (hfound.mp hpadded)
  · rw [hskips, if_neg Bool.false_ne_true, if_neg Bool.false_ne_true, hnone] at hstate
    rw [hdrop]
    by_contra hall
    obtain ⟨hline, hpadded⟩ := state_redirection
      (p := { p with state := .none, lineNo := p.lineNo + 1 }) rfl hw hwhite hback' hquote hpos hm hall
    have hnone' := hstate.mpr hline
    rw [hpadded] at hnone'
    cases hnone'
  · rw [hskips, if_neg Bool.false_ne_true, if_neg Bool.false_ne_true, hheredoc] at hstate
    have hall' : ∀ b ∈ lineText line ++ w, b ∈ heredocEndChars := fun b hb =>
      (List.mem_append.mp hb).elim (hall b) fun hb =>
        (by decide : ∀ b ∈ whiteSpace, b ∈ heredocEndChars) b (hwhite b hb)
    dsimp only at hstate
    rw [← hcut', trimStringOf_trimmed _ (hcut' ▸ hall'), trimStringOf_text hnumber hall] at hstate
    have hsame : commentedText line blank = p.heredocMarker ↔ lineText line = p.heredocMarker := by
      by_cases hline : lineText line = p.heredocMarker <;>
        by_cases hcommented : commentedText line blank = p.heredocMarker <;>
        simp [hline, hcommented] at hstate ⊢
    have hdiffer : commentedText line blank ≠ lineText line := by
      rw [hcut']
      simpa using hw
    exact ⟨fun hline => hdiffer ((hsame.mpr hline).trans hline.symm), fun hcommented =>
      hdiffer (hcommented.trans (hsame.mp hcommented).symm)⟩

end Necessary

theorem sameLines_of_ignored {line comment : Text} {blank : Byte} (pre rest : List Text)
    (hcomment : lineText (commented line blank comment) = commentedText line blank)
    (hfull : (parseFileFull pre).parseText (commentedText line blank) =
      (parseFileFull pre).parseText (lineText line))
    (hbasic : skipsLineBasic (commentedText line blank) = skipsLineBasic (lineText line)) :
    SameLines (pre ++ line :: rest) (pre ++ commented line blank comment :: rest) := by
  have hfull' : parseFileFull (pre ++ commented line blank comment :: rest) =
      parseFileFull (pre ++ line :: rest) := by
    rw [parseFileFull_append, parseFileFull_append, List.foldl_cons, List.foldl_cons,
      ParseState.parseLine, ParseState.parseLine, hcomment, hfull]
  have hbasic' : parseFileBasic (pre ++ commented line blank comment :: rest) =
      parseFileBasic (pre ++ line :: rest) := by
    rw [parseFileBasic_append, parseFileBasic_append, List.foldl_cons, List.foldl_cons, hcomment,
      parseTextBasic, parseTextBasic, hbasic]
  rw [SameLines, hfull', hbasic']
  exact ⟨fun n => Iff.rfl, fun n => Iff.rfl⟩

/-- A comment behind a line leaves the lines that are code, whatever comes behind it, exactly if it
is ignored. -/
theorem sameLines_commented_iff (pre : List Text) {line comment : Text} {blank : Byte}
    (hnumber : numberSign ∉ line) (hdouble : doubleQuote ∉ line) (hsingle : singleQuote ∉ line)
    (hback : backslash ∉ line) (hblank : isBlank blank = true) (hbrace : rightBrace ∉ comment) :
    (∀ rest, SameLines (pre ++ line :: rest) (pre ++ commented line blank comment :: rest)) ↔
      CommentIgnored (parseFileFull pre) line blank := by
  have hcomment : lineText (commented line blank comment) = commentedText line blank :=
    lineText_commented hnumber hdouble hsingle hblank hbrace
  constructor
  · intro h
    have hexact : lineText line ∉ exactLines := by
      rw [← skipsLineBasic_commented hnumber hblank, ← hcomment]
      have hsame := (h []).2 ((parseFileBasic pre).2 + 1)
      rw [mem_parseFileBasic, mem_parseFileBasic] at hsame
      rw [Bool.eq_iff_iff, ← not_iff_not, Bool.not_eq_true, Bool.not_eq_true]
      exact hsame
    refine commentIgnored_of (ParseState.foundRead_parseFileFull pre) hnumber hdouble hback hblank
      hexact ?_ ?_
    · have hsame := (h []).1 ((parseFileFull pre).lineNo + 1)
      rwa [parseFileFull_snoc, parseFileFull_snoc, ParseState.parseLine, ParseState.parseLine,
        hcomment] at hsame
    · -- the line behind it tells whether the parser expects a command
      have hsame := (h [ascii "]"]).1 ((parseFileFull pre).lineNo + 1 + 1)
      have hnext : ∀ l, (parseFileFull pre).lineNo + 1 + 1 ∈
          (parseFileFull (pre ++ l :: [ascii "]"])).found ↔
            ((parseFileFull pre).parseText (lineText l)).state = .none := fun l => by
        have hread := (ParseState.foundRead_parseFileFull pre).parseText (s := lineText l)
        rw [List.append_cons, parseFileFull_snoc, parseFileFull_snoc,
          ← ParseState.mem_found_bracket hread, ParseState.parseText_lineNo]
        rfl
      rwa [hnext, hnext, hcomment] at hsame
  · intro h rest
    exact sameLines_of_ignored pre rest hcomment (parseText_commented hnumber hdouble hback hblank h)
      ((skipsLineBasic_commented hnumber hblank).mpr h.exact)

/-- A command with a comment. -/
theorem sameLines_commented_echo : SameLines ([] ++ ascii "echo a" :: [ascii "echo b"])
    ([] ++ commented (ascii "echo a") space (ascii "x") :: [ascii "echo b"]) :=
  (sameLines_commented_iff [] (by decide) (by decide) (by decide) (by decide) (by decide)
    (by decide)).mpr ⟨by decide, by decide, by decide, by decide⟩ [ascii "echo b"]

/-- `fi` with a blank behind it is not the keyword. -/
theorem not_sameLines_fi :
    ¬SameLines [ascii "if true", ascii "fi"] [ascii "if true", commented (ascii "fi") space (ascii "x")] := by
  rintro ⟨hfull, -⟩
  have hmem := (hfull 2).mp (by decide)
  revert hmem
  decide

end Kcov.Bash
