import Kcov.Lib.Search
import Kcov.Utils
import Mathlib.Data.List.DropRight

/-! More string helpers: white space at the ends of a text, and texts as JSON shows them. -/

namespace Kcov

open Bytes Search

def tab : Byte := 0x09
def lineFeed : Byte := 0x0a
def carriageReturn : Byte := 0x0d
def doubleQuote : Byte := 0x22
def numberSign : Byte := 0x23
def singleQuote : Byte := 0x27
def reverseSolidus : Byte := 0x5c

/-! ### Trimming -/

/-- The default of the second argument of `trim_string`. -/
def whiteSpace : List Byte := [space, tab, lineFeed, carriageReturn]

def isBlank (b : Byte) : Bool := b = space || b = tab

/-- `trim_string`. A text of which nothing would be left is not cut at its end. -/
def trimStringOf (trimEndChars : List Byte) (str : Text) : Text :=
  let cut := str.rdropWhile fun b => trimEndChars.contains b
  (if cut = [] then str else cut).dropWhile isBlank

def trimString (str : Text) : Text := trimStringOf whiteSpace str

section Trimming

variable {chars s a c : Text} {x : Byte}

theorem isBlank_mem {b : Byte} (h : isBlank b = true) : b ∈ whiteSpace := by
  rcases Bool.or_eq_true_iff.mp h with h | h
  · rw [of_decide_eq_true h]
    decide
  · rw [of_decide_eq_true h]
    decide

/-- A text is cut behind its last character that is not cut off. -/
theorem trimStringOf_append_cons (hx : x ∉ chars) (hblank : isBlank x = false) :
    trimStringOf chars (a ++ x :: c) =
      a.dropWhile isBlank ++ x :: c.rdropWhile fun b => chars.contains b := by
  have hcut : (a ++ x :: c).rdropWhile (fun b => chars.contains b) =
      a ++ x :: c.rdropWhile fun b => chars.contains b := by
    induction c using List.reverseRecOn with
    | nil => exact List.rdropWhile_concat_neg _ _ _ (by simpa using hx)
    | append_singleton c b ih =>
      rw [← List.cons_append, ← List.append_assoc, List.rdropWhile_concat, List.rdropWhile_concat]
      split
      · exact ih
      · rw [List.append_assoc, List.cons_append]
  rw [trimStringOf, hcut, if_neg (by simp), List.dropWhile_append]
  split
  next hnil => rw [List.dropWhile_cons_of_neg (by simp [hblank]), List.isEmpty_iff.mp hnil]; rfl
  next => rfl

theorem rdropWhile_contains (h : ∀ b ∈ c, b ∈ chars) :
    (c.rdropWhile fun b => chars.contains b) = [] :=
  List.rdropWhile_eq_nil_iff.mpr fun b hb => by simpa using h b hb

/-- Of a text that would be cut off as a whole only the blanks in front are. -/
theorem trimStringOf_all (h : ∀ b ∈ s, b ∈ chars) : trimStringOf chars s = s.dropWhile isBlank := by
  rw [trimStringOf, rdropWhile_contains h, if_pos rfl]

/-- A text is cut off as a whole, or it has a last character that is not cut off. -/
theorem all_or_last (chars s : Text) : (∀ b ∈ s, b ∈ chars) ∨
    ∃ a x c, s = a ++ x :: c ∧ x ∉ chars ∧ ∀ b ∈ c, b ∈ chars := by
  induction s using List.reverseRecOn with
  | nil => simp
  | append_singleton s b ih =>
    by_cases hb : b ∈ chars
    · rcases ih with hall | ⟨a, x, c, rfl, hx, hc⟩
      · left
        simpa [or_imp, forall_and, hb] using hall
      · right
        refine ⟨a, x, c ++ [b], by simp, hx, ?_⟩
        simpa [or_imp, forall_and, hb] using hc
    · exact Or.inr ⟨s, b, [], rfl, hb, by simp⟩

/-- More of the characters that are cut off make no difference behind a text with others. -/
theorem trimStringOf_padded (hblank : ∀ b, isBlank b = true → b ∈ chars) (hc : ∀ b ∈ c, b ∈ chars)
    (hs : ¬∀ b ∈ s, b ∈ chars) : trimStringOf chars (s ++ c) = trimStringOf chars s := by
  obtain ⟨a, x, back, rfl, hx, hback⟩ := (all_or_last chars s).resolve_left hs
  have hx' : isBlank x = false := Bool.eq_false_iff.mpr fun h => hx (hblank x h)
  rw [List.append_assoc, List.cons_append, trimStringOf_append_cons hx hx',
    trimStringOf_append_cons hx hx', rdropWhile_contains hback, rdropWhile_contains]
  intro b hb
  exact (List.mem_append.mp hb).elim (hback b) (hc b)

/-- A trimmed text that is not all white space does not end with any. -/
theorem getLast?_trimString (h : ∃ b ∈ trimString s, b ∉ whiteSpace) :
    ∀ b ∈ (trimString s).getLast?, b ∉ whiteSpace := by
  rcases all_or_last whiteSpace s with hall | ⟨a, x, c, rfl, hx, hc⟩
  · obtain ⟨b, hb, hb'⟩ := h
    rw [trimString, trimStringOf_all hall] at hb
    exact absurd (hall b ((List.dropWhile_suffix _).subset hb)) hb'
  · have hx' : isBlank x = false := Bool.eq_false_iff.mpr fun h => hx (isBlank_mem h)
    rw [trimString, trimStringOf_append_cons hx hx', rdropWhile_contains hc]
    intro b hb
    rw [List.getLast?_concat] at hb
    cases hb
    exact hx

/-- What is cut off a text: blanks in front, and other white space behind. -/
theorem trimString_split (s : Text) : ∃ front back, s = front ++ trimString s ++ back ∧
    (∀ b ∈ front, isBlank b = true) ∧ ∀ b ∈ back, b ∈ whiteSpace := by
  let cut := s.rdropWhile fun b => whiteSpace.contains b
  obtain ⟨back, hback, hs⟩ : ∃ back, (∀ b ∈ back, b ∈ whiteSpace) ∧
      s = (if cut = [] then s else cut) ++ back := by
    by_cases hcut : cut = []
    · exact ⟨[], by simp, by rw [if_pos hcut, List.append_nil]⟩
    · refine ⟨s.rtakeWhile fun b => whiteSpace.contains b, fun b hb => ?_, ?_⟩
      · simpa using List.mem_rtakeWhile_imp hb
      · rw [if_neg hcut]
        exact List.rdropWhile_append_rtakeWhile.symm
  refine ⟨(if cut = [] then s else cut).takeWhile isBlank, back, ?_, ?_, hback⟩
  · rw [trimString, trimStringOf, List.takeWhile_append_dropWhile]
    exact hs
  · exact fun b hb => List.mem_takeWhile_imp hb

theorem mem_of_mem_trimString {b : Byte} (h : b ∈ trimString s) : b ∈ s := by
  obtain ⟨front, back, hs, -, -⟩ := trimString_split s
  rw [hs]
  simp [h]

/-- Trimming cuts off no occurrence of a pattern without white space. -/
theorem occurrences_trimString {p : Text} (hp : p ≠ []) (hw : ∀ b ∈ whiteSpace, b ∉ p) :
    occurrences p (trimString s) = occurrences p s := by
  obtain ⟨front, back, hs, hfront, hback⟩ := trimString_split s
  conv_rhs => rw [hs]
  rw [occurrences_append_right hp fun b hb => hw b (hback b hb),
    occurrences_append_left hp fun b hb => hw b (isBlank_mem (hfront b hb))]

end Trimming

/-! ### Escapes -/

/-- The characters that `escape_json` escapes. -/
def escapeChars : List Byte := [doubleQuote, reverseSolidus, tab, carriageReturn, singleQuote]

def escapeChar (b : Byte) : Text :=
  if b = tab then ascii "\\t" else if escapeChars.contains b then [reverseSolidus, b] else [b]

/-- `escape_json`. -/
def escapeJson (str : Text) : Text := str.flatMap escapeChar

section Escapes

variable {a b : Byte} {s t : Text}

theorem escapeChar_ne_nil (b : Byte) : escapeChar b ≠ [] := by
  rw [escapeChar]
  split
  · decide
  split <;> simp

/-- The first escape of a text tells its first character. -/
theorem escapeChar_prefixFree (h : escapeChar a ++ s = escapeChar b ++ t) : a = b := by
  have hsolidus : ∀ c, escapeChars.contains c = false → c ≠ reverseSolidus := by
    rintro c hc rfl
    cases hc
  have hletter : ∀ c : Byte, escapeChars.contains c = true → c ≠ 0x74 := by
    rintro c hc rfl
    cases hc
  have htab : ascii "\\t" = [reverseSolidus, 0x74] := rfl
  simp only [escapeChar, htab] at h
  grind

theorem escapeJson_injective : Function.Injective escapeJson := by
  intro s t h
  induction s generalizing t with
  | nil =>
    cases t with
    | nil => rfl
    | cons b t =>
      rw [escapeJson, escapeJson, List.flatMap_nil, List.flatMap_cons] at h
      exact absurd (List.append_eq_nil_iff.mp h.symm).1 (escapeChar_ne_nil b)
  | cons a s ih =>
    cases t with
    | nil =>
      rw [escapeJson, escapeJson, List.flatMap_nil, List.flatMap_cons] at h
      exact absurd (List.append_eq_nil_iff.mp h).1 (escapeChar_ne_nil a)
    | cons b t =>
      rw [escapeJson, escapeJson, List.flatMap_cons, List.flatMap_cons] at h
      obtain rfl := escapeChar_prefixFree h
      rw [ih (List.append_cancel_left h)]

end Escapes

end Kcov
