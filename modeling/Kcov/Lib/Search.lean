import Mathlib.Data.List.Infix

/-! Searches in lists: where a pattern is found first, and how often it is found without overlaps
from the left. -/

namespace Search

variable {α : Type*} [DecidableEq α]

/-- The first position at which the pattern is found. -/
def findPos (pattern : List α) : List α → Option Nat
  | [] => if pattern = [] then some 0 else none
  | b :: s => if pattern <+: b :: s then some 0 else (findPos pattern s).map (· + 1)

/-- How often the pattern is found from the left, without overlaps, when the next `skip` elements
belong to a find. -/
def occurrencesFrom (pattern : List α) : Nat → List α → Nat
  | _, [] => 0
  | skip + 1, _ :: s => occurrencesFrom pattern skip s
  | 0, b :: s =>
    if pattern <+: b :: s then occurrencesFrom pattern (pattern.length - 1) s + 1
    else occurrencesFrom pattern 0 s

def occurrences (pattern s : List α) : Nat := occurrencesFrom pattern 0 s

variable {p s w : List α} {b : α} {i : Nat}

/-! ### Where a pattern is found -/

theorem findPos_cons : findPos p (b :: s) =
    if p <+: b :: s then some 0 else (findPos p s).map (· + 1) := rfl

theorem prefix_drop_of_findPos (h : findPos p s = some i) : p <+: s.drop i := by
  induction s generalizing i with
  | nil =>
    rw [findPos, Option.ite_none_right_eq_some] at h
    rw [h.1]
    exact List.nil_prefix
  | cons b s ih =>
    rw [findPos_cons] at h
    split at h
    next hp =>
      cases h
      exact hp
    next =>
      obtain ⟨j, hj, rfl⟩ := Option.map_eq_some_iff.mp h
      exact ih hj

theorem findPos_eq_none : findPos p s = none ↔ ¬p <:+: s := by
  induction s with
  | nil => simp [findPos]
  | cons b s ih =>
    rw [findPos_cons, List.infix_cons_iff, not_or]
    split
    next hp => simp [hp]
    next hp => simp [hp, ih]

theorem findPos_isSome : (findPos p s).isSome ↔ p <:+: s := by
  rw [← Option.ne_none_iff_isSome, ne_eq, findPos_eq_none, not_not]

/-! ### Text around a find -/

omit [DecidableEq α] in
/-- Elements that are not in the pattern do not complete it. -/
theorem prefix_append_iff (hw : ∀ b ∈ w, b ∉ p) : p <+: s ++ w ↔ p <+: s := by
  refine ⟨fun h => ?_, fun h => h.trans (List.prefix_append s w)⟩
  rcases List.prefix_or_prefix_of_prefix h (List.prefix_append s w) with hps | ⟨t, rfl⟩
  · exact hps
  · rw [List.prefix_append_right_inj] at h
    cases t with
    | nil => simp
    | cons b t => exact absurd (by simp) (hw b (h.subset List.mem_cons_self))

omit [DecidableEq α] in
theorem not_prefix_of_disjoint (hp : p ≠ []) (hw : ∀ b ∈ w, b ∉ p) (s : List α) :
    w ≠ [] → ¬p <+: w ++ s := by
  intro hne h
  obtain ⟨b, w, rfl⟩ := List.exists_cons_of_ne_nil hne
  obtain ⟨c, p, rfl⟩ := List.exists_cons_of_ne_nil hp
  rw [List.cons_append, List.cons_prefix_cons] at h
  exact hw b List.mem_cons_self (by simp [h.1])

theorem findPos_append_right (hp : p ≠ []) (hw : ∀ b ∈ w, b ∉ p) :
    findPos p (s ++ w) = findPos p s := by
  induction s with
  | nil =>
    rw [List.nil_append, findPos, if_neg hp, findPos_eq_none]
    intro h
    obtain ⟨b, hb⟩ := List.exists_mem_of_ne_nil p hp
    exact hw b (h.subset hb) hb
  | cons b s ih =>
    rw [List.cons_append, findPos_cons, findPos_cons, ih]
    exact if_congr (prefix_append_iff (s := b :: s) hw) rfl rfl

theorem infix_append_right (hp : p ≠ []) (hw : ∀ b ∈ w, b ∉ p) :
    p <:+: s ++ w ↔ p <:+: s := by
  rw [← findPos_isSome, findPos_append_right hp hw, findPos_isSome]

theorem findPos_singleton {v : List α} (h : b ∉ v) : findPos [b] (v ++ b :: s) = some v.length := by
  induction v with
  | nil => simp [findPos]
  | cons c v ih =>
    rw [List.mem_cons, not_or] at h
    rw [List.cons_append, findPos_cons, if_neg (by simp [h.1]), ih h.2]
    rfl

/-! ### How often a pattern is found -/

theorem occurrencesFrom_skip (n : Nat) : occurrencesFrom p n s = occurrences p (s.drop n) := by
  induction n generalizing s with
  | zero => rfl
  | succ n ih =>
    cases s with
    | nil => rfl
    | cons b s => exact ih

theorem occurrences_cons : occurrences p (b :: s) =
    if p <+: b :: s then occurrences p (s.drop (p.length - 1)) + 1 else occurrences p s := by
  rw [← occurrencesFrom_skip]
  rfl

theorem occurrences_of_none (h : findPos p s = none) : occurrences p s = 0 := by
  induction s with
  | nil => rfl
  | cons b s ih =>
    rw [findPos_cons] at h
    split at h
    · cases h
    next hp =>
      rw [occurrences_cons, if_neg hp]
      exact ih (Option.map_eq_none_iff.mp h)

/-- Behind the first find the count goes on. -/
theorem occurrences_of_find (hp : p ≠ []) (h : findPos p s = some i) :
    occurrences p s = occurrences p (s.drop (i + p.length)) + 1 := by
  induction s generalizing i with
  | nil =>
    rw [findPos, if_neg hp] at h
    cases h
  | cons b s ih =>
    have hlen : 0 < p.length := List.length_pos_iff.mpr hp
    rw [findPos_cons] at h
    rw [occurrences_cons]
    split at h
    next hpre =>
      cases h
      rw [if_pos hpre, Nat.zero_add, ← Nat.sub_add_cancel hlen, List.drop_succ_cons,
        Nat.add_sub_cancel]
    next hpre =>
      obtain ⟨j, hj, rfl⟩ := Option.map_eq_some_iff.mp h
      rw [if_neg hpre, ih hj, Nat.add_right_comm, List.drop_succ_cons]

theorem occurrences_eq_zero (hp : p ≠ []) : occurrences p s = 0 ↔ findPos p s = none := by
  refine ⟨fun h => ?_, occurrences_of_none⟩
  cases hfind : findPos p s with
  | none => rfl
  | some i => simp [occurrences_of_find hp hfind] at h

theorem occurrences_append_left (hp : p ≠ []) (hw : ∀ b ∈ w, b ∉ p) :
    occurrences p (w ++ s) = occurrences p s := by
  induction w with
  | nil => rfl
  | cons b w ih =>
    rw [List.cons_append, occurrences_cons, ← List.cons_append,
      if_neg (not_prefix_of_disjoint hp hw s (List.cons_ne_nil b w)),
      ih fun c hc => hw c (List.mem_cons_of_mem b hc)]

theorem occurrences_append_right (hp : p ≠ []) (hw : ∀ b ∈ w, b ∉ p) :
    occurrences p (s ++ w) = occurrences p s := by
  induction h : s.length using Nat.strong_induction_on generalizing s with
  | _ n ih =>
    cases hfind : findPos p s with
    | none =>
      rw [occurrences_of_none hfind, occurrences_of_none]
      rw [findPos_append_right hp hw, hfind]
    | some i =>
      have hlen : 0 < p.length := List.length_pos_iff.mpr hp
      have hdrop : i + p.length ≤ s.length := by
        have hle := (prefix_drop_of_findPos hfind).length_le
        rw [List.length_drop] at hle
        omega
      rw [occurrences_of_find hp hfind, occurrences_of_find hp
        (by rw [findPos_append_right hp hw, hfind]), List.drop_append_of_le_length hdrop,
        ih _ (by rw [List.length_drop]; omega) rfl]

end Search
