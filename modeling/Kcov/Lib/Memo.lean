import Mathlib.Logic.Function.Basic

/-! Answers that are computed once and kept in a table. -/

namespace Memo

variable {α β : Type*} [DecidableEq α]

/-- The answer in the table, or else a new one, which goes into the table. -/
def lookup (compute : α → β) (table : α → Option β) (a : α) : β × (α → Option β) :=
  match table a with
  | some b => (b, table)
  | none => (compute a, Function.update table a (some (compute a)))

omit [DecidableEq α] in
/-- What is in `table` stays in `table'`. -/
def Extends (table table' : α → Option β) : Prop := ∀ a b, table a = some b → table' a = some b

variable {compute : α → β} {table table' table'' : α → Option β} {a c : α} {b : β}

omit [DecidableEq α] in
theorem Extends.refl (table : α → Option β) : Extends table table := fun _ _ h => h

omit [DecidableEq α] in
theorem Extends.trans (h : Extends table table') (h' : Extends table' table'') :
    Extends table table'' := fun a b hb => h' a b (h a b hb)

theorem extends_update (hnone : table a = none) (b : β) :
    Extends table (Function.update table a (some b)) := by
  intro c d hd
  rw [Function.update_of_ne]
  · exact hd
  · rintro rfl
    rw [hnone] at hd
    cases hd

theorem lookup_eq (compute : α → β) (table : α → Option β) (a : α) : lookup compute table a =
    ((table a).getD (compute a), Function.update table a (some ((table a).getD (compute a)))) := by
  rw [lookup]
  split
  next b hsome => rw [hsome, Option.getD_some, ← hsome, Function.update_eq_self]
  next hnone => rw [hnone, Option.getD_none]

theorem lookup_extends (compute : α → β) (table : α → Option β) (a : α) :
    Extends table (lookup compute table a).2 := by
  rw [lookup]
  split
  · exact Extends.refl table
  next hnone => exact extends_update hnone _

/-- The answer is in the table afterwards. -/
theorem lookup_self (compute : α → β) (table : α → Option β) (a : α) :
    (lookup compute table a).2 a = some (lookup compute table a).1 := by
  rw [lookup]
  split
  next hsome => exact hsome
  next => exact Function.update_self a _ table

/-- Every answer was there before or is the new one. -/
theorem lookup_cases (h : (lookup compute table a).2 c = some b) :
    table c = some b ∨ (c = a ∧ b = compute a) := by
  rw [lookup] at h
  split at h
  · exact Or.inl h
  · dsimp only at h
    by_cases hc : c = a
    · rw [hc, Function.update_self, Option.some.injEq] at h
      exact Or.inr ⟨hc, h.symm⟩
    · rw [Function.update_of_ne hc] at h
      exact Or.inl h

end Memo
