import Mathlib.Data.List.MinMax

/-! The first of the greatest elements of a list, and of the elements that a partial function gives
for a list. -/

namespace FirstMax

variable {α β γ : Type*} [LinearOrder γ]

/-- `a` is the first of the greatest elements of `l`. -/
def IsFirstMax (f : α → γ) (l : List α) (a : α) : Prop :=
  ∃ before after, l = before ++ a :: after ∧ (∀ b ∈ before, f b < f a) ∧ ∀ b ∈ after, f b ≤ f a

variable {f : α → γ} {l : List α} {a b : α}

theorem IsFirstMax.le (h : IsFirstMax f l a) (hb : b ∈ l) : f b ≤ f a := by
  obtain ⟨before, after, rfl, hbefore, hafter⟩ := h
  rw [List.mem_append, List.mem_cons] at hb
  rcases hb with hb | rfl | hb
  · exact (hbefore b hb).le
  · exact le_rfl
  · exact hafter b hb

theorem IsFirstMax.unique (ha : IsFirstMax f l a) (hb : IsFirstMax f l b) : a = b := by
  have hle := ha.le (b := b) (by obtain ⟨_, _, rfl, -⟩ := hb; simp)
  have hge := hb.le (b := a) (by obtain ⟨_, _, rfl, -⟩ := ha; simp)
  obtain ⟨before, after, rfl, hbefore, -⟩ := ha
  obtain ⟨before', after', heq, hbefore', -⟩ := hb
  rcases List.append_eq_append_iff.mp heq with ⟨mid, rfl, hmid⟩ | ⟨mid, rfl, hmid⟩
  · cases mid with
    | nil => exact (List.cons.inj hmid).1
    | cons c mid =>
      obtain ⟨rfl, -⟩ := List.cons.inj hmid
      exact absurd (hbefore' a (by simp)) hle.not_gt
  · cases mid with
    | nil => exact (List.cons.inj hmid).1.symm
    | cons c mid =>
      obtain ⟨rfl, -⟩ := List.cons.inj hmid
      exact absurd (hbefore b (by simp)) hge.not_gt

/-- The scan that keeps the greatest element so far finds it. -/
theorem isFirstMax_of_argmax (h : l.argmax f = some a) : IsFirstMax f l a := by
  induction l using List.reverseRecOn generalizing a with
  | nil => cases h
  | append_singleton l c ih =>
    rw [List.argmax_concat] at h
    cases hl : l.argmax f with
    | none =>
      rw [hl, Option.some.injEq] at h
      obtain rfl := List.argmax_eq_none.mp hl
      exact ⟨[], [], by rw [h], by simp, by simp⟩
    | some m =>
      have hm := ih hl
      rw [hl] at h
      dsimp only at h
      split at h
      next hlt =>
        obtain rfl := Option.some.inj h
        exact ⟨l, [], rfl, fun b hb => (hm.le hb).trans_lt hlt, by simp⟩
      next hnot =>
        obtain rfl := Option.some.inj h
        obtain ⟨before, after, rfl, hbefore, hafter⟩ := hm
        refine ⟨before, after ++ [c], by simp, hbefore, fun b hb => ?_⟩
        rcases List.mem_append.mp hb with hb | hb
        · exact hafter b hb
        · rw [List.mem_singleton.mp hb]
          exact not_lt.mp hnot

theorem argmax_eq_some_iff : l.argmax f = some a ↔ IsFirstMax f l a := by
  refine ⟨isFirstMax_of_argmax, fun h => ?_⟩
  cases hl : l.argmax f with
  | none =>
    obtain ⟨before, after, rfl, -⟩ := h
    simp at hl
  | some m => rw [(isFirstMax_of_argmax hl).unique h]

/-- The first of the greatest elements that `g` gives, where it is given. -/
theorem isFirstMax_filterMap {g : β → Option α} {us : List β} : IsFirstMax f (us.filterMap g) a ↔
    ∃ before u after, us = before ++ u :: after ∧ g u = some a ∧
      (∀ v ∈ before, ∀ b, g v = some b → f b < f a) ∧
        ∀ v ∈ after, ∀ b, g v = some b → f b ≤ f a := by
  constructor
  · rintro ⟨before, after, heq, hbefore, hafter⟩
    obtain ⟨us₁, us₂, rfl, rfl, htail⟩ := List.filterMap_eq_append_iff.mp heq
    obtain ⟨none₁, u, us₃, rfl, hnone, hu, rfl⟩ := List.filterMap_eq_cons_iff.mp htail
    refine ⟨us₁ ++ none₁, u, us₃, by simp, hu, fun v hv b hb => ?_, fun v hv b hb => ?_⟩
    · rcases List.mem_append.mp hv with hv | hv
      · exact hbefore b (List.mem_filterMap.mpr ⟨v, hv, hb⟩)
      · rw [hnone v hv] at hb
        cases hb
    · exact hafter b (List.mem_filterMap.mpr ⟨v, hv, hb⟩)
  · rintro ⟨before, u, after, rfl, hu, hbefore, hafter⟩
    refine ⟨before.filterMap g, after.filterMap g, ?_, fun b hb => ?_, fun b hb => ?_⟩
    · rw [List.filterMap_append, List.filterMap_cons, hu]
    · obtain ⟨v, hv, hvb⟩ := List.mem_filterMap.mp hb
      exact hbefore v hv b hvb
    · obtain ⟨v, hv, hvb⟩ := List.mem_filterMap.mp hb
      exact hafter v hv b hvb

end FirstMax
