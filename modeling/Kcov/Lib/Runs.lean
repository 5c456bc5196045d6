import Mathlib.Data.List.Infix

/-! Properties of every step of a run. -/

namespace Runs

variable {ε : Type*} {P Q : List ε → ε → Prop}

/-- `P` holds of every event of `evs` together with the events before it. -/
def AllSteps (P : List ε → ε → Prop) (evs : List ε) : Prop :=
  ∀ pre ev, pre ++ [ev] <+: evs → P pre ev

theorem allSteps_nil : AllSteps P [] := by
  intro pre ev h
  simp at h

theorem allSteps_snoc {evs : List ε} {ev : ε} :
    AllSteps P (evs ++ [ev]) ↔ AllSteps P evs ∧ P evs ev := by
  constructor
  · intro h
    exact ⟨fun pre e hpre => h pre e (hpre.trans (List.prefix_append evs [ev])),
      h evs ev (List.prefix_refl _)⟩
  · rintro ⟨h, hlast⟩ pre e hpre
    rw [List.prefix_concat_iff] at hpre
    rcases hpre with heq | hpre
    · obtain ⟨rfl, hev⟩ := List.append_inj' heq rfl
      cases hev
      exact hlast
    · exact h pre e hpre

theorem allSteps_iff_getElem {evs : List ε} :
    AllSteps P evs ↔ ∀ i (h : i < evs.length), P (evs.take i) evs[i] := by
  constructor
  · intro h i hi
    apply h
    rw [List.take_concat_get' evs i hi]
    exact List.take_prefix _ _
  · intro h pre ev hpre
    obtain ⟨rest, rfl⟩ := hpre
    have hi : pre.length < (pre ++ [ev] ++ rest).length := by simp
    have hP := h pre.length hi
    simpa using hP

/-- Where each step decides whether `M` goes on to hold, every step does exactly if `M` always
holds. -/
theorem forall_prefix_iff {M : List ε → Prop} {evs : List ε} (hnil : M [])
    (hstep : ∀ pre ev, pre ++ [ev] <+: evs → M pre → (M (pre ++ [ev]) ↔ P pre ev)) :
    (∀ pre, pre <+: evs → M pre) ↔ AllSteps P evs := by
  constructor
  · intro h pre ev hpre
    have hbefore : pre <+: evs := (List.prefix_append pre [ev]).trans hpre
    exact (hstep pre ev hpre (h pre hbefore)).mp (h _ hpre)
  · intro h pre hpre
    induction pre using List.reverseRecOn with
    | nil => exact hnil
    | append_singleton pre ev ih =>
      have hbefore : M pre := ih ((List.prefix_append pre [ev]).trans hpre)
      exact (hstep pre ev hpre hbefore).mpr (h pre ev hpre)

/-! ### Runs that note the numbers of some events -/

/-- The events are numbered from one on. -/
structure Notes (found : List ε → List Nat) : Prop where
  nil : found [] = []
  snoc : ∀ pre ev, found (pre ++ [ev]) = found pre ∨
    found (pre ++ [ev]) = found pre ++ [pre.length + 1]

section Notes

variable {found found' : List ε → List Nat}

theorem Notes.le (h : Notes found) (evs : List ε) : ∀ n ∈ found evs, n ≤ evs.length := by
  induction evs using List.reverseRecOn with
  | nil => simp [h.nil]
  | append_singleton pre ev ih =>
    have hle : ∀ n ∈ found pre, n ≤ (pre ++ [ev]).length := fun n hn =>
      (ih n hn).trans (by simp)
    rcases h.snoc pre ev with hsame | hnew
    · rwa [hsame]
    · rw [hnew]
      simpa [or_imp, forall_and] using hle

theorem Notes.pos (h : Notes found) (evs : List ε) : ∀ n ∈ found evs, 0 < n := by
  induction evs using List.reverseRecOn with
  | nil => simp [h.nil]
  | append_singleton pre ev ih =>
    rcases h.snoc pre ev with hsame | hnew
    · rwa [hsame]
    · rw [hnew]
      simpa [or_imp, forall_and] using ih

/-- What is noted of an event stays noted, and nothing else is noted of the events before it. -/
theorem Notes.mem_snoc (h : Notes found) {pre : List ε} {n : Nat} (hn : n ≤ pre.length) (ev : ε) :
    n ∈ found (pre ++ [ev]) ↔ n ∈ found pre := by
  rcases h.snoc pre ev with hsame | hnew
  · rw [hsame]
  · rw [hnew, List.mem_append, List.mem_singleton, or_iff_left (by omega)]

/-- Two runs note the same numbers exactly if they agree on every event. -/
theorem Notes.same_iff (h : Notes found) (h' : Notes found') (evs : List ε) :
    (∀ n, n ∈ found evs ↔ n ∈ found' evs) ↔ AllSteps (fun pre ev =>
      (pre.length + 1 ∈ found (pre ++ [ev]) ↔ pre.length + 1 ∈ found' (pre ++ [ev]))) evs := by
  induction evs using List.reverseRecOn with
  | nil => simp [h.nil, h'.nil, allSteps_nil]
  | append_singleton pre ev ih =>
    rw [allSteps_snoc, ← ih]
    constructor
    · intro hsame
      refine ⟨fun n => ?_, hsame _⟩
      by_cases hn : n ≤ pre.length
      · rw [← h.mem_snoc hn ev, ← h'.mem_snoc hn ev]
        exact hsame n
      · exact iff_of_false (fun hmem => hn (h.le pre n hmem)) fun hmem => hn (h'.le pre n hmem)
    · rintro ⟨hbefore, hlast⟩ n
      by_cases hn : n ≤ pre.length
      · rw [h.mem_snoc hn ev, h'.mem_snoc hn ev]
        exact hbefore n
      · by_cases heq : n = pre.length + 1
        · rw [heq]
          exact hlast
        · have hout : ∀ m ≤ (pre ++ [ev]).length, n ≠ m := by
            intro m hm
            rw [List.length_append, List.length_singleton] at hm
            omega
          exact iff_of_false (fun hmem => hout n (h.le _ n hmem) rfl)
            fun hmem => hout n (h'.le _ n hmem) rfl

end Notes

/-! ### Runs that can stop -/

section Option

variable {σ : Type*} {step : σ → ε → Option σ} {s t : σ}

theorem foldlM_snoc {evs : List ε} {ev : ε} : (evs ++ [ev]).foldlM step s = some t ↔
    ∃ u, evs.foldlM step s = some u ∧ step u ev = some t := by
  rw [List.foldlM_append, Option.bind_eq_bind, Option.bind_eq_some_iff]
  simp

/-- What every step keeps, a run keeps. -/
theorem foldlM_invariant {I : σ → Prop} (hstep : ∀ s ev t, I s → step s ev = some t → I t)
    {evs : List ε} (h : I s) (hrun : evs.foldlM step s = some t) : I t := by
  induction evs generalizing s with
  | nil =>
    cases hrun
    exact h
  | cons ev evs ih =>
    rw [List.foldlM_cons, Option.bind_eq_bind, Option.bind_eq_some_iff] at hrun
    obtain ⟨u, hu, hrun⟩ := hrun
    exact ih (hstep s ev u h hu) hrun

end Option

/-! ### Runs that can fail -/

section Except

variable {α β σ φ : Type} {A : φ → Prop}

/-- Either there is no failure, or it is one of those that are allowed. -/
def Allowed (A : φ → Prop) : Except φ α → Prop
  | .ok _ => True
  | .error e => A e

theorem allowed_bind {r : Except φ α} {f : α → Except φ β} :
    Allowed A (r >>= f) ↔ Allowed A r ∧ ∀ a, r = .ok a → Allowed A (f a) := by
  cases r with
  | error e => exact ⟨fun h => ⟨h, fun a ha => by cases ha⟩, fun h => h.1⟩
  | ok a =>
    refine ⟨fun h => ⟨trivial, fun b hb => ?_⟩, fun h => h.2 a rfl⟩
    cases hb
    exact h

/-- A run fails as it may if each of its steps does, as far as it gets. -/
theorem allowed_foldlM {step : σ → ε → Except φ σ} {evs : List ε} {s : σ} :
    Allowed A (evs.foldlM step s) ↔
      AllSteps (fun pre ev => ∀ t, pre.foldlM step s = .ok t → Allowed A (step t ev)) evs := by
  induction evs using List.reverseRecOn with
  | nil => exact ⟨fun _ => allSteps_nil, fun _ => trivial⟩
  | append_singleton pre ev ih =>
    have hlast : ∀ t, [ev].foldlM step t = step t ev := fun t => bind_pure _
    rw [List.foldlM_append, allowed_bind, allSteps_snoc, ih]
    simp only [hlast]

end Except

end Runs
