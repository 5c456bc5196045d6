import Mathlib.Data.List.Basic
import Mathlib.Data.List.Pairwise
import Mathlib.Data.List.TakeWhile
import Mathlib.Data.Prod.Basic
import Mathlib.Order.Lattice

/-! Maps whose entries stand in the order of their keys: inserting, finding, and the bound from
which on the keys are not below a given one. -/

/-- The entries stand in the order of their keys, with one entry for a key. -/
structure OrderedMap (κ ν : Type*) [LinearOrder κ] where
  entries : List (κ × ν)
  sorted : entries.Pairwise (·.1 < ·.1)

namespace OrderedMap

variable {κ ν : Type*} [LinearOrder κ]

/-! ### Entries on the two sides of a key -/

section Entries

variable {l : List (κ × ν)} {k : κ} {e : κ × ν}

theorem mem_takeWhile (hsorted : l.Pairwise (·.1 < ·.1)) :
    e ∈ l.takeWhile (·.1 < k) ↔ e ∈ l ∧ e.1 < k := by
  induction l with
  | nil => simp
  | cons x l ih =>
    rw [List.pairwise_cons] at hsorted
    obtain ⟨hx, hl⟩ := hsorted
    by_cases hk : x.1 < k
    · rw [List.takeWhile_cons_of_pos (by simpa), List.mem_cons, List.mem_cons, ih hl]
      constructor
      · rintro (rfl | ⟨he, hek⟩)
        · exact ⟨.inl rfl, hk⟩
        · exact ⟨.inr he, hek⟩
      · rintro ⟨rfl | he, hek⟩
        · exact .inl rfl
        · exact .inr ⟨he, hek⟩
    · rw [List.takeWhile_cons_of_neg (by simpa using hk), List.mem_cons]
      refine iff_of_false List.not_mem_nil ?_
      rintro ⟨rfl | he, hek⟩
      · exact hk hek
      · exact hk ((hx e he).trans hek)

theorem mem_dropWhile (hsorted : l.Pairwise (·.1 < ·.1)) :
    e ∈ l.dropWhile (·.1 ≤ k) ↔ e ∈ l ∧ k < e.1 := by
  induction l with
  | nil => simp
  | cons x l ih =>
    rw [List.pairwise_cons] at hsorted
    obtain ⟨hx, hl⟩ := hsorted
    by_cases hk : x.1 ≤ k
    · rw [List.dropWhile_cons_of_pos (by simpa), ih hl, List.mem_cons]
      constructor
      · rintro ⟨he, hke⟩
        exact ⟨.inr he, hke⟩
      · rintro ⟨rfl | he, hke⟩
        · exact absurd hk (not_le.mpr hke)
        · exact ⟨he, hke⟩
    · rw [List.dropWhile_cons_of_neg (by simpa using hk), List.mem_cons]
      rw [not_le] at hk
      constructor
      · rintro (rfl | he)
        · exact ⟨.inl rfl, hk⟩
        · exact ⟨.inr he, hk.trans (hx e he)⟩
      · rintro ⟨he, -⟩
        exact he

end Entries

/-! ### The operations -/

def empty : OrderedMap κ ν := ⟨[], .nil⟩

def find? (m : OrderedMap κ ν) (k : κ) : Option ν :=
  (m.entries.find? (·.1 = k)).map Prod.snd

/-- The entry of the key is added, or replaced. -/
def insert (m : OrderedMap κ ν) (k : κ) (v : ν) : OrderedMap κ ν where
  entries := m.entries.takeWhile (·.1 < k) ++ (k, v) :: m.entries.dropWhile (·.1 ≤ k)
  sorted := by
    rw [List.pairwise_append, List.pairwise_cons]
    refine ⟨m.sorted.sublist (List.takeWhile_sublist _),
      ⟨fun e he => ((mem_dropWhile m.sorted).mp he).2,
        m.sorted.sublist (List.dropWhile_sublist _)⟩, ?_⟩
    intro e he e' he'
    have hlt : e.1 < k := ((mem_takeWhile m.sorted).mp he).2
    rw [List.mem_cons] at he'
    rcases he' with rfl | he'
    · exact hlt
    · exact hlt.trans ((mem_dropWhile m.sorted).mp he').2

/-- The position of the first entry whose key is not below `k`. -/
def lowerBound (m : OrderedMap κ ν) (k : κ) : Nat := (m.entries.takeWhile (·.1 < k)).length

variable {m : OrderedMap κ ν} {k k' : κ} {v v' : ν} {e : κ × ν}

theorem mem_insert : e ∈ (m.insert k v).entries ↔ e = (k, v) ∨ e ∈ m.entries ∧ e.1 ≠ k := by
  rw [insert, List.mem_append, List.mem_cons, mem_takeWhile m.sorted, mem_dropWhile m.sorted,
    ne_iff_lt_or_gt]
  tauto

/-- A key has one entry. -/
theorem eq_of_mem (h : (k, v) ∈ m.entries) (h' : (k, v') ∈ m.entries) : v = v' := by
  have hsymm : Std.Symm fun e e' : κ × ν => e.1 ≠ e'.1 := ⟨fun _ _ hne => hne.symm⟩
  have hne : m.entries.Pairwise fun e e' => e.1 ≠ e'.1 := m.sorted.imp fun hlt => ne_of_lt hlt
  by_contra hv
  exact hne.forall h h' (fun heq => hv (congrArg Prod.snd heq)) rfl

theorem find?_eq_none : m.find? k = none ↔ ∀ e ∈ m.entries, e.1 ≠ k := by
  rw [find?, Option.map_eq_none_iff, List.find?_eq_none]
  simp

/-! ### Where the bound stands -/

/-- The bound separates the entries whose keys are below `k` from the others. -/
theorem lt_lowerBound_iff {j : Nat} (h : m.entries[j]? = some e) :
    j < m.lowerBound k ↔ e.1 < k := by
  rw [lowerBound]
  have hsorted := m.sorted
  generalize m.entries = l at h hsorted
  induction l generalizing j with
  | nil => simp at h
  | cons x l ih =>
    rw [List.pairwise_cons] at hsorted
    obtain ⟨hx, hl⟩ := hsorted
    by_cases hk : x.1 < k
    · rw [List.takeWhile_cons_of_pos (by simpa), List.length_cons]
      cases j with
      | zero =>
        cases Option.some.inj h
        exact iff_of_true (Nat.succ_pos _) hk
      | succ j => exact Nat.add_lt_add_iff_right.trans (ih h hl)
    · rw [List.takeWhile_cons_of_neg (by simpa using hk)]
      refine iff_of_false (Nat.not_lt_zero j) ?_
      cases j with
      | zero =>
        cases Option.some.inj h
        exact hk
      | succ j => exact fun hek => hk ((hx e (List.mem_of_getElem? h)).trans hek)

theorem lowerBound_le_length : m.lowerBound k ≤ m.entries.length :=
  (List.takeWhile_sublist _).length_le

theorem lt_of_getElem? {i j : Nat} {e' : κ × ν} (h : m.entries[i]? = some e)
    (h' : m.entries[j]? = some e') (hij : i < j) : e.1 < e'.1 := by
  obtain ⟨hi, rfl⟩ := List.getElem?_eq_some_iff.mp h
  obtain ⟨hj, rfl⟩ := List.getElem?_eq_some_iff.mp h'
  exact List.pairwise_iff_getElem.mp m.sorted i j hi hj hij

theorem getElem?_lowerBound_of_mem (h : (k, v) ∈ m.entries) :
    m.entries[m.lowerBound k]? = some (k, v) := by
  obtain ⟨j, hj⟩ := List.mem_iff_getElem?.mp h
  have hle : m.lowerBound k ≤ j := by
    rw [← not_lt, lt_lowerBound_iff hj]
    exact lt_irrefl k
  rcases hle.eq_or_lt with heq | hlt
  · rw [heq]
    exact hj
  · obtain ⟨e, he⟩ : ∃ e, m.entries[m.lowerBound k]? = some e :=
      ⟨_, List.getElem?_eq_getElem (hlt.trans (List.getElem?_eq_some_iff.mp hj).1)⟩
    have hnot : ¬e.1 < k := by
      rw [← lt_lowerBound_iff he]
      exact lt_irrefl _
    exact absurd (lt_of_getElem? he hj hlt) hnot

/-- One step back from the bound stands the entry with the greatest key below `k`. -/
theorem getElem?_before_lowerBound (h : (k', v) ∈ m.entries) (hlt : k' < k)
    (hbetween : ∀ e ∈ m.entries, e.1 < k → e.1 ≤ k') :
    ∃ i, m.lowerBound k = i + 1 ∧ m.entries[i]? = some (k', v) := by
  obtain ⟨j, hj⟩ := List.mem_iff_getElem?.mp h
  have hjlt : j < m.lowerBound k := (lt_lowerBound_iff hj).mpr hlt
  obtain ⟨i, hi⟩ := Nat.exists_eq_add_one_of_ne_zero (Nat.ne_zero_of_lt hjlt)
  obtain ⟨e, he⟩ : ∃ e, m.entries[i]? = some e := by
    have hlength := m.lowerBound_le_length (k := k)
    exact ⟨_, List.getElem?_eq_getElem (by omega)⟩
  have hle : e.1 ≤ k' :=
    hbetween e (List.mem_of_getElem? he) ((lt_lowerBound_iff he).mp (by omega))
  have hij : ¬j < i := fun hji => (lt_of_getElem? hj he hji).not_ge hle
  have hji : j = i := by omega
  exact ⟨i, hi, hji ▸ hj⟩

end OrderedMap
