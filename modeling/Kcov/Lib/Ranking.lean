import Mathlib.Data.Finset.Card
import Mathlib.Data.Fintype.Card
import Mathlib.Data.List.Basic
import Mathlib.Data.List.Nodup

/-! The elements of a list, ranked by their first occurrences. -/

namespace Ranking

variable {α : Type*} [DecidableEq α]

/-- How many different elements a list has. -/
def distinct (l : List α) : Nat := l.eraseDups.length

/-- The elements are ranked from one on, in the order of their first occurrences. What does not
occur has the rank zero. -/
def rank (l : List α) (a : α) : Nat := if a ∈ l then l.eraseDups.idxOf a + 1 else 0

variable {l l' : List α} {a b : α}

/-! ### One element more -/

theorem eraseDups_snoc :
    (l ++ [b]).eraseDups = if b ∈ l then l.eraseDups else l.eraseDups ++ [b] := by
  rw [List.eraseDups_append, List.removeAll]
  by_cases hb : b ∈ l
  · simp [hb]
  · simp [hb, List.eraseDups_cons]

theorem mem_eraseDups : a ∈ l.eraseDups ↔ a ∈ l := by
  induction l using List.reverseRecOn with
  | nil => simp
  | append_singleton l b ih =>
    rw [eraseDups_snoc]
    by_cases hb : b ∈ l
    · rw [if_pos hb, ih, List.mem_append, List.mem_singleton]
      exact ⟨.inl, fun h => h.elim id fun heq => heq ▸ hb⟩
    · rw [if_neg hb, List.mem_append, List.mem_append, ih]

theorem nodup_eraseDups : l.eraseDups.Nodup := by
  induction l using List.reverseRecOn with
  | nil => simp
  | append_singleton l b ih =>
    rw [eraseDups_snoc]
    by_cases hb : b ∈ l
    · rwa [if_pos hb]
    · rw [if_neg hb, ← List.concat_eq_append]
      exact ih.concat (mt mem_eraseDups.mp hb)

theorem distinct_snoc : distinct (l ++ [b]) = if b ∈ l then distinct l else distinct l + 1 := by
  rw [distinct, eraseDups_snoc]
  by_cases hb : b ∈ l
  · rw [if_pos hb, if_pos hb, distinct]
  · rw [if_neg hb, if_neg hb, List.length_append, List.length_singleton, distinct]

theorem rank_snoc_of_mem (ha : a ∈ l) : rank (l ++ [b]) a = rank l a := by
  rw [rank, if_pos (List.mem_append_left _ ha), rank, if_pos ha, eraseDups_snoc]
  by_cases hb : b ∈ l
  · rw [if_pos hb]
  · rw [if_neg hb, List.idxOf_append_of_mem (mem_eraseDups.mpr ha)]

theorem rank_snoc_self (hb : b ∉ l) : rank (l ++ [b]) b = distinct l + 1 := by
  rw [rank, if_pos (by simp), eraseDups_snoc, if_neg hb,
    List.idxOf_append_of_notMem (mt mem_eraseDups.mp hb), List.idxOf_cons_self, Nat.add_zero,
    distinct]

theorem rank_snoc_of_ne (h : a ≠ b) : rank (l ++ [b]) a = rank l a := by
  by_cases ha : a ∈ l
  · exact rank_snoc_of_mem ha
  · rw [rank, if_neg (by simp [ha, h]), rank, if_neg ha]

/-! ### Ranks -/

theorem rank_eq_zero : rank l a = 0 ↔ a ∉ l := by
  rw [rank]
  by_cases ha : a ∈ l
  · simp [ha]
  · simp [ha]

theorem rank_append_of_mem (ha : a ∈ l) : rank (l ++ l') a = rank l a := by
  induction l' using List.reverseRecOn with
  | nil => rw [List.append_nil]
  | append_singleton l' b ih =>
    rw [← List.append_assoc, rank_snoc_of_mem (List.mem_append_left _ ha), ih]

theorem rank_le_distinct : rank l a ≤ distinct l := by
  rw [rank, distinct]
  by_cases ha : a ∈ l
  · rw [if_pos ha]
    exact List.idxOf_lt_length_of_mem (mem_eraseDups.mpr ha)
  · rw [if_neg ha]
    exact Nat.zero_le _

theorem eq_of_rank_eq (ha : a ∈ l) (h : rank l a = rank l b) : a = b := by
  have hb : b ∈ l := by
    by_contra hb
    rw [rank_eq_zero.mpr hb, rank_eq_zero] at h
    exact h ha
  rw [rank, rank, if_pos ha, if_pos hb, Nat.add_right_cancel_iff] at h
  exact (List.idxOf_inj (mem_eraseDups.mpr ha)).mp h

theorem exists_rank_eq {n : Nat} (hpos : 0 < n) (hle : n ≤ distinct l) :
    ∃ a ∈ l, rank l a = n := by
  rw [distinct] at hle
  have hlt : n - 1 < l.eraseDups.length := by omega
  have hmem : l.eraseDups[n - 1] ∈ l := mem_eraseDups.mp (List.getElem_mem hlt)
  refine ⟨_, hmem, ?_⟩
  rw [rank, if_pos hmem, nodup_eraseDups.idxOf_getElem]
  omega

/-- Of two elements the one that occurs first has the smaller rank. -/
theorem rank_lt_rank (ha : a ∈ l) (hb : b ∈ l) : rank l a < rank l b ↔ l.idxOf a < l.idxOf b := by
  induction l using List.reverseRecOn with
  | nil => simp at ha
  | append_singleton l c ih =>
    have hlast : ∀ x ∈ l ++ [c], x ∉ l → x = c := by
      intro x hx hnot
      simpa [hnot] using hx
    by_cases hal : a ∈ l
    · rw [rank_snoc_of_mem hal, List.idxOf_append_of_mem hal]
      by_cases hbl : b ∈ l
      · rw [rank_snoc_of_mem hbl, List.idxOf_append_of_mem hbl, ih hal hbl]
      · cases hlast b hb hbl
        rw [rank_snoc_self hbl, List.idxOf_append_of_notMem hbl]
        exact iff_of_true (Nat.lt_succ_of_le rank_le_distinct)
          (Nat.lt_add_right _ (List.idxOf_lt_length_of_mem hal))
    · cases hlast a ha hal
      rw [rank_snoc_self hal, List.idxOf_append_of_notMem hal, List.idxOf_cons_self, Nat.add_zero]
      by_cases hbl : b ∈ l
      · rw [rank_snoc_of_mem hbl, List.idxOf_append_of_mem hbl]
        exact iff_of_false (Nat.not_lt.mpr (rank_le_distinct.trans (Nat.le_succ _)))
          (Nat.not_lt.mpr (List.idxOf_lt_length_of_mem hbl).le)
      · cases hlast b hb hbl
        rw [rank_snoc_self hal, List.idxOf_append_of_notMem hal, List.idxOf_cons_self, Nat.add_zero]
        exact iff_of_false (lt_irrefl _) (lt_irrefl _)

/-! ### How many there can be -/

/-- What has a name in a finite type other than `x` has less elements than the type. -/
theorem distinct_lt_card {ι : Type*} [Fintype ι] {f : α → ι} {x : ι} (hx : ∀ a ∈ l, f a ≠ x)
    (hf : ∀ a ∈ l, ∀ b ∈ l, f a = f b → a = b) : distinct l < Fintype.card ι := by
  have hnodup : (x :: l.eraseDups.map f).Nodup := by
    rw [List.nodup_cons, List.nodup_map_iff_inj_on nodup_eraseDups]
    refine ⟨fun hmem => ?_, fun a ha b hb => hf a (mem_eraseDups.mp ha) b (mem_eraseDups.mp hb)⟩
    obtain ⟨a, ha, heq⟩ := List.mem_map.mp hmem
    exact hx a (mem_eraseDups.mp ha) heq
  have hle := hnodup.length_le_card
  rwa [List.length_cons, List.length_map] at hle

end Ranking
