import Mathlib.Algebra.BigOperators.Group.Finset.Basic
import Mathlib.Data.BitVec
import Mathlib.Data.Fintype.Basic
import Mathlib.Data.Set.Card

/-! Counting the elements of a list by the words that are positions in it, and counters of machine
words. -/

namespace Counting

variable {α : Type*} {w : Nat}

/-- The words of which `p` holds. -/
@[irreducible] def wordsWith (p : BitVec w → Bool) : Finset (BitVec w) :=
  (Finset.univ.map BitVec.equivFin.toEquiv.symm.toEmbedding).filter fun n => p n

@[simp] theorem mem_wordsWith {p : BitVec w → Bool} {n : BitVec w} :
    n ∈ wordsWith p ↔ p n = true := by
  unfold wordsWith
  rw [Finset.mem_filter, and_iff_right]
  exact Finset.mem_map.mpr ⟨BitVec.equivFin n, Finset.mem_univ _, rfl⟩

theorem card_filter_range (p : α → Bool) (xs : List α) :
    ((Finset.range xs.length).filter fun i => xs[i]?.any p).card = xs.countP p := by
  induction xs using List.reverseRecOn with
  | nil => rfl
  | append_singleton xs x ih =>
    have hsame : (Finset.range xs.length).filter (fun i => (xs ++ [x])[i]?.any p) =
        (Finset.range xs.length).filter fun i => xs[i]?.any p := by
      apply Finset.filter_congr
      intro i hi
      rw [List.getElem?_append_left (Finset.mem_range.mp hi)]
    rw [List.length_append, List.length_singleton, Finset.range_add_one, Finset.filter_insert,
      hsame, List.countP_append, List.countP_singleton, ← ih,
      List.getElem?_append_right le_rfl, Nat.sub_self]
    cases hp : p x with
    | true => simp [hp]
    | false => simp [hp]

/-- The words that are positions of elements with `p` are as many as these elements. -/
theorem card_filter_word (p : α → Bool) {xs : List α} (hlen : xs.length ≤ 2 ^ w) :
    (wordsWith fun n : BitVec w => xs[n.toNat]?.any p).card = xs.countP p := by
  rw [← card_filter_range]
  refine Finset.card_nbij BitVec.toNat ?_ ?_ ?_
  · intro n hn
    have hany := mem_wordsWith.mp hn
    have hlt : n.toNat < xs.length := by
      by_contra hge
      rw [List.getElem?_eq_none (by omega)] at hany
      simp at hany
    exact Finset.mem_filter.mpr ⟨Finset.mem_range.mpr hlt, hany⟩
  · exact fun n _ m _ h => BitVec.eq_of_toNat_eq h
  · intro i hi
    obtain ⟨hlt, hany⟩ := Finset.mem_filter.mp hi
    have hword : (BitVec.ofNat w i).toNat = i := by
      rw [BitVec.toNat_ofNat]
      exact Nat.mod_eq_of_lt ((Finset.mem_range.mp hlt).trans_le hlen)
    exact ⟨BitVec.ofNat w i, mem_wordsWith.mpr (by rwa [hword]), hword⟩

/-- A counter of `w` bits that counts the elements with `p`. -/
theorem foldl_count (p : α → Bool) (xs : List α) (n : BitVec w) :
    xs.foldl (fun out x => if p x then out + 1 else out) n = n + BitVec.ofNat w (xs.countP p) := by
  induction xs generalizing n with
  | nil => simp
  | cons x xs ih =>
    rw [List.foldl_cons, ih, List.countP_cons]
    cases hp : p x with
    | true =>
      rw [if_pos rfl, if_pos rfl, Nat.add_comm, BitVec.ofNat_add, ← BitVec.add_assoc]
      rfl
    | false => simp

/-- Two counts are the same word if their difference is a multiple of the modulus. -/
theorem ofNat_eq_ofNat_add_iff (a d : Nat) :
    BitVec.ofNat w a = BitVec.ofNat w (a + d) ↔ 2 ^ w ∣ d := by
  rw [← BitVec.toNat_inj, BitVec.toNat_ofNat, BitVec.toNat_ofNat]
  exact (Nat.modEq_iff_dvd' (Nat.le_add_right a d)).trans (by rw [Nat.add_sub_cancel_left])

/-! ### Pairs -/

section Pairs

variable {β γ : Type*}

theorem finite_pairs (mk : α → β → γ) (F : α → Finset β) (xs : List α) :
    {c | ∃ a ∈ xs, ∃ b ∈ F a, mk a b = c}.Finite := by
  induction xs with
  | nil => simp
  | cons a xs ih =>
    have hunion : {c | ∃ a' ∈ a :: xs, ∃ b ∈ F a', mk a' b = c} =
        mk a '' F a ∪ {c | ∃ a ∈ xs, ∃ b ∈ F a, mk a b = c} := by
      ext c
      simp
    rw [hunion]
    exact ((F a).finite_toSet.image _).union ih

/-- The elements of the sets of a family are counted set by set. -/
theorem ncard_pairs {mk : α → β → γ} (hmk : Function.Injective2 mk) (F : α → Finset β) {xs : List α}
    (hxs : xs.Nodup) :
    {c | ∃ a ∈ xs, ∃ b ∈ F a, mk a b = c}.ncard = (xs.map fun a => (F a).card).sum := by
  induction xs with
  | nil => simp
  | cons a xs ih =>
    obtain ⟨hnot, hxs⟩ := List.nodup_cons.mp hxs
    have hunion : {c | ∃ a' ∈ a :: xs, ∃ b ∈ F a', mk a' b = c} =
        mk a '' F a ∪ {c | ∃ a ∈ xs, ∃ b ∈ F a, mk a b = c} := by
      ext c
      simp
    have hdisjoint : Disjoint (mk a '' (F a : Set β)) {c | ∃ a ∈ xs, ∃ b ∈ F a, mk a b = c} := by
      rw [Set.disjoint_left]
      rintro c ⟨b, -, rfl⟩ ⟨a', ha', b', -, heq⟩
      exact hnot ((hmk heq).1 ▸ ha')
    rw [hunion, Set.ncard_union_eq hdisjoint ((F a).finite_toSet.image _) (finite_pairs mk F xs),
      ih hxs, Set.ncard_image_of_injective _ (hmk.right a), Set.ncard_coe_finset, List.map_cons,
      List.sum_cons]

end Pairs

end Counting
