import Kcov.Reporter.Exclusion

/-! The pairs of texts between which regions are excluded, and where a region ends. -/

namespace Kcov

open Bytes

/-- The value of `exclude-region` is the list of the pairs. -/
def IsRegionList (excludeRegion : Text) (pairs : List (Text × Text)) : Prop :=
  (splitString comma excludeRegion).map (splitString colon) = pairs.map fun p => [p.1, p.2]

/-- The pairs, with the one that is always there. -/
def markerPairs (pairs : List (Text × Text)) : List (Text × Text) :=
  (ascii "LCOV_EXCL_START", ascii "LCOV_EXCL_STOP") :: pairs

def markers (pairs : List (Text × Text)) : List Text :=
  (markerPairs pairs).flatMap fun p => [p.1, p.2]

/-- No marker is part of another one, and no line of a file holds two. -/
structure MarkersApart (pairs : List (Text × Text)) (texts : List Text) : Prop where
  apart : (markers pairs).Pairwise fun s t => ¬s <:+: t ∧ ¬t <:+: s
  single : ∀ text ∈ texts, ∀ s ∈ markers pairs, ∀ t ∈ markers pairs,
    s <:+: text → t <:+: text → s = t

/-- The text at position `k` holds the marker. -/
def HoldsAt (texts : List Text) (k : Nat) (marker : Text) : Prop :=
  ∃ text, texts[k]? = some text ∧ marker <:+: text

/-- The line at position `a` holds the start of the pair, and the one at `b` is the next one with
its end. -/
structure IsRegion (pairs : List (Text × Text)) (texts : List Text) (p : Text × Text) (a b : Nat) :
    Prop where
  pair : p ∈ markerPairs pairs
  start : HoldsAt texts a p.1
  stop : HoldsAt texts b p.2
  ordered : a < b
  next : ∀ k, a < k → k < b → ¬HoldsAt texts k p.2

namespace FileLineHandler

/-- The lines of a region are excluded, and the line behind it is not, if no other region started
inside and it holds no marker of its own. -/
structure EndsAtOwnMarker (h : FileLineHandler) (path : Text) (texts : List Text) (a b : Nat) :
    Prop where
  excluded : ∀ k, a ≤ k → k ≤ b → (h.verdicts path texts)[k]? = some false
  ends : (∀ k, a < k → k ≤ b → h.starts texts k = 0) →
    (h.verdicts path texts)[b + 1]? = some false →
      texts[b + 1]?.any h.ignores = true ∨ h.starts texts (b + 1) = 1

/-! ### The patterns of the pairs -/

section Create

variable {excludeLine excludeRegion : Text} {pairs : List (Text × Text)}

theorem patterns_foldl_addRegion {regions : List Text}
    (hpairs : regions.map (splitString colon) = pairs.map fun p => [p.1, p.2])
    (h : FileLineHandler) :
    (regions.foldl addRegion h).lineBeginPatterns = h.lineBeginPatterns ++ pairs.map Prod.fst ∧
      (regions.foldl addRegion h).lineEndPatterns = h.lineEndPatterns ++ pairs.map Prod.snd := by
  induction regions generalizing h pairs with
  | nil =>
    cases pairs with
    | nil => exact ⟨(List.append_nil _).symm, (List.append_nil _).symm⟩
    | cons p pairs => cases hpairs
  | cons region regions ih =>
    cases pairs with
    | nil => cases hpairs
    | cons p pairs =>
      obtain ⟨hp, hrest⟩ := List.cons.inj hpairs
      obtain ⟨hfirst, hlast⟩ := ih hrest (h.addRegion region)
      rw [List.foldl_cons, hfirst, hlast, List.map_cons, List.map_cons]
      have hadd : (h.addRegion region).lineBeginPatterns = h.lineBeginPatterns ++ [p.1] ∧
          (h.addRegion region).lineEndPatterns = h.lineEndPatterns ++ [p.2] := by
        unfold addRegion
        rw [hp]
        exact ⟨rfl, rfl⟩
      rw [hadd.1, hadd.2, List.append_assoc, List.append_assoc]
      exact ⟨rfl, rfl⟩

theorem patterns_create (hpairs : IsRegionList excludeRegion pairs) :
    (create excludeLine excludeRegion).lineBeginPatterns = (markerPairs pairs).map Prod.fst ∧
      (create excludeLine excludeRegion).lineEndPatterns = (markerPairs pairs).map Prod.snd := by
  unfold create
  obtain ⟨hfirst, hlast⟩ := patterns_foldl_addRegion hpairs _
  rw [hfirst, hlast]
  exact ⟨rfl, rfl⟩

end Create

/-! ### The markers in a region -/

section Markers

variable {h : FileLineHandler} {path : Text} {texts : List Text} {i k : Nat}

theorem starts_eq_one : h.starts texts k = 1 ↔ ∃ s ∈ h.lineBeginPatterns, HoldsAt texts k s := by
  unfold starts HoldsAt
  cases texts[k]? with
  | none => simp
  | some text => simp [finds]

theorem stops_eq_one : h.stops texts k = 1 ↔ ∃ s ∈ h.lineEndPatterns, HoldsAt texts k s := by
  unfold stops HoldsAt
  cases texts[k]? with
  | none => simp
  | some text => simp [finds]

theorem starts_eq_zero_or_one (h : FileLineHandler) (texts : List Text) (k : Nat) :
    h.starts texts k = 0 ∨ h.starts texts k = 1 := by
  unfold starts
  split
  · exact Or.inr rfl
  · exact Or.inl rfl

theorem stops_eq_zero_or_one (h : FileLineHandler) (texts : List Text) (k : Nat) :
    h.stops texts k = 0 ∨ h.stops texts k = 1 := by
  unfold stops
  split
  · exact Or.inr rfl
  · exact Or.inl rfl

theorem levelAt_succ (h : FileLineHandler) (texts : List Text) (i : Nat) :
    h.levelAt texts (i + 1) = max 0 (h.levelAt texts i + (h.starts texts i - h.stops texts i)) :=
  rfl

theorem opened_le_of_levelAt (hlevel : h.levelAt texts i = 0) : ∀ j ≤ i, h.opened texts j i ≤ 0 := by
  intro j hj
  by_contra hpos
  have hlt : 0 < h.levelAt texts i := Counter.lt_level_iff.mpr ⟨j, hj, not_le.mp hpos⟩
  omega

theorem lt_length_of_holdsAt {s : Text} (hs : HoldsAt texts k s) : k < texts.length := by
  obtain ⟨text, htext, -⟩ := hs
  exact (List.getElem?_eq_some_iff.mp htext).1

end Markers

section Region

variable {excludeLine excludeRegion path : Text} {pairs : List (Text × Text)} {texts : List Text}
  {p : Text × Text} {a b : Nat}

/-- A start is no end. -/
theorem start_ne_stop (happart : MarkersApart pairs texts) {p q : Text × Text}
    (hp : p ∈ markerPairs pairs) (hq : q ∈ markerPairs pairs) : p.1 ≠ q.2 := by
  obtain ⟨hpair, hpairs⟩ := List.pairwise_flatMap.mp happart.apart
  have hsymm : Std.Symm fun p q : Text × Text => ∀ s ∈ [p.1, p.2], ∀ t ∈ [q.1, q.2],
      ¬s <:+: t ∧ ¬t <:+: s := ⟨fun p q h s hs t ht => ⟨(h t ht s hs).2, (h t ht s hs).1⟩⟩
  intro heq
  by_cases hpq : p = q
  · subst hpq
    have hne := (List.pairwise_cons.mp (hpair p hp)).1 p.2 List.mem_cons_self
    exact hne.1 (heq ▸ List.infix_rfl)
  · have hne := hpairs.forall hp hq hpq p.1 List.mem_cons_self q.2 (by simp)
    exact hne.1 (heq ▸ List.infix_rfl)

theorem mem_markers (hp : p ∈ markerPairs pairs) : p.1 ∈ markers pairs ∧ p.2 ∈ markers pairs :=
  ⟨List.mem_flatMap.mpr ⟨p, hp, by simp⟩, List.mem_flatMap.mpr ⟨p, hp, by simp⟩⟩

/-- A line holds no start next to an end. -/
theorem not_holdsAt_both (happart : MarkersApart pairs texts) {p q : Text × Text} {k : Nat}
    (hp : p ∈ markerPairs pairs) (hq : q ∈ markerPairs pairs) (hstart : HoldsAt texts k p.1) :
    ¬HoldsAt texts k q.2 := by
  rintro ⟨text, htext, hstop⟩
  obtain ⟨text', htext', hstart⟩ := hstart
  obtain rfl : text' = text := Option.some.inj (htext'.symm.trans htext)
  exact start_ne_stop happart hp hq (happart.single text' (List.mem_of_getElem? htext') p.1
    (mem_markers hp).1 q.2 (mem_markers hq).2 hstart hstop)

theorem starts_stops_of_start (hpairs : IsRegionList excludeRegion pairs)
    (happart : MarkersApart pairs texts) (hp : p ∈ markerPairs pairs) {k : Nat}
    (hstart : HoldsAt texts k p.1) : (create excludeLine excludeRegion).starts texts k = 1 ∧
      (create excludeLine excludeRegion).stops texts k = 0 := by
  obtain ⟨hfirst, hlast⟩ := @patterns_create excludeLine excludeRegion pairs hpairs
  refine ⟨starts_eq_one.mpr ⟨p.1, ?_, hstart⟩, (stops_eq_zero_or_one _ _ _).resolve_right ?_⟩
  · rw [hfirst]
    exact List.mem_map_of_mem hp
  · rw [stops_eq_one, hlast]
    rintro ⟨s, hs, hholds⟩
    obtain ⟨q, hq, rfl⟩ := List.mem_map.mp hs
    exact not_holdsAt_both happart hp hq hstart hholds

theorem stops_of_stop (hpairs : IsRegionList excludeRegion pairs) (hp : p ∈ markerPairs pairs)
    {k : Nat} (hstop : HoldsAt texts k p.2) :
    (create excludeLine excludeRegion).stops texts k = 1 := by
  rw [stops_eq_one, (patterns_create hpairs).2]
  exact ⟨p.2, List.mem_map_of_mem hp, hstop⟩

/-- Without another start, the nesting is back at zero behind the end. -/
theorem levelAt_behind {h : FileLineHandler} (hab : a < b) (hlevel : h.levelAt texts a = 0)
    (hstart : h.starts texts a = 1) (hstop : h.stops texts b = 1)
    (hnone : ∀ k, a < k → k ≤ b → h.starts texts k = 0) : h.levelAt texts (b + 1) = 0 := by
  have hle : ∀ k, a < k → k ≤ b → h.levelAt texts k ≤ 1 := by
    intro k hak
    induction k, hak using Nat.le_induction with
    | base =>
      intro _
      have hstops := stops_eq_zero_or_one h texts a
      rw [levelAt_succ, hlevel, hstart]
      omega
    | succ k hk ih =>
      intro hkb
      have hbefore := ih (by omega)
      have hstops := stops_eq_zero_or_one h texts k
      rw [levelAt_succ, hnone k hk (by omega)]
      omega
  have hbefore := hle b hab le_rfl
  rw [levelAt_succ, hnone b hab le_rfl, hstop]
  omega

/-- A region ends at its own marker if and only if each of its lines is excluded by itself or
follows, from some line of the region on, fewer ends than starts of any pairs. -/
theorem endsAtOwnMarker_iff (excludeLine : Text) (hpairs : IsRegionList excludeRegion pairs)
    (happart : MarkersApart pairs texts) (path : Text) (hregion : IsRegion pairs texts p a b)
    (hclosed : ((create excludeLine excludeRegion).after path (texts.take a)).nesting path = 0) :
    (create excludeLine excludeRegion).EndsAtOwnMarker path texts a b ↔
      ∀ k, a < k → k ≤ b → texts[k]?.any (create excludeLine excludeRegion).ignores = true ∨
        ∃ j ≤ k, a ≤ j ∧ 0 < (create excludeLine excludeRegion).opened texts j k +
          (create excludeLine excludeRegion).starts texts k := by
  obtain ⟨hstart, hstop⟩ := @starts_stops_of_start excludeLine _ _ _ _ hpairs happart hregion.pair _
    hregion.start
  have hend := @stops_of_stop excludeLine _ _ _ _ hpairs hregion.pair _ hregion.stop
  have hnest := nesting_create excludeLine excludeRegion path
  generalize create excludeLine excludeRegion = h at *
  have hlength := lt_length_of_holdsAt hregion.stop
  have hab := hregion.ordered
  have hlevel : h.levelAt texts a = 0 := (nesting_after hnest (by omega)).symm.trans hclosed
  have hexcluded : ∀ k, a ≤ k → k ≤ b → ((h.verdicts path texts)[k]? = some false ↔
      texts[k]?.any h.ignores = true ∨
        ∃ j ≤ k, a ≤ j ∧ 0 < h.opened texts j k + h.starts texts k) := by
    intro k hak hkb
    rw [verdicts_eq_false_iff hnest (by omega), Excludes,
      exists_opened_of_closed hak (opened_le_of_levelAt hlevel)]
  constructor
  · exact fun hends k hak hkb => (hexcluded k hak.le hkb).mp (hends.excluded k hak.le hkb)
  · intro hlines
    refine ⟨fun k hak hkb => (hexcluded k hak hkb).mpr ?_, fun hnone hrefused => ?_⟩
    · rcases Nat.eq_or_lt_of_le hak with rfl | hlt
      · refine Or.inr ⟨a, le_rfl, le_rfl, ?_⟩
        rw [opened, Finset.Ico_self, Finset.sum_empty, hstart]
        omega
      · exact hlines k hlt hkb
    · have hlen : b + 1 < texts.length := by
        by_contra hge
        rw [getElem?_verdicts, List.getElem?_eq_none (by omega)] at hrefused
        cases hrefused
      rw [verdicts_eq_false_iff_levelAt hnest hlen,
        levelAt_behind hab hlevel hstart hend hnone] at hrefused
      refine hrefused.imp_right fun hpos => ?_
      exact (starts_eq_zero_or_one h texts (b + 1)).resolve_left (by omega)

end Region

/-! ### Two pairs -/

/-- Two pairs of texts. -/
def twoPairs : List (Text × Text) := [(ascii "a", ascii "b"), (ascii "c", ascii "d")]

theorem isRegionList_twoPairs : IsRegionList (ascii "a:b,c:d") twoPairs := by
  unfold IsRegionList
  decide

/-- A region of the first pair without other markers. -/
theorem endsAtOwnMarker_plain : (create [] (ascii "a:b,c:d")).EndsAtOwnMarker (ascii "/a")
    [ascii "a", ascii "x", ascii "b", ascii "y"] 0 2 := by
  refine (endsAtOwnMarker_iff (p := (ascii "a", ascii "b")) [] isRegionList_twoPairs
    ⟨by decide, by decide⟩ (ascii "/a") ⟨by decide, ⟨_, rfl, by decide⟩, ⟨_, rfl, by decide⟩,
      by decide, fun k hlow hhigh => ?_⟩ rfl).mpr fun k hlow hhigh => ?_
  · obtain rfl : k = 1 := by omega
    rintro ⟨text, htext, hinside⟩
    cases htext
    revert hinside
    decide
  · refine Or.inr ⟨0, by omega, le_rfl, ?_⟩
    obtain rfl | rfl : k = 1 ∨ k = 2 := by omega
    · decide
    · decide

/-- The end of the second pair ends the region of the first one. -/
theorem not_endsAtOwnMarker_otherEnd :
    IsRegionList (ascii "a:b,c:d") twoPairs ∧
      MarkersApart twoPairs [ascii "a", ascii "d", ascii "x", ascii "b"] ∧
      IsRegion twoPairs [ascii "a", ascii "d", ascii "x", ascii "b"] (ascii "a", ascii "b") 0 3 ∧
      ¬(create [] (ascii "a:b,c:d")).EndsAtOwnMarker (ascii "/a")
        [ascii "a", ascii "d", ascii "x", ascii "b"] 0 3 := by
  refine ⟨isRegionList_twoPairs, ⟨by decide, by decide⟩, ⟨by decide, ⟨_, rfl, by decide⟩,
    ⟨_, rfl, by decide⟩, by decide, fun k hlow hhigh => ?_⟩, fun h => ?_⟩
  · rintro ⟨text, htext, hinside⟩
    obtain rfl | rfl : k = 1 ∨ k = 2 := by omega
    all_goals
      cases htext
      revert hinside
      decide
  · have hline := h.excluded 2 (by decide) (by decide)
    revert hline
    decide

end FileLineHandler

end Kcov
