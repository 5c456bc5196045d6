import Kcov.Lib.Counter
import Kcov.Reporter.Bounds

/-! Which lines the markers in the text of a file exclude. -/

namespace Kcov

open Bytes

namespace FileLineHandler

variable {h : FileLineHandler} {path : Text} {texts : List Text} {i m : Nat}

/-! ### Markers -/

/-- The text holds a pattern that excludes a single line. -/
def ignores (h : FileLineHandler) (text : Text) : Bool :=
  h.ignoreSingleLinePatterns.any (finds text)

/-- 1 if the text at position `k` holds a pattern that begins a region. -/
def starts (h : FileLineHandler) (texts : List Text) (k : Nat) : Int :=
  if texts[k]?.any fun text => h.lineBeginPatterns.any (finds text) then 1 else 0

/-- 1 if the text at position `k` holds a pattern that ends a region. -/
def stops (h : FileLineHandler) (texts : List Text) (k : Nat) : Int :=
  if texts[k]?.any fun text => h.lineEndPatterns.any (finds text) then 1 else 0

/-- The regions begun less the regions ended by the texts from position `j` up to `i`. -/
def opened (h : FileLineHandler) (texts : List Text) (j i : Nat) : Int :=
  ∑ k ∈ Finset.Ico j i, (h.starts texts k - h.stops texts k)

/-- The text at position `i` is marked, by itself or by the markers up to it. -/
def Excludes (h : FileLineHandler) (texts : List Text) (i : Nat) : Prop :=
  texts[i]?.any h.ignores = true ∨ ∃ j ≤ i, 0 < h.opened texts j i + h.starts texts i

/-! ### The scan of a file -/

/-- The handler after the lines of a file. -/
def after (h : FileLineHandler) (path : Text) (texts : List Text) : FileLineHandler :=
  texts.foldl (fun h text => (h.matchLine path text).2) h

theorem getElem?_verdicts (h : FileLineHandler) (path : Text) (texts : List Text) (i : Nat) :
    (h.verdicts path texts)[i]? =
      texts[i]?.map fun text => ((h.after path (texts.take i)).matchLine path text).1 := by
  induction texts generalizing h i with
  | nil => rfl
  | cons text texts ih =>
    cases i with
    | zero => rfl
    | succ i => exact ih (h.matchLine path text).2 i

theorem samePatterns_after (h : FileLineHandler) (path : Text) (texts : List Text) :
    (h.after path texts).SamePatterns h := by
  induction texts generalizing h with
  | nil => exact ⟨rfl, rfl, rfl⟩
  | cons text texts ih =>
    obtain ⟨hsingle, hfirst, hlast⟩ := ih (h.matchLine path text).2
    exact ⟨hsingle, hfirst, hlast⟩

theorem matchLine_fst (h : FileLineHandler) (path text : Text) : (h.matchLine path text).1 =
    (!h.ignores text && !decide (0 < h.nesting path +
      if h.lineBeginPatterns.any (finds text) then 1 else 0)) := by
  simp only [matchLine, ignores, nesting]
  split <;> simp

theorem nesting_matchLine (h : FileLineHandler) (path text : Text) :
    (h.matchLine path text).2.nesting path = max 0 (h.nesting path +
      ((if h.lineBeginPatterns.any (finds text) then 1 else 0) -
        if h.lineEndPatterns.any (finds text) then 1 else 0)) := by
  simp only [matchLine, nesting, ne_eq, not_true, if_false]
  split <;> split <;> split <;> omega

/-- The nesting of the regions is a counter that is not allowed to fall below zero. -/
theorem nesting_after (hnest : h.nesting path = 0) (hi : i ≤ texts.length) :
    (h.after path (texts.take i)).nesting path =
      Counter.level (fun k => h.starts texts k - h.stops texts k) i := by
  induction i with
  | zero => exact hnest
  | succ i ih =>
    have hget : texts[i]? = some texts[i] := List.getElem?_eq_getElem hi
    have hsame := samePatterns_after h path (texts.take i)
    rw [List.take_add_one, hget, Option.toList_some, after, List.foldl_append, List.foldl_cons,
      List.foldl_nil, ← after, nesting_matchLine, ih (by omega), Counter.level, hsame.first,
      hsame.last]
    simp only [starts, stops, hget, Option.any_some]

/-- The nesting of the regions before the text at position `i`. -/
def levelAt (h : FileLineHandler) (texts : List Text) (i : Nat) : Int :=
  Counter.level (fun k => h.starts texts k - h.stops texts k) i

theorem verdicts_eq_false_iff_levelAt (hnest : h.nesting path = 0) (hi : i < texts.length) :
    (h.verdicts path texts)[i]? = some false ↔
      texts[i]?.any h.ignores = true ∨ 0 < h.levelAt texts i + h.starts texts i := by
  have hget : texts[i]? = some texts[i] := List.getElem?_eq_getElem hi
  have hsame := samePatterns_after h path (texts.take i)
  have hignores : (h.after path (texts.take i)).ignores = h.ignores := by
    unfold ignores
    rw [hsame.single]
  have hstarts : (if h.lineBeginPatterns.any (finds texts[i]) then 1 else 0) =
      h.starts texts i := by
    simp only [starts, hget, Option.any_some]
  rw [getElem?_verdicts, hget, Option.map_some, matchLine_fst, hignores, hsame.first, hstarts,
    nesting_after hnest hi.le, Option.any_some, levelAt]
  simp only [Option.some.injEq, Bool.and_eq_false_iff, Bool.not_eq_false', decide_eq_true_eq]

theorem levelAt_pos_iff : 0 < h.levelAt texts i + h.starts texts i ↔
    ∃ j ≤ i, 0 < h.opened texts j i + h.starts texts i := by
  simp only [← neg_lt_iff_pos_add, levelAt, Counter.lt_level_iff, opened]

/-- The filter refuses exactly the marked lines. -/
theorem verdicts_eq_false_iff (hnest : h.nesting path = 0) (hi : i < texts.length) :
    (h.verdicts path texts)[i]? = some false ↔ h.Excludes texts i := by
  rw [verdicts_eq_false_iff_levelAt hnest hi, levelAt_pos_iff, Excludes]

/-! ### Regions that are closed -/

theorem starts_drop (h : FileLineHandler) (texts : List Text) (m k : Nat) :
    h.starts (texts.drop m) k = h.starts texts (m + k) := by
  rw [starts, starts, List.getElem?_drop]

theorem opened_drop (h : FileLineHandler) (texts : List Text) (m j i : Nat) :
    h.opened (texts.drop m) j i = h.opened texts (m + j) (m + i) := by
  unfold opened
  rw [Nat.add_comm m j, Nat.add_comm m i, ← Finset.sum_Ico_add]
  apply Finset.sum_congr rfl
  intro k _
  rw [starts_drop, stops, stops, List.getElem?_drop, Nat.add_comm]

/-- Markers before which no region is open do not keep one open later. -/
theorem exists_opened_of_closed (hm : m ≤ i) (hclosed : ∀ j ≤ m, h.opened texts j m ≤ 0) :
    (∃ j ≤ i, 0 < h.opened texts j i + h.starts texts i) ↔
      ∃ j ≤ i, m ≤ j ∧ 0 < h.opened texts j i + h.starts texts i := by
  simp only [← neg_lt_iff_pos_add, opened]
  exact Counter.exists_sum_of_closed hm hclosed

/-- Where no region is open, the lines before have no effect, whatever markers they hold. -/
theorem excludes_drop (hm : m ≤ i) (hclosed : ∀ j ≤ m, h.opened texts j m ≤ 0) :
    h.Excludes texts i ↔ h.Excludes (texts.drop m) (i - m) := by
  rw [Excludes, Excludes, exists_opened_of_closed hm hclosed, List.getElem?_drop, starts_drop, Nat.add_sub_of_le hm]
  refine or_congr_right ⟨?_, ?_⟩
  · rintro ⟨j, hj, hmj, hpos⟩
    refine ⟨j - m, by omega, ?_⟩
    rw [opened_drop, Nat.add_sub_of_le hm, Nat.add_sub_of_le hmj]
    exact hpos
  · rintro ⟨j, hj, hpos⟩
    rw [opened_drop, Nat.add_sub_of_le hm] at hpos
    exact ⟨m + j, by omega, by omega, hpos⟩

end FileLineHandler

namespace Reporter

/-- The line at `ref` is known and unreachable. -/
def Marked (s : Reporter) (ref : LineRef) : Prop :=
  ∃ line, s.line? ref = some line ∧ line.unreachable = true

section Runs

variable {cfg : ReporterSetup} {s : Reporter} {f : Text}

theorem WellFormed.marked_iff (hwf : s.WellFormed cfg) {ref : LineRef}
    (hfile : (s.files ref.file).isSome) : s.Marked ref ↔ cfg.excluded ref = true := by
  constructor
  · rintro ⟨line, hline, hun⟩
    rw [← hwf.unreachable ref line hline, hun]
  · intro hex
    obtain ⟨line, hline⟩ := Option.isSome_iff_exists.mp (hwf.marked ref hfile hex)
    exact ⟨line, hline, (hwf.unreachable ref line hline).trans hex⟩

/-- A file of which a line was registered is known. -/
theorem isSome_files_of_line {evs : List Event} (h : run cfg evs = some s) {n : U32} {a : U64}
    (hfilter : cfg.runFilters f = true) (hline : Event.line f n a ∈ evs) :
    (s.files f).isSome := by
  have hreg : evs.any (registers cfg ⟨f, n⟩) = true := by
    rw [List.any_eq_true]
    exact ⟨_, hline, by simp [registers, hfilter]⟩
  rw [← addressesOf_ne_nil, ← (run_frame h).2] at hreg
  cases hfile : s.files f with
  | some file => rfl
  | none => simp [counts, line?, hfile] at hreg

/-- After any run, the lines of a file that are unreachable are those that the markers in its own
lines exclude. Lines before which no region is open do not depend on the lines before them. -/
theorem marked_iff_excludes (cfg : ReporterSetup) (evs : List Event)
    (h : run cfg evs = some s) (f : Text) (hfilter : cfg.runFilters f = true) (n : U32) (a : U64)
    (hline : Event.line f n a ∈ evs) (i : Nat) (hi : i < (cfg.host.getLines f).length) :
    (s.Marked ⟨f, BitVec.ofNat 32 (i + 1)⟩ ↔
      cfg.lineHandler.Excludes (cfg.host.getLines f) i) ∧
    ∀ m ≤ i, (∀ j ≤ m, cfg.lineHandler.opened (cfg.host.getLines f) j m ≤ 0) →
      (s.Marked ⟨f, BitVec.ofNat 32 (i + 1)⟩ ↔
        cfg.lineHandler.Excludes ((cfg.host.getLines f).drop m) (i - m)) := by
  have hwf := (run_frame h).1
  have hlen := ((run_sized h).2 _ hline hfilter).2
  have hmarked : s.Marked ⟨f, BitVec.ofNat 32 (i + 1)⟩ ↔
      cfg.lineHandler.Excludes (cfg.host.getLines f) i := by
    have hnr : (BitVec.ofNat 32 (i + 1)).toNat = i + 1 := by
      rw [BitVec.toNat_ofNat]
      rw [Opens] at hlen
      exact Nat.mod_eq_of_lt (by omega)
    have hnest : cfg.lineHandler.nesting f = 0 := FileLineHandler.nesting_create _ _ f
    rw [hwf.marked_iff (isSome_files_of_line h hfilter hline), excluded_iff, hnr, BitVec.le_def,
      hnr, ← FileLineHandler.verdicts_eq_false_iff hnest hi]
    simp
  exact ⟨hmarked, fun m hm hclosed =>
    hmarked.trans (FileLineHandler.excludes_drop hm hclosed)⟩

/-- A program of one file with the texts of an open region, a surplus end and a new region. -/
def markedSetup : ReporterSetup where
  host := { Host.bare with
    fileExists := fun _ => true
    readFile := fun _ => some (ascii "e\nb\nx\ne\ny") }
  runFilters _ := true
  excludeLine := []
  excludeRegion := ascii "b:e"
  hashFilename := true
  maxPossibleHits := .limited
  checksum := 0
  cleanOutput := false
  database := none

/-- The line with the end of the region is the last one that is excluded. -/
theorem marked_iff_excludes_region :
    ∃ s, run markedSetup [.line (ascii "/a") 5 16] = some s ∧
      s.Marked ⟨ascii "/a", 4⟩ ∧ ¬s.Marked ⟨ascii "/a", 5⟩ := by
  obtain ⟨s, hs⟩ : ∃ s, run markedSetup [.line (ascii "/a") 5 16] = some s := ⟨_, rfl⟩
  have hall := marked_iff_excludes markedSetup _ hs (ascii "/a") rfl 5 16 (by simp)
  refine ⟨s, hs, ?_, ?_⟩
  · rw [show (4 : U32) = BitVec.ofNat 32 (3 + 1) from rfl, (hall 3 (by decide)).1]
    exact Or.inr ⟨1, by decide, by decide⟩
  · rw [show (5 : U32) = BitVec.ofNat 32 (4 + 1) from rfl, (hall 4 (by decide)).1]
    rintro (hsingle | ⟨j, hj, hpos⟩)
    · revert hsingle
      decide
    · have hclosed : ∀ j ≤ 4, ¬0 < markedSetup.lineHandler.opened
          (markedSetup.host.getLines (ascii "/a")) j 4 + markedSetup.lineHandler.starts
            (markedSetup.host.getLines (ascii "/a")) 4 := by decide
      exact hclosed j hj hpos

end Runs

end Reporter

end Kcov
