import Kcov.SystemMode.Bitmap
import Mathlib.Data.Finset.Card

/-! The bitmap as a set: which indices are in it after any calls, when it is dirty, and that a file
keeps it. -/

namespace Kcov.SystemMode

open Bytes

/-- A call that changes a `system_mode_memory`. -/
inductive MemoryCall where
  | reportIndex (index : BitVec 32)
  | markClean
  deriving DecidableEq, Repr

namespace SystemModeMemory

def call (m : SystemModeMemory) : MemoryCall → SystemModeMemory
  | .reportIndex index => m.reportIndex index
  | .markClean => m.markClean

def calls (m : SystemModeMemory) (cs : List MemoryCall) : SystemModeMemory := cs.foldl call m

end SystemModeMemory

/-! ### What the calls mean -/

/-- The indices of a bitmap of `n` words that have been reported. -/
def reported (n : BitVec 32) (cs : List MemoryCall) : Finset (BitVec 32) :=
  (cs.filterMap fun | .reportIndex i => some i | .markClean => none).toFinset.filter
    fun i => i.toNat < 32 * n.toNat

/-- An index was reported for the first time, and the bitmap has not been marked as clean since. -/
def ReportedAnew (n : BitVec 32) (cs : List MemoryCall) : Prop :=
  ∃ before after i, cs = before ++ .reportIndex i :: after ∧ i.toNat < 32 * n.toNat ∧
    .reportIndex i ∉ before ∧ .markClean ∉ after

section Calls

variable {n : BitVec 32} {cs : List MemoryCall} {i : BitVec 32}

theorem mem_reported :
    i ∈ reported n cs ↔ i.toNat < 32 * n.toNat ∧ .reportIndex i ∈ cs := by
  rw [reported, Finset.mem_filter, List.mem_toFinset, List.mem_filterMap, and_comm]
  refine and_congr_right fun _ => ⟨?_, fun h => ⟨_, h, rfl⟩⟩
  rintro ⟨c, hc, hi⟩
  cases c with
  | reportIndex j =>
    cases hi
    exact hc
  | markClean => cases hi

theorem card_reported_le (n : BitVec 32) (cs : List MemoryCall) :
    (reported n cs).card ≤ 32 * n.toNat := by
  rw [← Finset.card_range (32 * n.toNat)]
  refine Finset.card_le_card_of_injOn BitVec.toNat (fun i hi => ?_) ?_
  · exact Finset.mem_coe.mpr (Finset.mem_range.mpr (mem_reported.mp hi).1)
  · exact fun i _ j _ h => BitVec.eq_of_toNat_eq h

theorem reported_report_new (hi : i.toNat < 32 * n.toNat) (hnew : .reportIndex i ∉ cs) :
    (reported n (cs ++ [.reportIndex i])).card = (reported n cs).card + 1 := by
  have hinsert : reported n (cs ++ [.reportIndex i]) = insert i (reported n cs) := by
    ext j
    rw [Finset.mem_insert, mem_reported, mem_reported, List.mem_append, List.mem_singleton,
      MemoryCall.reportIndex.injEq]
    constructor
    · rintro ⟨hj, hmem | rfl⟩
      · exact Or.inr ⟨hj, hmem⟩
      · exact Or.inl rfl
    · rintro (rfl | ⟨hj, hmem⟩)
      · exact ⟨hi, Or.inr rfl⟩
      · exact ⟨hj, Or.inl hmem⟩
  rw [hinsert, Finset.card_insert_of_notMem fun hmem => hnew (mem_reported.mp hmem).2]

theorem reported_report_old (hold : i.toNat < 32 * n.toNat → .reportIndex i ∈ cs) :
    reported n (cs ++ [.reportIndex i]) = reported n cs := by
  ext j
  rw [mem_reported, mem_reported, List.mem_append, List.mem_singleton,
    MemoryCall.reportIndex.injEq]
  refine and_congr_right fun hj => or_iff_left_of_imp ?_
  rintro rfl
  exact hold hj

theorem reported_markClean : reported n (cs ++ [.markClean]) = reported n cs := by
  ext j
  rw [mem_reported, mem_reported, List.mem_append, List.mem_singleton, or_iff_left (by simp)]

theorem not_reportedAnew_nil : ¬ReportedAnew n [] := by
  rintro ⟨before, after, i, h, -⟩
  simp at h

theorem not_reportedAnew_markClean : ¬ReportedAnew n (cs ++ [.markClean]) := by
  rintro ⟨before, after, i, h, -, -, hclean⟩
  rcases List.eq_nil_or_concat after with rfl | ⟨after, c, rfl⟩
  · have hlast := (List.append_inj' h rfl).2
    simp at hlast
  · rw [List.concat_eq_append, ← List.cons_append, ← List.append_assoc] at h
    have hlast := (List.append_inj' h rfl).2
    simp only [List.cons.injEq, and_true] at hlast
    exact hclean (by simp [hlast])

theorem reportedAnew_report : ReportedAnew n (cs ++ [.reportIndex i]) ↔
    ReportedAnew n cs ∨ (i.toNat < 32 * n.toNat ∧ .reportIndex i ∉ cs) := by
  constructor
  · rintro ⟨before, after, j, h, hj, hfirst, hclean⟩
    rcases List.eq_nil_or_concat after with rfl | ⟨after, c, rfl⟩
    · obtain ⟨rfl, hlast⟩ := List.append_inj' h rfl
      simp only [List.cons.injEq, MemoryCall.reportIndex.injEq, and_true] at hlast
      exact Or.inr ⟨hlast ▸ hj, hlast ▸ hfirst⟩
    · rw [List.concat_eq_append, ← List.cons_append, ← List.append_assoc] at h
      obtain ⟨rfl, -⟩ := List.append_inj' h rfl
      exact Or.inl ⟨before, after, j, rfl, hj, hfirst, fun hmem => hclean (by simp [hmem])⟩
  · rintro (⟨before, after, j, rfl, hj, hfirst, hclean⟩ | ⟨hi, hfirst⟩)
    · exact ⟨before, after ++ [.reportIndex i], j, by simp, hj, hfirst, by simpa using hclean⟩
    · exact ⟨cs, [], i, rfl, hi, hfirst, List.not_mem_nil⟩

end Calls

/-! ### The memory after the calls -/

/-- The memory `m` is what the calls `cs` make of a new one. -/
structure Tracks (fn opts : List Byte) (n : BitVec 32) (cs : List MemoryCall)
    (m : SystemModeMemory) : Prop where
  filename : m.filename = fn
  options : m.options = opts
  nEntries : m.nEntries = n
  hit : ∀ i, m.indexIsHit i = true ↔ i.toNat < 32 * n.toNat ∧ .reportIndex i ∈ cs
  dirtyCount : m.dirtyCount.toNat = (reported n cs).card
  cleanCount : m.cleanCount.toNat ≤ (reported n cs).card
  dirty : m.isDirty = true ↔ ReportedAnew n cs

section Tracks

variable {fn opts : List Byte} {n : BitVec 32} {cs : List MemoryCall} {m : SystemModeMemory}

theorem div_32_lt_iff {i n : BitVec 32} :
    (i / 32).toNat < n.toNat ↔ i.toNat < 32 * n.toNat := by
  rw [BitVec.toNat_udiv, show (32 : BitVec 32).toNat = 32 from rfl]
  omega

theorem reportIndex_old {i : BitVec 32}
    (h : m.indexIsHit i = true ∨ ¬i.toNat < 32 * m.nEntries.toNat) : m.reportIndex i = m := by
  rw [SystemModeMemory.reportIndex, if_pos]
  rw [Bool.or_eq_true, decide_eq_true_iff, m.size, ← Nat.not_lt, div_32_lt_iff]
  exact h

theorem counts_reportIndex {i : BitVec 32} (hnew : m.indexIsHit i = false)
    (hi : i.toNat < 32 * m.nEntries.toNat) :
    (m.reportIndex i).dirtyCount = m.dirtyCount + 1 ∧
      (m.reportIndex i).cleanCount = m.cleanCount := by
  rw [SystemModeMemory.reportIndex, if_neg]
  · exact ⟨rfl, rfl⟩
  · rw [hnew, Bool.false_or, decide_eq_true_iff, m.size, Nat.not_le, div_32_lt_iff]
    exact hi

theorem isDirty_iff : m.isDirty = true ↔ m.dirtyCount.toNat ≠ m.cleanCount.toNat := by
  rw [SystemModeMemory.isDirty, decide_eq_true_iff, ne_eq, ne_eq, BitVec.toNat_inj]

theorem tracks_new (h : SystemModeMemory.new fn opts n = some m) : Tracks fn opts n [] m := by
  obtain ⟨hn, -⟩ := Option.ite_none_right_eq_some.mp h
  obtain ⟨m', hnew, hfn, hopts, hnEntries, hhit⟩ := SystemModeMemory.exists_new fn opts hn
  obtain rfl : m' = m := Option.some.inj (hnew.symm.trans h)
  obtain ⟨hdirty, hclean⟩ := SystemModeMemory.counts_new h
  refine ⟨hfn, hopts, hnEntries, fun i => ?_, ?_, ?_, ?_⟩
  · rw [hhit]
    simp
  · rw [hdirty]
    rfl
  · rw [hclean]
    exact Nat.zero_le _
  · rw [SystemModeMemory.isDirty_new h]
    exact iff_of_false Bool.false_ne_true not_reportedAnew_nil

theorem Tracks.reportIndex (h : Tracks fn opts n cs m) (hn : n.toNat < 2 ^ 27) (i : BitVec 32) :
    Tracks fn opts n (cs ++ [.reportIndex i]) (m.reportIndex i) := by
  have hhit : ∀ j, (m.reportIndex i).indexIsHit j = true ↔
      j.toNat < 32 * n.toNat ∧ .reportIndex j ∈ cs ++ [.reportIndex i] := by
    intro j
    rw [SystemModeMemory.indexIsHit_reportIndex, h.hit, h.nEntries, div_32_lt_iff, List.mem_append,
      List.mem_singleton, MemoryCall.reportIndex.injEq]
    constructor
    · rintro (⟨hj, hmem⟩ | ⟨rfl, hj⟩)
      · exact ⟨hj, Or.inl hmem⟩
      · exact ⟨hj, Or.inr rfl⟩
    · rintro ⟨hj, hmem | rfl⟩
      · exact Or.inl ⟨hj, hmem⟩
      · exact Or.inr ⟨rfl, hj⟩
  have hfn : (m.reportIndex i).filename = fn := by
    rw [SystemModeMemory.filename_reportIndex, h.filename]
  have hopts : (m.reportIndex i).options = opts := by
    rw [SystemModeMemory.options_reportIndex, h.options]
  have hnEntries : (m.reportIndex i).nEntries = n := by
    rw [SystemModeMemory.nEntries_reportIndex, h.nEntries]
  have hcard := card_reported_le n cs
  have hdirty := h.dirtyCount
  have hclean := h.cleanCount
  by_cases hnew : i.toNat < 32 * n.toNat ∧ .reportIndex i ∉ cs
  · obtain ⟨hi, hfirst⟩ := hnew
    obtain ⟨hdirtyCount, hcleanCount⟩ := @counts_reportIndex m i
      (Bool.eq_false_iff.mpr fun hset => hfirst ((h.hit i).mp hset).2) (by rw [h.nEntries]; exact hi)
    -- the counter does not wrap, since it counts indices of the bitmap
    have hcount : (m.reportIndex i).dirtyCount.toNat = (reported n cs).card + 1 := by
      rw [hdirtyCount, BitVec.toNat_add, hdirty, show (1 : BitVec 32).toNat = 1 from rfl]
      omega
    refine ⟨hfn, hopts, hnEntries, hhit, ?_, ?_, ?_⟩
    · rw [hcount, reported_report_new hi hfirst]
    · rw [hcleanCount, reported_report_new hi hfirst]
      omega
    · rw [isDirty_iff, hcount, hcleanCount]
      exact iff_of_true (by omega) (reportedAnew_report.mpr (Or.inr ⟨hi, hfirst⟩))
  · have hold : i.toNat < 32 * n.toNat → .reportIndex i ∈ cs := by
      intro hi
      exact Decidable.of_not_not fun hfirst => hnew ⟨hi, hfirst⟩
    have hsame : m.reportIndex i = m := by
      refine reportIndex_old ?_
      rw [h.nEntries, h.hit]
      by_cases hi : i.toNat < 32 * n.toNat
      · exact Or.inl ⟨hi, hold hi⟩
      · exact Or.inr hi
    refine ⟨hfn, hopts, hnEntries, hhit, ?_, ?_, ?_⟩
    · rw [hsame, reported_report_old hold, hdirty]
    · rw [hsame, reported_report_old hold]
      exact hclean
    · rw [hsame, h.dirty, reportedAnew_report, or_iff_left hnew]

theorem Tracks.markClean (h : Tracks fn opts n cs m) :
    Tracks fn opts n (cs ++ [.markClean]) m.markClean := by
  have hdirty := h.dirtyCount
  refine ⟨h.filename, h.options, h.nEntries, fun i => ?_, ?_, ?_, ?_⟩
  · have hhit : m.markClean.indexIsHit i = m.indexIsHit i := rfl
    rw [hhit, h.hit, List.mem_append, List.mem_singleton, or_iff_left (by simp)]
  · rw [reported_markClean]
    exact hdirty
  · rw [reported_markClean]
    exact hdirty.le
  · rw [isDirty_iff]
    exact iff_of_false (fun hne => hne rfl) not_reportedAnew_markClean

/-- The calls are tracked one after the other. -/
theorem tracks_calls {fresh : SystemModeMemory} (hnew : SystemModeMemory.new fn opts n = some fresh)
    (hn : n.toNat < 2 ^ 27) (cs : List MemoryCall) : Tracks fn opts n cs (fresh.calls cs) := by
  induction cs using List.reverseRecOn with
  | nil => exact tracks_new hnew
  | append_singleton cs c ih =>
    rw [SystemModeMemory.calls, List.foldl_append, List.foldl_cons, List.foldl_nil]
    cases c with
    | reportIndex i => exact ih.reportIndex hn i
    | markClean => exact ih.markClean

end Tracks

/-- The size of the block that `memoryToFile` allocates. -/
def fileSize (fn opts : List Byte) (n : BitVec 32) : Nat :=
  sizeofSystemModeFile + n.toNat * 4 + fn.length + opts.length + 2

/-- The bitmap holds the indices that were reported, is dirty from the report of a new index on
until it is marked as clean, and goes through a file unchanged. -/
theorem hitSet_calls (host : Endian) (junk : Nat → Byte) (fn opts : List Byte) (hfn : 0 ∉ fn)
    (hopts : 0 ∉ opts) (n : BitVec 32) (hn : n.toNat < 2 ^ 27) (cs : List MemoryCall) :
    ∃ fresh, SystemModeMemory.new fn opts n = some fresh ∧
      (∀ i, (fresh.calls cs).indexIsHit i = true ↔
        i.toNat < 32 * n.toNat ∧ .reportIndex i ∈ cs) ∧
      ((fresh.calls cs).isDirty = true ↔ ReportedAnew n cs) ∧
      (fileSize fn opts n < 2 ^ 32 → ∃ file results,
        memoryToFile host junk (fresh.calls cs) = some file ∧
        fileToMemory host file = .ok results ∧ results.nEntries = n ∧ results.filename = fn ∧
        results.options = opts ∧
        (∀ i, results.indexIsHit i = (fresh.calls cs).indexIsHit i) ∧ results.isDirty = false) := by
  obtain ⟨fresh, hnew, -⟩ := SystemModeMemory.exists_new fn opts (n := n) (by omega)
  have h := tracks_calls hnew hn cs
  refine ⟨fresh, hnew, h.hit, h.dirty, fun hsize => ?_⟩
  rw [fileSize, sizeofSystemModeFile] at hsize
  have hname : nameOffset (fresh.calls cs) = 24 + n.toNat * 4 := by
    rw [nameOffset, h.nEntries, sizeofSystemModeFile]
  have hoptions : optionsOffset (fresh.calls cs) = 24 + n.toNat * 4 + fn.length + 1 := by
    rw [optionsOffset, hname, h.filename]
  obtain ⟨file, hfile, himage⟩ := @memoryToFile_image host junk (fresh.calls cs) (by omega)
    (by rw [hoptions, sizeofSystemModeFile]; omega)
  obtain ⟨results, hresults, hback⟩ := himage.fileToMemory (by omega)
  refine ⟨file, results, hfile, hresults, hback.nEntries.trans h.nEntries, ?_, ?_,
    hback.indexIsHit, hback.clean⟩
  · rw [hback.filename, h.filename, cString_eq_self hfn]
  · rw [hback.options, h.options, cString_eq_self hopts]

/-- The last indices of the words of a bitmap, and the first one behind it. -/
def lastIndices : List MemoryCall :=
  [.reportIndex 31, .markClean, .reportIndex 63, .reportIndex 64]

theorem hitSet_calls_twoWords : ∃ fresh file results,
    SystemModeMemory.new (ascii "/a") (ascii "--verify") 2 = some fresh ∧
    (fresh.calls lastIndices).isDirty = true ∧
    memoryToFile .little (fun _ => 0) (fresh.calls lastIndices) = some file ∧
    fileToMemory .little file = .ok results ∧ results.filename = ascii "/a" ∧
    results.options = ascii "--verify" ∧ results.indexIsHit 31 = true ∧
    results.indexIsHit 32 = false ∧ results.indexIsHit 63 = true ∧
    results.indexIsHit 64 = false := by
  obtain ⟨fresh, hnew, hhit, hdirty, hfile⟩ := hitSet_calls .little (fun _ => 0) (ascii "/a")
    (ascii "--verify") (by decide) (by decide) 2 (by decide) lastIndices
  obtain ⟨file, results, hwritten, hread, -, hname, hoptions, hsame, -⟩ := hfile (by decide)
  have hmiss : ∀ i, ¬(i.toNat < 32 * (2 : BitVec 32).toNat ∧ .reportIndex i ∈ lastIndices) →
      results.indexIsHit i = false := by
    intro i hi
    rw [hsame, Bool.eq_false_iff, ne_eq, hhit]
    exact hi
  have hanew : ReportedAnew 2 lastIndices :=
    ⟨[.reportIndex 31, .markClean], [.reportIndex 64], 63, rfl, by decide, by decide, by decide⟩
  exact ⟨fresh, file, results, hnew, hdirty.mpr hanew, hwritten, hread, hname, hoptions,
    (hsame 31).trans ((hhit 31).mpr (by decide)), hmiss 32 (by decide),
    (hsame 63).trans ((hhit 63).mpr (by decide)), hmiss 64 (by decide)⟩

end Kcov.SystemMode
