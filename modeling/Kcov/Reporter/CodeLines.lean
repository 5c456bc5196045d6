import Kcov.Reporter.Summary

/-! The summary of a reporter and the lines that it is about: the code lines of the existing, included
files, and those of them that have hits. -/

namespace Kcov

open Bytes

namespace Reporter

/-- The code lines of the files that exist and are included. -/
def codeLines (cfg : ReporterSetup) (s : Reporter) : Set LineRef :=
  {r | cfg.host.fileExists r.file = true ∧ cfg.runFilters r.file = true ∧
    s.lineIsCode r.file r.lineNr = true}

/-- The code lines with hits. -/
def executedLines (cfg : ReporterSetup) (s : Reporter) : Set LineRef :=
  {r | r ∈ codeLines cfg s ∧ (s.getLineExecutionCount cfg r.file r.lineNr).hits ≠ 0}

/-- The lines of existing, included files that the calls register, except for the excluded ones. -/
def registeredLines (cfg : ReporterSetup) (evs : List Event) : Set LineRef :=
  {r | cfg.host.fileExists r.file = true ∧ cfg.excluded r = false ∧
    evs.any (registers cfg r) = true}

/-- The summary counts the code lines and the executed lines. -/
structure CountsLines (cfg : ReporterSetup) (s : Reporter) (it : IterationOrder) : Prop where
  lines : (s.getExecutionSummary cfg it).lines.toNat = (codeLines cfg s).ncard
  executed : (s.getExecutionSummary cfg it).executedLines.toNat = (executedLines cfg s).ncard
  excluded : ∀ r ∈ codeLines cfg s, cfg.excluded r = false
  le : (s.getExecutionSummary cfg it).executedLines ≤ (s.getExecutionSummary cfg it).lines

section Lines

variable {cfg : ReporterSetup} {s : Reporter} {evs : List Event}

/-- The code lines are the registered lines, each once. -/
theorem codeLines_eq (h : run cfg evs = some s) : codeLines cfg s = registeredLines cfg evs := by
  ext r
  simp only [codeLines, registeredLines, Set.mem_ofPred_eq, run_lineIsCode h r, Bool.and_eq_true,
    Bool.not_eq_true']
  constructor
  · rintro ⟨hex, -, hexcluded, hreg⟩
    exact ⟨hex, hexcluded, hreg⟩
  · rintro ⟨hex, hexcluded, hreg⟩
    obtain ⟨ev, -, hev⟩ := List.any_eq_true.mp hreg
    refine ⟨hex, ?_, hexcluded, hreg⟩
    cases ev with
    | line f n a =>
      simp only [registers, Bool.and_eq_true, decide_eq_true_eq] at hev
      rw [← hev.1.2]
      exact hev.1.1
    | _ => simp [registers] at hev

theorem mk_injective2 : Function.Injective2 LineRef.mk := by
  intro f g n m h
  exact ⟨congrArg LineRef.file h, congrArg LineRef.lineNr h⟩

/-- The lines of a reporter, file by file. -/
theorem lines_eq (h : run cfg evs = some s) (p : Text → U32 → Bool)
    (hp : ∀ f n, p f n = true → s.lineIsCode f n = true) :
    {r : LineRef | r ∈ codeLines cfg s ∧ p r.file r.lineNr = true} =
      {r | ∃ f ∈ s.shownFiles cfg, ∃ n ∈ (Counting.wordsWith fun n => p f n), ⟨f, n⟩ = r} := by
  ext r
  simp only [Set.mem_ofPred_eq, Counting.mem_wordsWith, shownFiles, List.mem_filter]
  constructor
  · rintro ⟨⟨hex, -, hcode⟩, hr⟩
    refine ⟨r.file, ⟨?_, hex⟩, r.lineNr, hr, rfl⟩
    rw [(run_frame h).1.mem_names]
    rw [lineIsCode] at hcode
    cases hfile : s.files r.file with
    | none => simp [hfile] at hcode
    | some file => rfl
  · rintro ⟨f, ⟨hf, hex⟩, n, hn, rfl⟩
    exact ⟨⟨hex, (run_summarized h).included f ((run_frame h).1.mem_names f |>.mp hf), hp f n hn⟩, hn⟩

theorem ncard_codeLines (h : run cfg evs = some s) :
    (codeLines cfg s).ncard = ((s.shownFiles cfg).map fun f => (s.codeNrs f).card).sum := by
  have heq := lines_eq h (fun f n => s.lineIsCode f n) fun _ _ hcode => hcode
  have hself : {r : LineRef | r ∈ codeLines cfg s ∧ s.lineIsCode r.file r.lineNr = true} =
      codeLines cfg s := by
    ext r
    exact and_iff_left_of_imp fun hr => hr.2.2
  rw [← hself, heq]
  exact Counting.ncard_pairs mk_injective2 _ ((run_frame h).1.names_nodup.filter _)

theorem ncard_executedLines (h : run cfg evs = some s) :
    (executedLines cfg s).ncard =
      ((s.shownFiles cfg).map fun f => (s.executedNrs cfg f).card).sum := by
  have heq := lines_eq h (fun f n => s.isExecuted cfg f n) fun f n hn => by
    rw [isExecuted, Bool.and_eq_true] at hn
    exact hn.1
  have hself : {r : LineRef | r ∈ codeLines cfg s ∧ s.isExecuted cfg r.file r.lineNr = true} =
      executedLines cfg s := by
    ext r
    refine and_congr_right fun hr => ?_
    rw [isExecuted, hr.2.2]
    simp
  rw [← hself, heq]
  exact Counting.ncard_pairs mk_injective2 _ ((run_frame h).1.names_nodup.filter _)

theorem finite_codeLines (h : run cfg evs = some s) : (codeLines cfg s).Finite := by
  have heq := lines_eq h (fun f n => s.lineIsCode f n) fun _ _ hcode => hcode
  refine (heq ▸ Counting.finite_pairs _ _ _ : Set.Finite _).subset fun r hr => ?_
  exact ⟨hr, hr.2.2⟩

/-- A summary that is right fits into 32 bits. -/
theorem CountsLines.registeredLines_lt {it : IterationOrder} (h : run cfg evs = some s)
    (hcounts : CountsLines cfg s it) : (registeredLines cfg evs).ncard < 2 ^ 32 := by
  rw [← codeLines_eq h, ← hcounts.lines]
  exact BitVec.isLt _

/-- The summary is right if and only if the lines that are registered can be counted in 32 bits. -/
theorem counts_lines_iff (cfg : ReporterSetup) (evs : List Event) {s : Reporter}
    (hrun : run cfg evs = some s) (it : IterationOrder) :
    CountsLines cfg s it ↔ (registeredLines cfg evs).ncard < 2 ^ 32 := by
  have hle : (executedLines cfg s).ncard ≤ (codeLines cfg s).ncard :=
    Set.ncard_le_ncard (fun r hr => hr.1) (finite_codeLines hrun)
  have hlines : (s.getExecutionSummary cfg it).lines = BitVec.ofNat 32 (codeLines cfg s).ncard := by
    rw [getExecutionSummary_eq hrun, ncard_codeLines hrun]
  have hexecuted : (s.getExecutionSummary cfg it).executedLines =
      BitVec.ofNat 32 (executedLines cfg s).ncard := by
    rw [getExecutionSummary_eq hrun, ncard_executedLines hrun]
  constructor
  · exact CountsLines.registeredLines_lt hrun
  · intro hsmall
    have hcode := codeLines_eq hrun
    rw [← hcode] at hsmall
    have hlinesNat : (s.getExecutionSummary cfg it).lines.toNat = (codeLines cfg s).ncard := by
      rw [hlines, BitVec.toNat_ofNat, Nat.mod_eq_of_lt hsmall]
    have hexecutedNat : (s.getExecutionSummary cfg it).executedLines.toNat =
        (executedLines cfg s).ncard := by
      rw [hexecuted, BitVec.toNat_ofNat, Nat.mod_eq_of_lt (lt_of_le_of_lt hle hsmall)]
    refine ⟨hlinesNat, hexecutedNat, fun r hr => ?_, ?_⟩
    · rw [hcode] at hr
      exact hr.2.1
    · rw [BitVec.le_def, hlinesNat, hexecutedNat]
      exact hle

end Lines

/-! ### Two runs -/

/-- A compiled program whose files exist and are empty. -/
def emptyFiles : ReporterSetup :=
  { compiledSetup with
    host := { Host.bare with fileExists := fun _ => true, readFile := fun _ => some [] } }

/-- One line with two addresses is counted once. -/
theorem counts_hitOne : ∃ s, run emptyFiles (hitOne 16) = some s ∧
    CountsLines emptyFiles s foundOrder := by
  obtain ⟨s, hs⟩ : ∃ s, run emptyFiles (hitOne 16) = some s := ⟨_, rfl⟩
  have hsub : registeredLines emptyFiles (hitOne 16) ⊆ {⟨ascii "/a", 1⟩} := by
    rintro r ⟨-, -, hreg⟩
    obtain ⟨a, ha⟩ := exists_line_of_registers hreg
    obtain ⟨hf, hn⟩ := line_mem_hitOne ha
    rw [Set.mem_singleton_iff, ← hf, ← hn]
  have hcard := Set.ncard_le_ncard hsub
  rw [Set.ncard_singleton] at hcard
  exact ⟨s, hs, (counts_lines_iff emptyFiles (hitOne 16) hs foundOrder).mpr (by omega)⟩

/-- Two files take 2 ^ 31 lines each. -/
def nthLine (k : Nat) : LineRef :=
  ⟨if k < 2 ^ 31 then ascii "/a" else ascii "/b", BitVec.ofNat 32 (k % 2 ^ 31)⟩

/-- The first `n` lines are registered. -/
def manyLines (n : Nat) : List Event :=
  (List.range n).map fun k => .line (nthLine k).file (nthLine k).lineNr 0

theorem admits_nthLine (k : Nat) :
    Admits emptyFiles (.line (nthLine k).file (nthLine k).lineNr 0) := by
  intro _
  constructor
  · have hlt := Nat.mod_lt k (show 0 < 2 ^ 31 by decide)
    rw [Fits, nthLine, BitVec.toNat_ofNat, Nat.mod_eq_of_lt (by omega)]
    omega
  · have hlines : emptyFiles.host.getLines (nthLine k).file = [] := rfl
    rw [Opens, hlines]
    decide

theorem run_manyLines (n : Nat) : ∃ s, run emptyFiles (manyLines n) = some s := by
  induction n with
  | zero => exact ⟨_, rfl⟩
  | succ n ih =>
    obtain ⟨s, hs⟩ := ih
    obtain ⟨t, ht, -⟩ := onLine_isSome (run_sized hs).1 (admits_nthLine n)
    refine ⟨t, ?_⟩
    rw [manyLines, List.range_succ, List.map_append, List.map_singleton, ← manyLines, run_snoc, hs]
    exact ht

theorem nthLine_injOn : Set.InjOn nthLine (Finset.range (2 ^ 32)) := by
  intro k hk l hl heq
  rw [Finset.mem_coe, Finset.mem_range] at hk hl
  have hnr := congrArg (fun r => r.lineNr.toNat) heq
  have hfile := congrArg LineRef.file heq
  simp only [nthLine, BitVec.toNat_ofNat] at hnr hfile
  have hsame : k < 2 ^ 31 ↔ l < 2 ^ 31 := by
    by_cases h₁ : k < 2 ^ 31 <;> by_cases h₂ : l < 2 ^ 31
    · exact iff_of_true h₁ h₂
    · rw [if_pos h₁, if_neg h₂] at hfile
      exact absurd hfile (by decide)
    · rw [if_neg h₁, if_pos h₂] at hfile
      exact absurd hfile (by decide)
    · exact iff_of_false h₁ h₂
  omega

theorem nthLine_mem {n k : Nat} (hk : k < n) :
    nthLine k ∈ registeredLines emptyFiles (manyLines n) := by
  refine ⟨rfl, ?_, List.any_eq_true.mpr ⟨_, List.mem_map_of_mem (List.mem_range.mpr hk), ?_⟩⟩
  · have hlines : emptyFiles.host.getLines (nthLine k).file = [] := rfl
    simp [ReporterSetup.excluded, hlines, FileLineHandler.verdicts]
  · exact (registers_line rfl 0).trans (decide_eq_true rfl)

/-- A summary of 2 ^ 32 lines is wrong. -/
theorem not_counts_manyLines : ∃ s, run emptyFiles (manyLines (2 ^ 32)) = some s ∧
    ∀ it, ¬CountsLines emptyFiles s it := by
  obtain ⟨s, hs⟩ := run_manyLines (2 ^ 32)
  refine ⟨s, hs, fun it hcounts => ?_⟩
  have hlt := hcounts.registeredLines_lt hs
  have hsub : nthLine '' Finset.range (2 ^ 32) ⊆
      registeredLines emptyFiles (manyLines (2 ^ 32)) := by
    rintro r ⟨k, hk, rfl⟩
    exact nthLine_mem (Finset.mem_range.mp hk)
  have hfinite := codeLines_eq hs ▸ finite_codeLines hs
  have hcard := Set.ncard_le_ncard hsub hfinite
  rw [nthLine_injOn.ncard_image, Set.ncard_coe_finset, Finset.card_range] at hcard
  omega

end Reporter

end Kcov
