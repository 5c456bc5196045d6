import Kcov.SystemMode.Written

/-! What is on disk when the output thread has ended: it writes nothing once it sees the stop flag. -/

namespace Kcov.SystemMode

open Bytes Runs

/-- The memory that a call of `reportIndex` is for. -/
def TracerPc.target : TracerPc → Option (BitVec 32)
  | .idle => none
  | .test id _ | .read id _ | .swap id _ _ | .increment id _ => some id

namespace OutputState

/-- What the calls of `reportIndex` have left: a call that has swapped its word, or returned, has its
bit set, in a memory of `outputFiles`. -/
structure Accounted (s : OutputState) : Prop where
  targets : ∀ t, ∀ id ∈ (s.tracers t).target, id ∈ s.ids
  swapped : ∀ t id index, s.tracers t = .increment id index →
    (s.memory id).indexIsHit index = true
  completed : ∀ p ∈ s.completed, p.1 ∈ s.ids ∧ (s.memory p.1).indexIsHit p.2 = true
  stopped : ∀ p ∈ s.completedAtStop, p ∈ s.completed
  exit : s.thread = .terminated → s.doExit = true

section Accounted

variable {s s' : OutputState} {t : Nat} {id index : BitVec 32}

theorem Accounted.setTracer (h : s.Accounted) {pc : TracerPc} (htarget : ∀ id ∈ pc.target, id ∈ s.ids)
    (hswapped : ∀ id index, pc = .increment id index → (s.memory id).indexIsHit index = true) :
    (s.setTracer t pc).Accounted := by
  refine ⟨fun t' => ?_, fun t' => ?_, h.completed, h.stopped, h.exit⟩
  · by_cases ht : t' = t
    · subst ht
      rw [tracers_setTracer]
      exact htarget
    · simpa [OutputState.setTracer, Function.update_of_ne ht] using h.targets t'
  · by_cases ht : t' = t
    · subst ht
      rw [tracers_setTracer]
      exact hswapped
    · simpa [OutputState.setTracer, Function.update_of_ne ht] using h.swapped t'

theorem Accounted.complete (h : s.Accounted) (hid : id ∈ s.ids)
    (hhit : (s.memory id).indexIsHit index = true) : (s.complete t id index).Accounted := by
  have hidle : (s.setTracer t .idle).Accounted := h.setTracer (by simp [TracerPc.target]) nofun
  refine ⟨hidle.targets, hidle.swapped, fun p hp => ?_, fun p hp => ?_, hidle.exit⟩
  · rcases List.mem_cons.mp hp with rfl | hold
    · exact ⟨hid, hhit⟩
    · exact h.completed p hold
  · exact List.mem_cons_of_mem _ (h.stopped p hp)

theorem Accounted.setMemory (h : s.Accounted) {m : SystemModeMemory}
    (hmono : ∀ i, (s.memory id).indexIsHit i = true → m.indexIsHit i = true) :
    (s.setMemory id m).Accounted := by
  have hhit : ∀ cur i, (s.memory cur).indexIsHit i = true →
      ((s.setMemory id m).memory cur).indexIsHit i = true := by
    intro cur i hi
    by_cases hcur : cur = id
    · subst hcur
      rw [memory_setMemory]
      exact hmono i hi
    · simpa [OutputState.setMemory, Function.update_of_ne hcur] using hi
  exact ⟨h.targets, fun t' cur index' ht => hhit _ _ (h.swapped t' cur index' ht),
    fun p hp => ⟨(h.completed p hp).1, hhit _ _ (h.completed p hp).2⟩, h.stopped, h.exit⟩

/-- Swapping a word sets the bit of the index and keeps the others. -/
theorem indexIsHit_swap {m : SystemModeMemory} {val : BitVec 32}
    (hval : m.data[(index / 32).toNat]? = some val) (i : BitVec 32) :
    ({ m with
        data := m.data.set (index / 32).toNat (val ||| (1#32 <<< (index % 32).toNat))
        size := List.length_set.trans m.size } : SystemModeMemory).indexIsHit i = true ↔
      m.indexIsHit i = true ∨ i = index := by
  rw [SystemModeMemory.indexIsHit_eq_bitAt, SystemModeMemory.indexIsHit_eq_bitAt]
  exact SystemModeMemory.bitAt_set_index hval i

theorem Accounted.tracerStep (h : s.Accounted) (t : Nat) : (s.tracerStep t).Accounted := by
  have htarget := h.targets t
  unfold OutputState.tracerStep
  split
  case h_1 => exact h
  case h_2 id index hpc =>
    rw [hpc] at htarget
    split
    · rename_i hhit
      exact h.complete (htarget id rfl) hhit
    · exact h.setTracer htarget nofun
  case h_3 id index hpc =>
    rw [hpc] at htarget
    split
    · exact h
    · exact h.setTracer htarget nofun
  case h_4 id index val hpc =>
    rw [hpc] at htarget
    split
    · rename_i hval
      refine (h.setMemory fun i hi => (indexIsHit_swap hval i).mpr (Or.inl hi)).setTracer htarget ?_
      intro cur index' heq
      cases heq
      rw [memory_setMemory]
      exact (indexIsHit_swap hval index).mpr (Or.inr rfl)
    · exact h.setTracer htarget nofun
  case h_5 id index hpc =>
    rw [hpc] at htarget
    have hmemory : ({ s with increments := Function.update s.increments id (s.increments id + 1) } :
        OutputState).Accounted := ⟨h.targets, h.swapped, h.completed, h.stopped, h.exit⟩
    apply (hmemory.setMemory _).complete (htarget id rfl)
    · rw [memory_setMemory]
      exact h.swapped t id index hpc
    · exact fun i hi => hi

theorem terminated_of_threadStep {order : List (BitVec 32)} (h : s.thread ≠ .terminated)
    (hend : (s.threadStep order).thread = .terminated) : s.thread = .awake ∧ s.doExit = true := by
  unfold threadStep at hend
  split at hend
  case h_2 hthread =>
    refine ⟨hthread, ?_⟩
    by_contra hexit
    dsimp only at hend
    rw [if_neg hexit] at hend
    cases hend
  case h_13 hthread => exact absurd hthread h
  case h_3 hthread =>
    split at hend
    · cases hend
    · exact absurd hend h
  all_goals first
    | cases hend
    | (split at hend <;> cases hend)

theorem Accounted.threadStep (h : s.Accounted) (order : List (BitVec 32)) :
    (s.threadStep order).Accounted := by
  have hframe := threadFrame_threadStep s order
  have hhit : ∀ id index, ((s.threadStep order).memory id).indexIsHit index =
      (s.memory id).indexIsHit index := by
    intro id index
    rw [SystemModeMemory.indexIsHit_eq_bitAt, SystemModeMemory.indexIsHit_eq_bitAt, hframe.data]
  refine ⟨?_, ?_, ?_, ?_, fun hend => ?_⟩
  · rw [hframe.tracers, hframe.ids]
    exact h.targets
  · simp only [hframe.tracers, hhit]
    exact h.swapped
  · simp only [hframe.completed, hframe.ids, hhit]
    exact h.completed
  · rw [hframe.completed, hframe.completedAtStop]
    exact h.stopped
  · rw [hframe.doExit]
    by_cases hthread : s.thread = .terminated
    · exact h.exit hthread
    · exact (terminated_of_threadStep hthread hend).2

theorem Accounted.step (h : s.Accounted) (ev : OutputEvent) : (s.step ev).Accounted := by
  cases ev with
  | create cur =>
    simp only [OutputState.step]
    split
    · exact h
    · refine ⟨fun t id hid => ?_, h.swapped, fun p hp => ?_, h.stopped, h.exit⟩
      · exact List.mem_append_left _ (h.targets t id hid)
      · exact ⟨List.mem_append_left _ (h.completed p hp).1, (h.completed p hp).2⟩
  | report t cur index =>
    simp only [OutputState.step]
    split
    · rename_i hidle
      apply h.setTracer
      · intro id hid
        cases hid
        exact hidle.2.1
      · intro id index hid
        cases hid
    · exact h
  | tracer t => exact h.tracerStep t
  | output order => exact h.threadStep order
  | stop =>
    refine ⟨h.targets, h.swapped, h.completed, fun p hp => ?_, fun _ => rfl⟩
    simp only [OutputState.step] at hp
    split at hp
    · exact h.stopped p hp
    · exact hp

theorem accounted_run (new : BitVec 32 → SystemModeMemory) (evs : List OutputEvent) :
    (run new evs).Accounted := by
  induction evs using List.reverseRecOn with
  | nil =>
    refine ⟨?_, nofun, nofun, nofun, nofun⟩
    intro t id hid
    cases hid
  | append_singleton evs ev ih =>
    rw [run_append]
    exact ih.step ev

end Accounted

/-! ### The end of the output thread -/

/-- When the output thread has ended, the files contain every index whose report had returned when
the stop was requested. -/
def NothingLost (s : OutputState) : Prop :=
  s.thread = .terminated → ∀ p ∈ s.completedAtStop, ∃ file, s.files p.1 = some file ∧
    bitAt file (p.2 / 32).toNat (p.2 % 32).toNat = true

/-- When the output thread sees the stop flag, every memory is clean, and no tracer is about to make
one dirty. -/
def StopsClean (s : OutputState) : OutputEvent → Prop
  | .output _ => s.thread = .awake → s.doExit = true → ∀ id ∈ s.ids,
      (s.memory id).isDirty = false ∧ ∀ t index, s.tracers t ≠ .increment id index
  | _ => True

section End

variable {s : OutputState}

/-- The step with which the output thread ends. -/
theorem nothingLost_of_clean (h : s.Accounted)
    (htracked : ∀ id, s.Tracked id) {order : List (BitVec 32)} (hthread : s.thread = .awake)
    (hexit : s.doExit = true) (hclean : s.StopsClean (.output order)) :
    (s.step (.output order)).NothingLost := by
  have hstep : s.step (.output order) = { s with thread := .terminated } := by
    simp only [step, threadStep, hthread, hexit, if_true]
  rw [hstep]
  intro _ p hp
  obtain ⟨hid, hhit⟩ := h.completed p (h.stopped p hp)
  rw [SystemModeMemory.indexIsHit_eq_bitAt] at hhit
  exact (htracked p.1).onDisk (Or.inr (Or.inl hthread))
    (not_pending_iff.mpr (hclean hthread hexit p.1 hid)) hhit

/-- Once the output thread has ended, nothing changes that matters. -/
theorem step_of_terminated (h : s.Accounted) (hthread : s.thread = .terminated)
    (ev : OutputEvent) : (s.step ev).files = s.files ∧
      (s.step ev).completedAtStop = s.completedAtStop := by
  cases ev with
  | create cur =>
    simp only [step]
    split <;> exact ⟨rfl, rfl⟩
  | report t cur index =>
    simp only [step]
    split <;> exact ⟨rfl, rfl⟩
  | tracer t =>
    simp only [step, tracerStep]
    split
    case h_1 => exact ⟨rfl, rfl⟩
    case h_5 => exact ⟨rfl, rfl⟩
    all_goals split <;> exact ⟨rfl, rfl⟩
  | output order => simp only [step, threadStep, hthread, and_self]
  | stop => simp only [step, h.exit hthread, if_true, and_self]

theorem thread_tracerStep (s : OutputState) (t : Nat) : (s.tracerStep t).thread = s.thread := by
  rcases tracerStep_cases s t 0 with hsame | ⟨_, _, _, _, _, _, _, _, hthread⟩ | ⟨_, _, _, _, _, hthread⟩
  · exact hsame.thread
  · exact hthread
  · exact hthread

theorem NothingLost.step (h : s.Accounted) (htracked : ∀ id, s.Tracked id) (hlost : s.NothingLost)
    {ev : OutputEvent} (hclean : s.StopsClean ev) : (s.step ev).NothingLost := by
  by_cases hthread : s.thread = .terminated
  · obtain ⟨hfiles, hstop⟩ := step_of_terminated h hthread ev
    intro _
    rw [hfiles, hstop]
    exact hlost hthread
  · cases ev with
    | output order =>
      intro hend
      obtain ⟨hawake, hexit⟩ := terminated_of_threadStep hthread hend
      exact nothingLost_of_clean h htracked hawake hexit hclean hend
    | create cur =>
      have hsame : (s.step (.create cur)).thread = s.thread := by
        simp only [OutputState.step]
        split <;> rfl
      exact fun hend => absurd (hsame.symm.trans hend) hthread
    | report t cur index =>
      have hsame : (s.step (.report t cur index)).thread = s.thread := by
        simp only [OutputState.step]
        split <;> rfl
      exact fun hend => absurd (hsame.symm.trans hend) hthread
    | tracer t => exact fun hend => absurd ((thread_tracerStep s t).symm.trans hend) hthread
    | stop => exact fun hend => absurd hend hthread

/-- Nothing is lost in a run whose output thread finds every memory clean when it sees the stop
flag. -/
theorem nothing_lost {new : BitVec 32 → SystemModeMemory}
    (hnew : ∀ id, ∃ fn opts n, SystemModeMemory.new fn opts n = some (new id))
    (evs : List OutputEvent) (hcount : ∀ id, (run new evs).increments id < 2 ^ 32)
    (hclean : AllSteps (fun before ev => (run new before).StopsClean ev) evs) :
    (run new evs).NothingLost := by
  induction evs using List.reverseRecOn with
  | nil => exact nofun
  | append_singleton evs ev ih =>
    obtain ⟨hbefore, hlast⟩ := allSteps_snoc.mp hclean
    rw [run_append] at hcount ⊢
    have hcount' : ∀ id, (run new evs).increments id < 2 ^ 32 := fun id =>
      lt_of_le_of_lt (increments_le_step (run new evs) ev id) (hcount id)
    exact (ih hcount' hbefore).step (accounted_run new evs)
      (fun id => tracked_run hnew evs (hcount' id)) hlast

end End

/-- The daemon is stopped after a report and a round of the output thread. -/
def stopAfterRound : List OutputEvent := reportAndRound ++ [.stop, .output []]

theorem nothing_lost_after_round :
    (run (fun _ => oneWord) (stopAfterRound ++ [.output []])).thread = .terminated ∧
      (run (fun _ => oneWord) (stopAfterRound ++ [.output []])).completedAtStop = [(0, 5)] ∧
      (run (fun _ => oneWord) (stopAfterRound ++ [.output []])).NothingLost := by
  refine ⟨rfl, rfl, @nothing_lost (fun _ => oneWord) (fun _ => ⟨[], [], 1, rfl⟩) _
    (fun id => ?_) ?_⟩
  · have hincrements : (run (fun _ => oneWord) (stopAfterRound ++ [.output []])).increments =
        Function.update (fun _ => 0) 0 1 := rfl
    rw [hincrements]
    by_cases hid : id = 0
    · subst hid
      decide
    · rw [Function.update_of_ne hid]
      decide
  · refine allSteps_snoc.mpr ⟨fun before ev h => ?_, ?_⟩
    · -- before its last step the output thread has not seen the flag
      have hnot : ∀ i < stopAfterRound.length,
          (run (fun _ => oneWord) (stopAfterRound.take i)).thread = .awake →
            (run (fun _ => oneWord) (stopAfterRound.take i)).doExit = false := by
        decide
      have hlen := h.length_le
      rw [List.length_append, List.length_singleton] at hlen
      have hprefix := List.prefix_iff_eq_take.mp ((List.prefix_append before [ev]).trans h)
      have hthis := hnot before.length hlen
      rw [← hprefix] at hthis
      cases ev with
      | output order => exact fun hawake hexit => absurd (hthis hawake) (by simp [hexit])
      | _ => trivial
    · intro _ _ id hid
      obtain rfl : id = 0 := List.mem_singleton.mp hid
      refine ⟨rfl, fun t index => ?_⟩
      cases t with
      | zero => exact nofun
      | succ t => exact nofun

/-- The daemon is stopped after a report, before the output thread has made a round. -/
def stopBeforeRound : List OutputEvent :=
  [.create 0, .report 0 0 5] ++ List.replicate 4 (.tracer 0) ++ [.stop, .output [], .output []]

/-- The report has returned, the output thread has ended, and there is no file. -/
theorem not_nothing_lost_before_round :
    ¬(run (fun _ => oneWord) stopBeforeRound).NothingLost := by
  intro h
  obtain ⟨file, hfile, -⟩ := h rfl (0, 5) List.mem_cons_self
  cases hfile

end OutputState

end Kcov.SystemMode
