import Kcov.Lib.Runs
import Kcov.SystemMode.Bitmap
import Kcov.SystemMode.OutputThread

/-! What the files of the output thread hold: a memory that is clean has all its bits on disk. -/

namespace Kcov.SystemMode

open Bytes Runs

/-! ### Copying words -/

theorem bitAt_append_left {words more : List (BitVec 32)} {k : Nat} (hk : k < words.length)
    (j : Nat) : bitAt (words ++ more) k j = bitAt words k j := by
  unfold bitAt
  rw [List.getElem?_append_left hk]

theorem bitAt_concat_length (words : List (BitVec 32)) (w : BitVec 32) (j : Nat) :
    bitAt (words ++ [w]) words.length j = w.getLsbD j := by
  unfold bitAt
  rw [List.getElem?_concat_length]
  rfl

/-! ### The invariant -/

namespace OutputState

/-- The memory `id` will be written again: it is dirty, or a tracer is about to make it so. -/
def Pending (s : OutputState) (id : BitVec 32) : Prop :=
  (s.memory id).cleanCount ≠ (s.memory id).dirtyCount ∨
    ∃ t index, s.tracers t = .increment id index

/-- The words of the memory `id` that are on their way to its file or, when it is not being written,
in the file. -/
def saved (s : OutputState) (id : BitVec 32) : List (BitVec 32) :=
  let file := (s.files id).getD []
  match s.thread with
  | .copying cur _ copied | .opening cur _ copied | .writing cur _ copied =>
    if cur = id then copied else file
  | _ => file

/-- How many words must be there: those that are still to be copied count as none. -/
def limit (s : OutputState) (id : BitVec 32) : Nat :=
  let all := (s.memory id).data.length
  match s.thread with
  | .markRead cur _ | .markWrite cur _ _ => if cur = id then 0 else all
  | .copying cur _ copied => if cur = id then copied.length else all
  | _ => all

/-- Up to the limit, every bit that is set has been saved. -/
def Saved (s : OutputState) (id : BitVec 32) : Prop :=
  ∀ k < s.limit id, ∀ j, bitAt (s.memory id).data k j = true → bitAt (s.saved id) k j = true

/-- What holds for the memory `id` as long as its `dirtyCount` has not wrapped. -/
structure Tracked (s : OutputState) (id : BitVec 32) : Prop where
  dirty : (s.memory id).dirtyCount.toNat = s.increments id
  clean : (s.memory id).cleanCount.toNat ≤ (s.memory id).dirtyCount.toNat
  mark : ∀ todo dirty, s.thread = .markWrite id todo dirty →
    dirty.toNat ≤ (s.memory id).dirtyCount.toNat
  written : s.Saved id ∨ s.Pending id

section Steps

variable {s s' : OutputState} {id : BitVec 32}

/-- Nothing that concerns the memory `id` changes. -/
structure Same (id : BitVec 32) (s s' : OutputState) : Prop where
  memory : s'.memory id = s.memory id
  files : s'.files id = s.files id
  increments : s'.increments id = s.increments id
  thread : s'.thread = s.thread
  tracers : ∀ t index, s.tracers t = .increment id index → s'.tracers t = .increment id index

theorem Pending.same (h : Same id s s') (hp : s.Pending id) : s'.Pending id := by
  rcases hp with hcount | ⟨t, index, ht⟩
  · exact Or.inl (by rw [h.memory]; exact hcount)
  · exact Or.inr ⟨t, index, h.tracers t index ht⟩

theorem Tracked.same (h : Same id s s') (ht : s.Tracked id) : s'.Tracked id := by
  obtain ⟨hdirty, hclean, hmark, hsaved⟩ := ht
  refine ⟨by rw [h.memory, h.increments, hdirty], by rw [h.memory]; exact hclean, ?_, ?_⟩
  · intro todo dirty hthread
    rw [h.memory]
    exact hmark todo dirty (h.thread ▸ hthread)
  · apply hsaved.imp _ (Pending.same h)
    intro hs
    unfold Saved limit saved at hs ⊢
    rw [h.memory, h.files, h.thread]
    exact hs

/-- What a step of a tracer does to the memory `id`. -/
theorem tracerStep_cases (s : OutputState) (t : Nat) (id : BitVec 32) :
    Same id s (s.tracerStep t) ∨
    (∃ index val, s.tracers t = .swap id index val ∧
      (s.memory id).data[(index / 32).toNat]? = some val ∧
      (s.tracerStep t).tracers t = .increment id index ∧
      (s.tracerStep t).increments id = s.increments id ∧
      ((s.tracerStep t).memory id).dirtyCount = (s.memory id).dirtyCount ∧
      ((s.tracerStep t).memory id).cleanCount = (s.memory id).cleanCount ∧
      (s.tracerStep t).thread = s.thread) ∨
    (∃ index, s.tracers t = .increment id index ∧
      (s.tracerStep t).increments id = s.increments id + 1 ∧
      ((s.tracerStep t).memory id).dirtyCount = (s.memory id).dirtyCount + 1 ∧
      ((s.tracerStep t).memory id).cleanCount = (s.memory id).cleanCount ∧
      (s.tracerStep t).thread = s.thread) := by
  -- a step of `t` leaves the other tracers alone
  have hothers : ∀ pc, (∀ index, s.tracers t ≠ .increment id index) → ∀ t' index,
      s.tracers t' = .increment id index →
      Function.update s.tracers t pc t' = .increment id index := by
    intro pc hnot t' index ht'
    rw [Function.update_of_ne (by rintro rfl; exact hnot index ht'), ht']
  unfold tracerStep
  split
  · exact Or.inl ⟨rfl, rfl, rfl, rfl, fun _ _ h => h⟩
  · rename_i cur index hpc
    split
    · exact Or.inl ⟨rfl, rfl, rfl, rfl, hothers _ (by simp [hpc])⟩
    · exact Or.inl ⟨rfl, rfl, rfl, rfl, hothers _ (by simp [hpc])⟩
  · rename_i cur index hpc
    split
    · exact Or.inl ⟨rfl, rfl, rfl, rfl, fun _ _ h => h⟩
    · exact Or.inl ⟨rfl, rfl, rfl, rfl, hothers _ (by simp [hpc])⟩
  · rename_i cur index val hpc
    split
    · rename_i hval
      by_cases hcur : cur = id
      · subst hcur
        refine Or.inr (Or.inl ⟨index, val, hpc, hval, ?_, rfl, ?_, ?_, rfl⟩) <;>
          simp [setMemory, setTracer]
      · refine Or.inl ⟨?_, rfl, rfl, rfl, hothers _ (by simp [hpc])⟩
        exact Function.update_of_ne (Ne.symm hcur) _ _
    · exact Or.inl ⟨rfl, rfl, rfl, rfl, hothers _ (by simp [hpc])⟩
  · rename_i cur index hpc
    by_cases hcur : cur = id
    · subst hcur
      refine Or.inr (Or.inr ⟨index, hpc, ?_, ?_, ?_, rfl⟩) <;>
        simp [setMemory, setTracer, complete]
    · refine Or.inl ⟨?_, rfl, ?_, rfl, hothers _ (by simp [hpc, hcur])⟩
      · exact Function.update_of_ne (Ne.symm hcur) _ _
      · exact Function.update_of_ne (Ne.symm hcur) _ _

theorem Tracked.tracerStep (ht : s.Tracked id) (t : Nat)
    (hcount : (s.tracerStep t).increments id < 2 ^ 32) : (s.tracerStep t).Tracked id := by
  rcases tracerStep_cases s t id with hsame | ⟨index, val, -, -, hpc, hincr, hdirty, hclean, hthread⟩ |
    ⟨index, -, hincr, hdirty, hclean, hthread⟩
  · exact ht.same hsame
  · refine ⟨by rw [hdirty, hincr, ht.dirty], by rw [hdirty, hclean]; exact ht.clean, ?_,
      Or.inr (Or.inr ⟨t, index, hpc⟩)⟩
    intro todo dirty h
    rw [hdirty]
    exact ht.mark todo dirty (hthread ▸ h)
  · have hone : ((s.tracerStep t).memory id).dirtyCount.toNat =
        (s.memory id).dirtyCount.toNat + 1 := by
      have hold := ht.dirty
      have h1 : (1 : BitVec 32).toNat = 1 := rfl
      rw [hdirty, BitVec.toNat_add, h1, Nat.mod_eq_of_lt (by omega)]
    have hle := ht.clean
    refine ⟨by rw [hone, ht.dirty, hincr], by rw [hone, hclean]; omega, ?_, Or.inr (Or.inl ?_)⟩
    · intro todo dirty h
      have := ht.mark todo dirty (hthread ▸ h)
      omega
    · intro heq
      have := congrArg BitVec.toNat heq
      rw [hone, hclean] at this
      omega

/-- A step of the output thread that leaves the counts as they are and saves what was saved. -/
theorem Tracked.of_thread (ht : s.Tracked id) (hmemory : s'.memory id = s.memory id)
    (hincrements : s'.increments id = s.increments id) (htracers : s'.tracers = s.tracers)
    (hmark : ∀ todo dirty, s'.thread = .markWrite id todo dirty →
      dirty.toNat ≤ (s.memory id).dirtyCount.toNat)
    (hsaved : s.Saved id → s'.Saved id) : s'.Tracked id := by
  refine ⟨by rw [hmemory, hincrements, ht.dirty], by rw [hmemory]; exact ht.clean,
    by rw [hmemory]; exact hmark, ht.written.imp hsaved ?_⟩
  unfold Pending
  rw [hmemory, htracers]
  exact fun h => h

/-- The output thread goes on without an access that matters. -/
theorem Tracked.move (ht : s.Tracked id) {pc : ThreadPc}
    (hmark : ∀ todo dirty, pc = .markWrite id todo dirty →
      dirty.toNat ≤ (s.memory id).dirtyCount.toNat)
    (hlimit : ({ s with thread := pc } : OutputState).limit id ≤ s.limit id)
    (hsaved : ({ s with thread := pc } : OutputState).saved id = s.saved id) :
    ({ s with thread := pc } : OutputState).Tracked id := by
  refine ht.of_thread rfl rfl rfl hmark fun h => ?_
  unfold Saved at h ⊢
  rw [hsaved]
  exact fun k hk => h k (lt_of_lt_of_le hk hlimit)

/-- Copying one more word. -/
theorem Saved.copy {todo copied : List (BitVec 32)} {word : BitVec 32}
    (hword : (s.memory id).data[copied.length]? = some word)
    (hthread : s.thread = .copying id todo copied) (h : s.Saved id) :
    ({ s with thread := .copying id todo (copied ++ [word]) } : OutputState).Saved id := by
  unfold Saved limit saved at h ⊢
  rw [hthread] at h
  simp only [if_true, List.length_append, List.length_singleton] at h ⊢
  intro k hk j hbit
  rcases Nat.lt_or_ge k copied.length with hlt | hge
  · rw [bitAt_append_left hlt]
    exact h k hlt j hbit
  · obtain rfl : k = copied.length := by omega
    rw [bitAt_concat_length]
    unfold bitAt at hbit
    rw [hword] at hbit
    exact hbit

theorem Tracked.threadStep (ht : s.Tracked id) (order : List (BitVec 32)) :
    (s.threadStep order).Tracked id := by
  unfold OutputState.threadStep
  split
  case h_1 hthread =>
    exact ht.move (by simp) (by simp [limit, hthread]) (by simp [saved, hthread])
  case h_2 hthread =>
    split
    · exact ht.move (by simp) (by simp [limit, hthread]) (by simp [saved, hthread])
    · exact ht.move (by simp) (by simp [limit, hthread]) (by simp [saved, hthread])
  case h_3 hthread =>
    split
    · exact ht.move (by simp) (by simp [limit, hthread]) (by simp [saved, hthread])
    · exact ht
  case h_4 hthread =>
    exact ht.move (by simp) (by simp [limit, hthread]) (by simp [saved, hthread])
  case h_5 cur todo hthread =>
    exact ht.move (by simp) (by simp [limit, hthread]) (by simp [saved, hthread])
  case h_6 cur todo hthread =>
    exact ht.move (by simp) (by simp [limit, hthread]) (by simp [saved, hthread])
  case h_7 cur todo dirty hthread =>
    split
    · refine ht.move (by simp) ?_ (by simp [saved, hthread])
      simp only [limit, hthread]
      split <;> omega
    · exact ht.move (by simp) (by simp [limit, hthread]) (by simp [saved, hthread])
  case h_8 cur todo hthread =>
    refine ht.move ?_ (by simp [limit, hthread]) (by simp [saved, hthread])
    intro todo' dirty h
    cases h
    exact le_rfl
  case h_9 cur todo dirty hthread =>
    by_cases hcur : cur = id
    · -- the mark is taken, and nothing has been copied yet
      subst hcur
      refine ⟨?_, ?_, by simp, Or.inl ?_⟩
      · simpa [setMemory] using ht.dirty
      · simpa [setMemory] using ht.mark todo dirty hthread
      · simp [Saved, limit]
    · refine ht.of_thread (Function.update_of_ne (Ne.symm hcur) _ _) rfl rfl (by simp) ?_
      simp only [Saved, limit, saved, hthread, if_neg hcur, setMemory,
        Function.update_of_ne (Ne.symm hcur), imp_self]
  case h_10 cur todo copied hthread =>
    by_cases hcur : cur = id
    · subst hcur
      split
      · rename_i word hword
        exact ht.of_thread rfl rfl rfl (by simp) (Saved.copy hword hthread)
      · rename_i hnone
        rw [List.getElem?_eq_none_iff] at hnone
        exact ht.move (by simp) (by simpa [limit, hthread] using hnone) (by simp [saved, hthread])
    · split
      · exact ht.move (by simp) (by simp [limit, hthread, hcur]) (by simp [saved, hthread, hcur])
      · exact ht.move (by simp) (by simp [limit, hthread, hcur]) (by simp [saved, hthread, hcur])
  case h_11 cur todo copied hthread =>
    refine ht.of_thread rfl rfl rfl (by simp) ?_
    by_cases hcur : cur = id
    · simp only [Saved, limit, saved, hthread, if_pos hcur, setFile, imp_self]
    · simp only [Saved, limit, saved, hthread, if_neg hcur, setFile,
        Function.update_of_ne (Ne.symm hcur), imp_self]
  case h_12 cur todo copied hthread =>
    refine ht.of_thread rfl rfl rfl (by simp) ?_
    by_cases hcur : cur = id
    · subst hcur
      simp only [Saved, limit, saved, hthread, if_true, setFile, Function.update_self,
        Option.getD_some, imp_self]
    · simp only [Saved, limit, saved, hthread, if_neg hcur, setFile,
        Function.update_of_ne (Ne.symm hcur), imp_self]
  case h_13 => exact ht

/-- What a step of the output thread leaves alone. -/
structure ThreadFrame (s s' : OutputState) : Prop where
  ids : s'.ids = s.ids
  tracers : s'.tracers = s.tracers
  doExit : s'.doExit = s.doExit
  increments : s'.increments = s.increments
  completed : s'.completed = s.completed
  completedAtStop : s'.completedAtStop = s.completedAtStop
  data : ∀ id, (s'.memory id).data = (s.memory id).data

theorem threadFrame_threadStep (s : OutputState) (order : List (BitVec 32)) :
    ThreadFrame s (s.threadStep order) := by
  have hclean : ∀ cur dirty id, ((s.setMemory cur { s.memory cur with cleanCount := dirty }).memory
      id).data = (s.memory id).data := by
    intro cur dirty id
    simp only [setMemory]
    by_cases hid : id = cur
    · subst hid
      rw [Function.update_self]
    · rw [Function.update_of_ne hid]
  unfold threadStep
  split
  case h_3 => split <;> exact ⟨rfl, rfl, rfl, rfl, rfl, rfl, fun _ => rfl⟩
  case h_7 => split <;> exact ⟨rfl, rfl, rfl, rfl, rfl, rfl, fun _ => rfl⟩
  case h_9 cur todo dirty hthread => exact ⟨rfl, rfl, rfl, rfl, rfl, rfl, hclean cur dirty⟩
  case h_10 => split <;> exact ⟨rfl, rfl, rfl, rfl, rfl, rfl, fun _ => rfl⟩
  all_goals exact ⟨rfl, rfl, rfl, rfl, rfl, rfl, fun _ => rfl⟩

theorem increments_le_step (s : OutputState) (ev : OutputEvent) (id : BitVec 32) :
    s.increments id ≤ (s.step ev).increments id := by
  cases ev with
  | create cur =>
    simp only [step]
    split <;> exact le_rfl
  | report t cur index =>
    simp only [step]
    split <;> exact le_rfl
  | tracer t =>
    rcases tracerStep_cases s t id with hsame | ⟨_, _, _, _, _, hincr, _⟩ | ⟨_, _, hincr, _⟩
    · exact hsame.increments.ge
    · exact hincr.ge
    · show s.increments id ≤ (s.tracerStep t).increments id
      omega
  | output order =>
    have hframe := threadFrame_threadStep s order
    exact (congrFun hframe.increments id).ge
  | stop => exact le_rfl

theorem Tracked.step (ht : s.Tracked id) (ev : OutputEvent)
    (hcount : (s.step ev).increments id < 2 ^ 32) : (s.step ev).Tracked id := by
  cases ev with
  | create cur =>
    apply ht.same
    simp only [OutputState.step]
    split <;> exact ⟨rfl, rfl, rfl, rfl, fun _ _ h => h⟩
  | report t cur index =>
    apply ht.same
    simp only [OutputState.step]
    split
    · rename_i hidle
      refine ⟨rfl, rfl, rfl, rfl, fun t' index' h => ?_⟩
      have hne : t' ≠ t := by
        rintro rfl
        rw [hidle.1] at h
        cases h
      exact (Function.update_of_ne hne _ _).trans h
    · exact ⟨rfl, rfl, rfl, rfl, fun _ _ h => h⟩
  | tracer t => exact ht.tracerStep t hcount
  | output order => exact ht.threadStep order
  | stop =>
    apply ht.same
    exact ⟨rfl, rfl, rfl, rfl, fun _ _ h => h⟩

end Steps

/-! ### Runs -/

section Run

variable {new : BitVec 32 → SystemModeMemory} {id : BitVec 32}

theorem run_append (new : BitVec 32 → SystemModeMemory) (evs : List OutputEvent)
    (ev : OutputEvent) : run new (evs ++ [ev]) = (run new evs).step ev := by
  unfold run
  rw [List.foldl_append]
  rfl

theorem bitAt_new {fn opts : List Byte} {n : BitVec 32} {m : SystemModeMemory}
    (h : SystemModeMemory.new fn opts n = some m) :
    (∀ k j, bitAt m.data k j = false) ∧ m.dirtyCount = 0 ∧ m.cleanCount = 0 := by
  unfold SystemModeMemory.new at h
  split at h
  · cases h
    exact ⟨bitAt_replicate_zero _, rfl, rfl⟩
  · cases h

theorem tracked_run (hnew : ∀ id, ∃ fn opts n, SystemModeMemory.new fn opts n = some (new id))
    (evs : List OutputEvent) (hcount : (run new evs).increments id < 2 ^ 32) :
    (run new evs).Tracked id := by
  induction evs using List.reverseRecOn with
  | nil =>
    obtain ⟨fn, opts, n, h⟩ := hnew id
    obtain ⟨hbits, hdirty, hclean⟩ := bitAt_new h
    refine ⟨?_, ?_, by simp [run, start], Or.inl fun k _ j hbit => ?_⟩
    · simp [run, start, hdirty]
    · simp [run, start, hclean]
    · exact absurd hbit (by simp [run, start, hbits])
  | append_singleton evs ev ih =>
    rw [run_append] at hcount ⊢
    have hle := increments_le_step (run new evs) ev id
    exact (ih (by omega)).step ev hcount

end Run

end OutputState

/-- The output thread is between two rounds, or has ended. -/
def ThreadPc.BetweenRounds (pc : ThreadPc) : Prop :=
  pc = .waiting ∨ pc = .awake ∨ pc = .terminated

namespace OutputState

/-- Between two rounds, the file of a memory that will not be written again has all its bits. -/
theorem Tracked.onDisk {s : OutputState} {id : BitVec 32} (ht : s.Tracked id)
    (hthread : s.thread.BetweenRounds) (hpending : ¬s.Pending id) {k j : Nat}
    (hbit : bitAt (s.memory id).data k j = true) :
    ∃ file, s.files id = some file ∧ bitAt file k j = true := by
  have hlt := lt_of_bitAt hbit
  have hlimit : s.limit id = (s.memory id).data.length := by
    rcases hthread with h | h | h <;> simp only [limit, h]
  have hfile : s.saved id = (s.files id).getD [] := by
    rcases hthread with h | h | h <;> simp only [saved, h]
  have hsaved := ht.written.resolve_right hpending k (by omega) j hbit
  rw [hfile] at hsaved
  cases hf : s.files id with
  | none =>
    rw [hf, Option.getD_none, bitAt_nil] at hsaved
    cases hsaved
  | some file =>
    rw [hf] at hsaved
    exact ⟨file, rfl, hsaved⟩

theorem not_pending_iff {s : OutputState} {id : BitVec 32} :
    ¬s.Pending id ↔ (s.memory id).isDirty = false ∧
      ∀ t index, s.tracers t ≠ .increment id index := by
  unfold Pending SystemModeMemory.isDirty
  rw [not_or, not_ne_iff, decide_eq_false_iff_not, not_ne_iff, eq_comm]
  simp

/-- Clean means on disk: between two rounds, when no tracer is about to increment the counter of a
clean memory, the last file written for it contains every bit that is set. -/
theorem clean_on_disk {new : BitVec 32 → SystemModeMemory}
    (hnew : ∀ id, ∃ fn opts n, SystemModeMemory.new fn opts n = some (new id))
    (evs : List OutputEvent) (id : BitVec 32) (hcount : (run new evs).increments id < 2 ^ 32)
    (hthread : (run new evs).thread.BetweenRounds)
    (htracers : ∀ t index, (run new evs).tracers t ≠ .increment id index)
    (hclean : ((run new evs).memory id).isDirty = false) :
    (∃ file, (run new evs).files id = some file ∧
      ∀ k j, bitAt ((run new evs).memory id).data k j = true → bitAt file k j = true) ∨
    ((run new evs).files id = none ∧ ∀ k j, bitAt ((run new evs).memory id).data k j = false) := by
  have ht := tracked_run hnew evs hcount
  have hpending := not_pending_iff.mpr ⟨hclean, htracers⟩
  cases hfile : (run new evs).files id with
  | none =>
    refine Or.inr ⟨rfl, fun k j => Bool.eq_false_iff.mpr fun hbit => ?_⟩
    obtain ⟨file, hsome, -⟩ := ht.onDisk hthread hpending hbit
    rw [hfile] at hsome
    cases hsome
  | some file =>
    refine Or.inl ⟨file, rfl, fun k j hbit => ?_⟩
    obtain ⟨file', hsome, hsaved⟩ := ht.onDisk hthread hpending hbit
    rw [hfile] at hsome
    cases hsome
    exact hsaved

/-- A memory for up to 32 addresses. -/
def oneWord : SystemModeMemory :=
  { filename := []
    options := []
    nEntries := 1
    data := [0]
    dirtyCount := 0
    cleanCount := 0
    size := rfl }

/-- A tracer reports the index 5, and then the output thread makes a round. -/
def reportAndRound : List OutputEvent :=
  [.create 0, .report 0 0 5] ++ List.replicate 4 (.tracer 0) ++ List.replicate 13 (.output [0])

theorem clean_on_disk_round : ∃ file,
    (run (fun _ => oneWord) reportAndRound).files 0 = some file ∧ bitAt file 0 5 = true ∧
    ∀ k j, bitAt ((run (fun _ => oneWord) reportAndRound).memory 0).data k j = true →
      bitAt file k j = true := by
  have hbit : bitAt ((run (fun _ => oneWord) reportAndRound).memory 0).data 0 5 = true := by decide
  have hdisk := @clean_on_disk (fun _ => oneWord) (fun _ => ⟨[], [], 1, rfl⟩) reportAndRound 0
    (by decide) (Or.inl rfl) (fun t index => by cases t <;> exact nofun) rfl
  rcases hdisk with ⟨file, hfile, hsaved⟩ | ⟨-, hzero⟩
  · exact ⟨file, hfile, hsaved 0 5 hbit, hsaved⟩
  · exact absurd (hbit.symm.trans (hzero 0 5)) (by decide)

end OutputState

end Kcov.SystemMode
