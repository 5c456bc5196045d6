import Kcov.SystemMode.Shutdown

/-! What the memories and files of the system-mode daemon can hold: no bit that no call of
`reportIndex` has set. -/

namespace Kcov.SystemMode

/-- Every bit of `words` is one of `data`. -/
def Below (words data : List (BitVec 32)) : Prop :=
  ∀ k j, bitAt words k j = true → bitAt data k j = true

theorem Below.trans {a b c : List (BitVec 32)} (h : Below a b) (h' : Below b c) : Below a c :=
  fun k j hbit => h' k j (h k j hbit)

theorem below_nil (data : List (BitVec 32)) : Below [] data := by
  intro k j h
  rw [bitAt_nil] at h
  cases h

/-- One more word of the same bitmap. -/
theorem Below.snoc {words data : List (BitVec 32)} {w : BitVec 32} (h : Below words data)
    (hw : data[words.length]? = some w) : Below (words ++ [w]) data := by
  intro k j hbit
  have hlt := lt_of_bitAt hbit
  rw [List.length_append, List.length_singleton] at hlt
  rcases Nat.lt_succ_iff_lt_or_eq.mp hlt with hk | rfl
  · rw [bitAt_append_left hk] at hbit
    exact h k j hbit
  · rw [bitAt_concat_length] at hbit
    rw [bitAt, hw]
    exact hbit

/-- The call of `reportIndex` that a tracer is in. -/
def TracerPc.call : TracerPc → Option (BitVec 32 × BitVec 32)
  | .idle => none
  | .test id index | .read id index | .swap id index _ | .increment id index => some (id, index)

namespace OutputState

/-- What every step keeps of the memories: all but the counters, where bits that are set stay set. -/
structure Kept (s s' : OutputState) : Prop where
  filename : ∀ id, (s'.memory id).filename = (s.memory id).filename
  options : ∀ id, (s'.memory id).options = (s.memory id).options
  nEntries : ∀ id, (s'.memory id).nEntries = (s.memory id).nEntries
  bits : ∀ id, Below (s.memory id).data (s'.memory id).data

section Steps

variable {s s' : OutputState} {t : Nat} {id : BitVec 32}

theorem Kept.length (h : Kept s s') (id : BitVec 32) :
    (s'.memory id).data.length = (s.memory id).data.length := by
  rw [(s'.memory id).size, h.nEntries, (s.memory id).size]

theorem Kept.of_memory (h : s'.memory = s.memory) : Kept s s' := by
  constructor
  · exact fun _ => by rw [h]
  · exact fun _ => by rw [h]
  · exact fun _ => by rw [h]
  · exact fun _ _ _ hbit => by rw [h]; exact hbit

/-- One memory gets other counters, or more bits. -/
theorem Kept.of_update {m : SystemModeMemory} {cur : BitVec 32}
    (hmemory : s'.memory = Function.update s.memory cur m)
    (hfilename : m.filename = (s.memory cur).filename) (hoptions : m.options = (s.memory cur).options)
    (hnEntries : m.nEntries = (s.memory cur).nEntries)
    (hbits : Below (s.memory cur).data m.data) : Kept s s' := by
  rw [← Function.update_self cur m s.memory, ← hmemory] at hfilename hoptions hnEntries hbits
  have hother : ∀ id, id ≠ cur → s'.memory id = s.memory id := fun id hid => by
    rw [hmemory, Function.update_of_ne hid]
  refine ⟨fun id => ?_, fun id => ?_, fun id => ?_, fun id => ?_⟩
  · by_cases hid : id = cur
    · exact hid ▸ hfilename
    · rw [hother id hid]
  · by_cases hid : id = cur
    · exact hid ▸ hoptions
    · rw [hother id hid]
  · by_cases hid : id = cur
    · exact hid ▸ hnEntries
    · rw [hother id hid]
  · by_cases hid : id = cur
    · exact hid ▸ hbits
    · rw [hother id hid]
      exact fun _ _ hbit => hbit

/-- What a step of the tracer `t` does. -/
structure TracerFrame (t : Nat) (s s' : OutputState) : Prop where
  ids : s'.ids = s.ids
  files : s'.files = s.files
  thread : s'.thread = s.thread
  others : ∀ t' ≠ t, s'.tracers t' = s.tracers t'
  kept : Kept s s'
  /-- A new bit is that of the call. -/
  hit : ∀ id index, (s'.memory id).indexIsHit index = true →
    (s.memory id).indexIsHit index = true ∨ (s.tracers t).call = some (id, index)
  /-- A call ends when its bit is set. -/
  call : (s'.tracers t).call = (s.tracers t).call ∨ (s'.tracers t).call = none ∧
    ∀ id index, (s.tracers t).call = some (id, index) → (s'.memory id).indexIsHit index = true

theorem tracers_setTracer_of_ne {t' : Nat} (h : t' ≠ t) (s : OutputState) (pc : TracerPc) :
    (s.setTracer t pc).tracers t' = s.tracers t' := Function.update_of_ne h _ _

theorem memory_setMemory_of_ne {cur : BitVec 32} (h : cur ≠ id) (s : OutputState)
    (m : SystemModeMemory) : (s.setMemory id m).memory cur = s.memory cur :=
  Function.update_of_ne h _ _

/-- Other counters leave all bits as they are. -/
theorem indexIsHit_setMemory {m : SystemModeMemory} (hdata : m.data = (s.memory id).data)
    (cur index : BitVec 32) :
    ((s.setMemory id m).memory cur).indexIsHit index = (s.memory cur).indexIsHit index := by
  by_cases hcur : cur = id
  · subst hcur
    rw [memory_setMemory, SystemModeMemory.indexIsHit, hdata, SystemModeMemory.indexIsHit]
  · rw [memory_setMemory_of_ne hcur]

/-- The call goes on, and nothing else happens. -/
theorem tracerFrame_setTracer {pc : TracerPc} (hcall : pc.call = (s.tracers t).call) :
    TracerFrame t s (s.setTracer t pc) :=
  ⟨rfl, rfl, rfl, fun _ h => tracers_setTracer_of_ne h s pc, Kept.of_memory rfl,
    fun _ _ => Or.inl, Or.inl (by rw [tracers_setTracer, hcall])⟩

theorem tracerFrame_tracerStep (h : s.Accounted) (t : Nat) : TracerFrame t s (s.tracerStep t) := by
  unfold OutputState.tracerStep
  split
  case h_1 => exact ⟨rfl, rfl, rfl, fun _ _ => rfl, Kept.of_memory rfl, fun _ _ => Or.inl, Or.inl rfl⟩
  case h_2 id index hpc =>
    split
    next hhit =>
      refine ⟨rfl, rfl, rfl, fun _ hne => tracers_setTracer_of_ne hne s .idle, Kept.of_memory rfl,
        fun _ _ => Or.inl, Or.inr ⟨?_, fun cur i hcall => ?_⟩⟩
      · rw [complete, tracers_setTracer, TracerPc.call]
      · rw [hpc, TracerPc.call, Option.some.injEq, Prod.mk.injEq] at hcall
        rw [← hcall.1, ← hcall.2]
        exact hhit
    next => exact tracerFrame_setTracer (by rw [hpc, TracerPc.call, TracerPc.call])
  case h_3 id index hpc =>
    split
    · exact ⟨rfl, rfl, rfl, fun _ _ => rfl, Kept.of_memory rfl, fun _ _ => Or.inl, Or.inl rfl⟩
    · exact tracerFrame_setTracer (by rw [hpc, TracerPc.call, TracerPc.call])
  case h_4 id index val hpc =>
    split
    next hval =>
      refine ⟨rfl, rfl, rfl, fun _ hne => tracers_setTracer_of_ne hne _ _,
        Kept.of_update rfl rfl rfl rfl fun k j hbit =>
          (bitAt_set hval (mod_32_lt index) k j).mpr (Or.inl hbit), fun cur i hhit => ?_, Or.inl ?_⟩
      · rw [hpc, TracerPc.call, Option.some.injEq, Prod.mk.injEq]
        by_cases hcur : cur = id
        · subst hcur
          rw [memory_setTracer, memory_setMemory] at hhit
          exact ((indexIsHit_swap hval i).mp hhit).imp_right fun heq => ⟨rfl, heq.symm⟩
        · rw [memory_setTracer, memory_setMemory_of_ne hcur] at hhit
          exact Or.inl hhit
      · rw [tracers_setTracer, hpc, TracerPc.call, TracerPc.call]
    next => exact tracerFrame_setTracer (by rw [hpc, TracerPc.call, TracerPc.call])
  case h_5 id index hpc =>
    have hmemory : ∀ cur i, ((s.tracerStep t).memory cur).indexIsHit i =
        (s.memory cur).indexIsHit i := by
      intro cur i
      rw [OutputState.tracerStep, hpc]
      exact @indexIsHit_setMemory { s with
        increments := Function.update s.increments id (s.increments id + 1) } id
        { s.memory id with dirtyCount := (s.memory id).dirtyCount + 1 } rfl cur i
    rw [OutputState.tracerStep, hpc] at hmemory
    refine ⟨rfl, rfl, rfl, fun _ hne => tracers_setTracer_of_ne hne _ _,
      Kept.of_update rfl rfl rfl rfl fun _ _ hbit => hbit, fun cur i hhit => ?_, Or.inr ⟨?_, ?_⟩⟩
    · exact Or.inl ((hmemory cur i).symm.trans hhit)
    · rw [complete, tracers_setTracer, TracerPc.call]
    · intro cur i hcall
      rw [hpc, TracerPc.call, Option.some.injEq, Prod.mk.injEq] at hcall
      rw [← hcall.1, ← hcall.2]
      exact (hmemory id index).trans (h.swapped t id index hpc)

/-- A step of the output thread. -/
theorem kept_threadStep (s : OutputState) (order : List (BitVec 32)) :
    Kept s (s.threadStep order) := by
  unfold OutputState.threadStep
  split
  case h_9 => exact Kept.of_update rfl rfl rfl rfl fun _ _ hbit => hbit
  case h_3 | h_7 | h_10 => split <;> exact Kept.of_memory rfl
  all_goals exact Kept.of_memory rfl

theorem kept_step (h : s.Accounted) (ev : OutputEvent) : Kept s (s.step ev) := by
  cases ev with
  | create cur =>
    rw [step]
    split <;> exact Kept.of_memory rfl
  | report t cur index =>
    rw [step]
    split <;> exact Kept.of_memory rfl
  | tracer t => exact (tracerFrame_tracerStep h t).kept
  | output order => exact kept_threadStep s order
  | stop => exact Kept.of_memory rfl

end Steps

/-! ### The files -/

/-- The words in the file of a memory, or on the way to it, have no bit that the memory does not
have. They are all of its words, except in the middle of a round. -/
structure Backed (s : OutputState) (id : BitVec 32) : Prop where
  copying : ∀ todo copied, s.thread = .copying id todo copied →
    copied.length ≤ (s.memory id).data.length ∧ Below copied (s.memory id).data
  copied : ∀ todo copied, s.thread = .opening id todo copied ∨ s.thread = .writing id todo copied →
    copied.length = (s.memory id).data.length ∧ Below copied (s.memory id).data
  files : ∀ words, s.files id = some words → (∀ todo copied, s.thread ≠ .writing id todo copied) →
    words.length = (s.memory id).data.length ∧ Below words (s.memory id).data

section Files

variable {s s' : OutputState} {id : BitVec 32}

theorem Backed.kept (h : s.Backed id) (hkept : Kept s s') (hthread : s'.thread = s.thread)
    (hfiles : s'.files id = s.files id) : s'.Backed id := by
  have hbits := hkept.bits id
  refine ⟨fun todo copied hpc => ?_, fun todo copied hpc => ?_, fun words hwords hpc => ?_⟩
  · obtain ⟨hlen, hbelow⟩ := h.copying todo copied (hthread ▸ hpc)
    exact ⟨by rw [hkept.length]; exact hlen, hbelow.trans hbits⟩
  · obtain ⟨hlen, hbelow⟩ := h.copied todo copied (hthread ▸ hpc)
    exact ⟨by rw [hkept.length]; exact hlen, hbelow.trans hbits⟩
  · obtain ⟨hlen, hbelow⟩ := h.files words (hfiles ▸ hwords) (hthread ▸ hpc)
    exact ⟨by rw [hkept.length]; exact hlen, hbelow.trans hbits⟩

theorem files_setFile (id : BitVec 32) (s : OutputState) (words : List (BitVec 32)) :
    (s.setFile id words).files id = some words := Function.update_self _ _ _

theorem files_setFile_of_ne {cur : BitVec 32} (h : id ≠ cur) (s : OutputState)
    (words : List (BitVec 32)) : (s.setFile cur words).files id = s.files id :=
  Function.update_of_ne h _ _

/-- The thread goes on to where it is not copying or writing `id`. -/
theorem Backed.move (h : s.Backed id) {pc : ThreadPc}
    (hquiet : ∀ todo copied, pc ≠ .copying id todo copied ∧ pc ≠ .opening id todo copied ∧
      pc ≠ .writing id todo copied)
    (hold : ∀ todo copied, s.thread ≠ .writing id todo copied) :
    ({ s with thread := pc } : OutputState).Backed id := by
  refine ⟨fun todo copied hpc => absurd hpc (hquiet todo copied).1, fun todo copied hpc => ?_,
    fun words hwords _ => h.files words hwords hold⟩
  exact hpc.elim (fun hpc => absurd hpc (hquiet todo copied).2.1)
    fun hpc => absurd hpc (hquiet todo copied).2.2

theorem Backed.threadStep (h : s.Backed id) (order : List (BitVec 32)) :
    (s.threadStep order).Backed id := by
  unfold OutputState.threadStep
  split
  case h_1 hthread => exact h.move (by simp) (by simp [hthread])
  case h_2 hthread => exact h.move (by split <;> simp) (by simp [hthread])
  case h_3 hthread =>
    split
    · exact h.move (by simp) (by simp [hthread])
    · exact h
  case h_4 hthread => exact h.move (by simp) (by simp [hthread])
  case h_5 hthread => exact h.move (by simp) (by simp [hthread])
  case h_6 hthread => exact h.move (by simp) (by simp [hthread])
  case h_7 hthread => split <;> exact h.move (by simp) (by simp [hthread])
  case h_8 hthread => exact h.move (by simp) (by simp [hthread])
  case h_9 cur todo dirty hthread =>
    have hmarked : (s.setMemory cur { s.memory cur with cleanCount := dirty }).Backed id :=
      h.kept (Kept.of_update rfl rfl rfl rfl fun _ _ hbit => hbit) rfl rfl
    refine ⟨fun todo' copied hpc => ?_, fun todo' copied hpc => ?_, fun words hwords _ => ?_⟩
    · cases hpc
      exact ⟨Nat.zero_le _, below_nil _⟩
    · rcases hpc with hpc | hpc <;> cases hpc
    · refine hmarked.files words hwords fun todo' copied hpc => ?_
      rw [setMemory, hthread] at hpc
      cases hpc
  case h_10 cur todo copied hthread =>
    split
    next word hword =>
      refine ⟨fun todo' copied' hpc => ?_, fun todo' copied' hpc => ?_, fun words hwords _ => ?_⟩
      · cases hpc
        obtain ⟨-, hbelow⟩ := h.copying todo copied hthread
        refine ⟨?_, hbelow.snoc hword⟩
        rw [List.length_append, List.length_singleton]
        exact (List.getElem?_eq_some_iff.mp hword).choose
      · rcases hpc with hpc | hpc <;> cases hpc
      · exact h.files words hwords (by simp [hthread])
    next hnone =>
      refine ⟨fun todo' copied' hpc => ?_, fun todo' copied' hpc => ?_, fun words hwords _ => ?_⟩
      · cases hpc
      · rcases hpc with hpc | hpc
        · cases hpc
          obtain ⟨hlen, hbelow⟩ := h.copying todo copied hthread
          exact ⟨Nat.le_antisymm hlen (List.getElem?_eq_none_iff.mp hnone), hbelow⟩
        · cases hpc
      · exact h.files words hwords (by simp [hthread])
  case h_11 cur todo copied hthread =>
    refine ⟨fun todo' copied' hpc => ?_, fun todo' copied' hpc => ?_, fun words hwords hpc => ?_⟩
    · cases hpc
    · rcases hpc with hpc | hpc
      · cases hpc
      · cases hpc
        exact h.copied todo copied (Or.inl hthread)
    · have hcur : id ≠ cur := by
        rintro rfl
        exact hpc todo copied rfl
      exact h.files words ((files_setFile_of_ne hcur s []).symm.trans hwords) (by simp [hthread])
  case h_12 cur todo copied hthread =>
    refine ⟨fun todo' copied' hpc => ?_, fun todo' copied' hpc => ?_, fun words hwords _ => ?_⟩
    · cases hpc
    · rcases hpc with hpc | hpc <;> cases hpc
    · by_cases hcur : id = cur
      · subst hcur
        obtain rfl : copied = words := Option.some.inj ((files_setFile id s copied).symm.trans hwords)
        exact h.copied todo copied (Or.inr hthread)
      · refine h.files words ((files_setFile_of_ne hcur s copied).symm.trans hwords)
          fun todo' copied' hpc => ?_
        rw [hthread] at hpc
        cases hpc
        exact hcur rfl
  case h_13 => exact h

theorem Backed.step (h : s.Backed id) (hacc : s.Accounted) (ev : OutputEvent) :
    (s.step ev).Backed id := by
  cases ev with
  | create cur =>
    rw [OutputState.step]
    split <;> exact h.kept (Kept.of_memory rfl) rfl rfl
  | report t cur index =>
    rw [OutputState.step]
    split <;> exact h.kept (Kept.of_memory rfl) rfl rfl
  | tracer t =>
    have hframe := tracerFrame_tracerStep hacc t
    exact h.kept hframe.kept hframe.thread (congrFun hframe.files id)
  | output order => exact h.threadStep order
  | stop => exact h.kept (Kept.of_memory rfl) rfl rfl

end Files

theorem backed_run (new : BitVec 32 → SystemModeMemory) (evs : List OutputEvent) (id : BitVec 32) :
    (run new evs).Backed id := by
  induction evs using List.reverseRecOn with
  | nil =>
    refine ⟨fun todo copied hpc => ?_, fun todo copied hpc => ?_, fun words hwords _ => ?_⟩
    · cases hpc
    · rcases hpc with hpc | hpc <;> cases hpc
    · cases hwords
  | append_singleton evs ev ih =>
    rw [run_append]
    exact ih.step (accounted_run new evs) ev

end OutputState

end Kcov.SystemMode
