import Kcov.SystemMode.Backed

/-! The daemon with the processes that it traces: at which addresses they have stopped, and what
becomes of it in memory and on disk. -/

namespace Kcov.SystemMode

open OutputState

/-- The daemon, and the stops of the traced processes at addresses: only a record of what has
happened. -/
structure Machine where
  output : OutputState
  stops : List (BitVec 32 × BitVec 64)

/-- The entries of the program with each key. -/
abbrev Programs := BitVec 32 → List (BitVec 64)

inductive Happening where
  | create (id : BitVec 32)
  /-- The handler `t` of a process of the program `id` gets an event from its engine. -/
  | event (t : Nat) (id : BitVec 32) (ev : EngineEvent (BitVec 64))
  | tracer (t : Nat)
  | output (order : List (BitVec 32))
  | exit
  deriving DecidableEq, Repr

namespace Machine

/-- `onEvent`. A handler that is in `reportIndex` gets no event. -/
def onEvent (programs : Programs) (m : Machine) (t : Nat) (id : BitVec 32)
    (ev : EngineEvent (BitVec 64)) : Machine :=
  if ev.type = .breakpoint ∧ m.output.tracers t = .idle ∧ m.output.ids.contains id then
    { output :=
        match ProcessHandler.attach (programs id) ev.addr with
        | none => m.output
        | some index => m.output.step (.report t id index)
      stops := (id, ev.addr) :: m.stops }
  else m

def step (programs : Programs) (m : Machine) : Happening → Machine
  | .create id => { m with output := m.output.step (.create id) }
  | .event t id ev => m.onEvent programs t id ev
  | .tracer t => { m with output := m.output.step (.tracer t) }
  | .output order => { m with output := m.output.step (.output order) }
  | .exit => { m with output := m.output.step .stop }

def run (programs : Programs) (new : BitVec 32 → SystemModeMemory) (hs : List Happening) : Machine :=
  hs.foldl (step programs) { output := start new, stops := [] }

/-- A process has stopped where the entry with the index `index` is the last one for the address. -/
def StoppedAt (programs : Programs) (m : Machine) (id index : BitVec 32) : Prop :=
  ∃ a, (id, a) ∈ m.stops ∧ ProcessHandler.attach (programs id) a = some index

/-- Exactly the bits of the indices that were stopped at are set, or will be by the call of a
handler. -/
structure Faithful (programs : Programs) (m : Machine) : Prop where
  hit : ∀ id index, (m.output.memory id).indexIsHit index = true → m.StoppedAt programs id index
  call : ∀ t id index, (m.output.tracers t).call = some (id, index) → m.StoppedAt programs id index
  stopped : ∀ id index, m.StoppedAt programs id index →
    (m.output.memory id).indexIsHit index = true ∨ ∃ t, (m.output.tracers t).call = some (id, index)

/-- Each memory has a word for each of the entries. -/
def Roomy (programs : Programs) (s : OutputState) : Prop :=
  ∀ id, (programs id).length < 2 ^ 32 ∧ (s.memory id).nEntries.toNat = (programs id).length

section Steps

variable {programs : Programs} {m : Machine} {s s' : OutputState}

theorem Roomy.kept (h : Roomy programs s) (hkept : Kept s s') : Roomy programs s' := by
  intro id
  rw [hkept.nEntries]
  exact h id

/-- The index of an address is inside the bitmap. -/
theorem Roomy.fits (h : Roomy programs s) {id index : BitVec 32} {a : BitVec 64}
    (hattach : ProcessHandler.attach (programs id) a = some index) :
    (index / 32).toNat < (s.memory id).nEntries.toNat := by
  obtain ⟨hlen, hn⟩ := h id
  have hlt := (List.getElem?_eq_some_iff.mp (getElem?_attach hlen hattach)).choose
  rw [hn, BitVec.toNat_udiv, show (32 : BitVec 32).toNat = 32 from rfl]
  omega

/-- No handler makes a step, and no bit changes. -/
theorem Faithful.quiet (h : m.Faithful programs) (htracers : s'.tracers = m.output.tracers)
    (hdata : ∀ id index, (s'.memory id).indexIsHit index = (m.output.memory id).indexIsHit index) :
    Faithful programs { m with output := s' } := by
  refine ⟨fun id index hhit => h.hit id index ((hdata id index).symm.trans hhit),
    fun t id index hcall => h.call t id index (by rw [← htracers]; exact hcall),
    fun id index hstop => ?_⟩
  refine (h.stopped id index hstop).imp (hdata id index).trans fun ⟨t, ht⟩ => ⟨t, ?_⟩
  show (s'.tracers t).call = _
  rw [htracers]
  exact ht

theorem Faithful.tracer (h : m.Faithful programs) (hacc : m.output.Accounted) (t : Nat) :
    Faithful programs { m with output := m.output.tracerStep t } := by
  have hframe := tracerFrame_tracerStep hacc t
  refine ⟨fun id index hhit => ?_, fun t' id index hcall => ?_, fun id index hstop => ?_⟩
  · exact (hframe.hit id index hhit).elim (h.hit id index) (h.call t id index)
  · by_cases ht : t' = t
    · subst ht
      rcases hframe.call with hsame | ⟨hnone, -⟩
      · exact h.call t' id index (hsame.symm.trans hcall)
      · rw [hnone] at hcall
        cases hcall
    · exact h.call t' id index ((congrArg _ (hframe.others t' ht)).symm.trans hcall)
  · rcases h.stopped id index hstop with hhit | ⟨t', ht'⟩
    · left
      rw [SystemModeMemory.indexIsHit_eq_bitAt] at hhit ⊢
      exact hframe.kept.bits id _ _ hhit
    · by_cases ht : t' = t
      · subst ht
        rcases hframe.call with hsame | ⟨-, hset⟩
        · exact Or.inr ⟨t', hsame.trans ht'⟩
        · exact Or.inl (hset id index ht')
      · exact Or.inr ⟨t', (congrArg _ (hframe.others t' ht)).trans ht'⟩

/-- A process stops at an address that is no entry. -/
theorem Faithful.unknown (h : m.Faithful programs) {id : BitVec 32} {a : BitVec 64}
    (hattach : ProcessHandler.attach (programs id) a = none) :
    Faithful programs { m with stops := (id, a) :: m.stops } := by
  have hsame : ∀ cur index, StoppedAt programs { m with stops := (id, a) :: m.stops } cur index ↔
      m.StoppedAt programs cur index := by
    intro cur index
    constructor
    · rintro ⟨b, hb, hindex⟩
      rcases List.mem_cons.mp hb with heq | hb
      · obtain ⟨rfl, rfl⟩ := Prod.mk.inj heq
        rw [hattach] at hindex
        cases hindex
      · exact ⟨b, hb, hindex⟩
    · rintro ⟨b, hb, hindex⟩
      exact ⟨b, List.mem_cons_of_mem _ hb, hindex⟩
  exact ⟨fun cur index hhit => (hsame cur index).mpr (h.hit cur index hhit),
    fun t cur index hcall => (hsame cur index).mpr (h.call t cur index hcall),
    fun cur index hstop => h.stopped cur index ((hsame cur index).mp hstop)⟩

/-- A process stops at an entry, and its handler calls `reportIndex`. -/
theorem Faithful.report (h : m.Faithful programs) {t : Nat} {id index : BitVec 32} {a : BitVec 64}
    (hidle : m.output.tracers t = .idle)
    (hattach : ProcessHandler.attach (programs id) a = some index) :
    Faithful programs
      { output := m.output.setTracer t (.test id index), stops := (id, a) :: m.stops } := by
  have hold : ∀ cur i, m.StoppedAt programs cur i → StoppedAt programs
      { output := m.output.setTracer t (.test id index), stops := (id, a) :: m.stops } cur i :=
    fun cur i ⟨b, hb, hi⟩ => ⟨b, List.mem_cons_of_mem _ hb, hi⟩
  refine ⟨fun cur i hhit => hold cur i (h.hit cur i hhit), fun t' cur i hcall => ?_,
    fun cur i hstop => ?_⟩
  · by_cases ht : t' = t
    · subst ht
      rw [tracers_setTracer, TracerPc.call, Option.some.injEq, Prod.mk.injEq] at hcall
      obtain ⟨rfl, rfl⟩ := hcall
      exact ⟨a, List.mem_cons_self, hattach⟩
    · rw [tracers_setTracer_of_ne ht] at hcall
      exact hold cur i (h.call t' cur i hcall)
  · obtain ⟨b, hb, hi⟩ := hstop
    rcases List.mem_cons.mp hb with heq | hb
    · obtain ⟨rfl, rfl⟩ := Prod.mk.inj heq
      rw [hattach, Option.some.injEq] at hi
      subst hi
      exact Or.inr ⟨t, by rw [tracers_setTracer, TracerPc.call]⟩
    · rcases h.stopped cur i ⟨b, hb, hi⟩ with hhit | ⟨t', ht'⟩
      · exact Or.inl hhit
      · have hne : t' ≠ t := by
          rintro rfl
          rw [hidle] at ht'
          cases ht'
        exact Or.inr ⟨t', by rw [tracers_setTracer_of_ne hne, ht']⟩

theorem Faithful.onEvent (h : m.Faithful programs) (hroomy : Roomy programs m.output) (t : Nat)
    (id : BitVec 32) (ev : EngineEvent (BitVec 64)) :
    Faithful programs (m.onEvent programs t id ev) := by
  unfold Machine.onEvent
  split
  next hguard =>
    obtain ⟨-, hidle, hid⟩ := hguard
    cases hattach : ProcessHandler.attach (programs id) ev.addr with
    | none => exact h.unknown hattach
    | some index =>
      have hreport : m.output.step (.report t id index) = m.output.setTracer t (.test id index) :=
        if_pos ⟨hidle, List.contains_iff_mem.mp hid, hroomy.fits hattach⟩
      simp only [hreport]
      exact h.report hidle hattach
  next => exact h

/-- The daemon makes one of the steps of its output thread and of the tracers, or none. -/
theorem output_step (programs : Programs) (m : Machine) (x : Happening) :
    (m.step programs x).output = m.output ∨
      ∃ ev, (m.step programs x).output = m.output.step ev := by
  cases x with
  | event t id ev =>
    rw [step, onEvent]
    split
    · cases ProcessHandler.attach (programs id) ev.addr with
      | none => exact Or.inl rfl
      | some index => exact Or.inr ⟨.report t id index, rfl⟩
    · exact Or.inl rfl
  | create id => exact Or.inr ⟨.create id, rfl⟩
  | tracer t => exact Or.inr ⟨.tracer t, rfl⟩
  | output order => exact Or.inr ⟨.output order, rfl⟩
  | exit => exact Or.inr ⟨.stop, rfl⟩

theorem Faithful.step (h : m.Faithful programs) (hacc : m.output.Accounted)
    (hroomy : Roomy programs m.output) (x : Happening) : Faithful programs (m.step programs x) := by
  cases x with
  | create id =>
    have hsame : (m.output.step (.create id)).tracers = m.output.tracers ∧
        (m.output.step (.create id)).memory = m.output.memory := by
      rw [OutputState.step]
      split <;> exact ⟨rfl, rfl⟩
    exact h.quiet hsame.1 fun cur index => by rw [hsame.2]
  | event t id ev => exact h.onEvent hroomy t id ev
  | tracer t => exact h.tracer hacc t
  | output order =>
    have hframe := threadFrame_threadStep m.output order
    refine h.quiet hframe.tracers fun cur index => ?_
    rw [SystemModeMemory.indexIsHit_eq_bitAt, SystemModeMemory.indexIsHit_eq_bitAt]
    exact congrArg (bitAt · _ _) (hframe.data cur)
  | exit => exact h.quiet rfl fun _ _ => rfl

end Steps

/-! ### Runs -/

section Runs

variable {programs : Programs} {new : BitVec 32 → SystemModeMemory}

theorem run_snoc (programs : Programs) (new : BitVec 32 → SystemModeMemory) (hs : List Happening)
    (x : Happening) : run programs new (hs ++ [x]) = (run programs new hs).step programs x := by
  rw [run, List.foldl_append]
  rfl

/-- The steps of the daemon are a run of its output thread and the tracers. -/
theorem exists_run (programs : Programs) (new : BitVec 32 → SystemModeMemory) (hs : List Happening) :
    ∃ evs, (run programs new hs).output = OutputState.run new evs := by
  induction hs using List.reverseRecOn with
  | nil => exact ⟨[], rfl⟩
  | append_singleton hs x ih =>
    obtain ⟨evs, hevs⟩ := ih
    rw [run_snoc]
    rcases output_step programs (run programs new hs) x with hsame | ⟨ev, hev⟩
    · exact ⟨evs, hsame.trans hevs⟩
    · exact ⟨evs ++ [ev], by rw [hev, hevs, OutputState.run_append]⟩

theorem accounted_run (hs : List Happening) : (run programs new hs).output.Accounted := by
  obtain ⟨evs, hevs⟩ := exists_run programs new hs
  rw [hevs]
  exact OutputState.accounted_run new evs

/-- The memories are those that were created, apart from the counters and the bits. -/
theorem kept_run (hs : List Happening) : Kept (start new) (run programs new hs).output := by
  induction hs using List.reverseRecOn with
  | nil => exact Kept.of_memory rfl
  | append_singleton hs x ih =>
    have hstep : Kept (run programs new hs).output (run programs new (hs ++ [x])).output := by
      rw [run_snoc]
      rcases output_step programs (run programs new hs) x with hsame | ⟨ev, hev⟩
      · exact Kept.of_memory (by rw [hsame])
      · rw [hev]
        exact kept_step (accounted_run hs) ev
    exact ⟨fun id => (hstep.filename id).trans (ih.filename id),
      fun id => (hstep.options id).trans (ih.options id),
      fun id => (hstep.nEntries id).trans (ih.nEntries id),
      fun id => (ih.bits id).trans (hstep.bits id)⟩

theorem backed_run (hs : List Happening) (id : BitVec 32) :
    (run programs new hs).output.Backed id := by
  obtain ⟨evs, hevs⟩ := exists_run programs new hs
  rw [hevs]
  exact OutputState.backed_run new evs id

theorem faithful_run (hroomy : Roomy programs (start new))
    (hnew : ∀ id index, (new id).indexIsHit index = false) (hs : List Happening) :
    Faithful programs (run programs new hs) := by
  induction hs using List.reverseRecOn with
  | nil =>
    refine ⟨fun id index hhit => ?_, fun t id index hcall => ?_, fun id index hstop => ?_⟩
    · exact absurd hhit (by rw [Bool.not_eq_true]; exact hnew id index)
    · cases hcall
    · obtain ⟨a, ha, -⟩ := hstop
      cases ha
  | append_singleton hs x ih =>
    rw [run_snoc]
    exact ih.step (accounted_run hs) (hroomy.kept (kept_run hs)) x

end Runs

end Machine

end Kcov.SystemMode
