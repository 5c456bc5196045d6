import Kcov.Engines.Engine
import Kcov.Engines.Ptrace
import Kcov.Lib.Runs
import Mathlib.Data.Finset.Card

/-! The stops of the traced threads: which event the ptrace engine makes of one, and when it sets the
program counter of a thread back. -/

namespace Kcov.Ptrace

open Bytes Runs

def sigTrap : Nat := 5

namespace Arch

def sigStop : Arch → Nat
  | .sparc64 => 17
  | _ => 19

def sigSys : Arch → Nat
  | .sparc64 => 12
  | _ => 31

/-- The signal of the trap instruction where it is an undefined one: `SIGILL` on ARM. -/
def sigIll : Arch → Nat
  | .arm | .aarch64 => 4
  | arch => arch.sigSys

end Arch

/-- `ptrace_sys::eventIsNewChild` of Linux. -/
def eventIsNewChild (_sig _event : Nat) : Bool := false

/-- `ptrace_sys::eventIsForky`, for `PTRACE_EVENT_CLONE`, `PTRACE_EVENT_FORK` and
`PTRACE_EVENT_VFORK`. -/
def eventIsForky (sig event : Nat) : Bool :=
  sig = sigTrap && (event = 3 || event = 1 || event = 2)

section Registers

variable {w : Nat}

/-- `arch_adjustPcAfterBreakpoint`. -/
def archAdjustPcAfterBreakpoint (arch : Arch) (pc : BitVec w) : BitVec w :=
  match arch with
  | .i386 | .x86_64 => pc - 1
  | _ => pc

/-- `arch_getPcFromRegs`. -/
def archGetPcFromRegs (arch : Arch) (pc : BitVec w) : BitVec w :=
  match arch with
  | .i386 | .x86_64 => pc - 1
  | _ => pc

/-- What `ptrace_sys::skipInstruction` makes of the program counter. -/
def skippedPc (arch : Arch) (pc : BitVec w) : BitVec w :=
  match arch with
  | .powerpc | .arm | .aarch64 | .loongarch64 => pc + 4
  | _ => pc

end Registers

/-- The engine, with the program counters of the threads as they last stopped. -/
structure Engine (arch : Arch) where
  tracer : Tracer arch
  children : Finset Nat
  firstChild : Nat
  firstBreakpoint : Bool
  lastSignalAddress : BitVec 64
  signal : Int
  pc : Nat → BitVec (8 * arch.wordSize)

namespace Engine

variable {arch : Arch}

/-- An engine that has started `child` or attached to it. -/
def start (arch : Arch) (text : Memory) (child : Nat) : Engine arch :=
  { tracer := Tracer.start arch text child
    children := ∅
    firstChild := child
    firstBreakpoint := true
    lastSignalAddress := 0
    signal := 0
    pc := fun _ => 0 }

def childrenLeft (s : Engine arch) : Bool := s.children.card > 0 && s.firstChild ∈ s.children

/-- `ptrace_sys::getPc`: the registers of a thread that is gone are read as zero. -/
def getPc (s : Engine arch) (who : Nat) (status : WaitStatus) : BitVec (8 * arch.wordSize) :=
  match status with
  | .stopped _ _ => archGetPcFromRegs arch (s.pc who)
  | _ => archGetPcFromRegs arch 0

def singleStep (s : Engine arch) (who : Nat) : Engine arch :=
  { s with pc := Function.update s.pc who (archAdjustPcAfterBreakpoint arch (s.pc who)) }

def skipInstruction (s : Engine arch) (who : Nat) : Engine arch :=
  { s with pc := Function.update s.pc who (skippedPc arch (s.pc who)) }

/-- `waitEvent`, when `wait_all` reports this about a thread, or fails. -/
def waitEvent (s : Engine arch) : Option (Nat × WaitStatus) →
    Engine arch × EngineEvent (BitVec 64)
  | none => (s, ⟨.error, -1, 0⟩)
  | some (who, status) =>
    let addr := (s.getPc who status).setWidth 64
    let s :=
      { s with
        children := insert who s.children
        tracer := { s.tracer with activeChild := who } }
    match status with
    | .stopped sig event =>
      if eventIsNewChild sig event || eventIsForky sig event then
        ({ s with lastSignalAddress := addr }, ⟨.signal, 0, addr⟩)
      else if sig = sigTrap ∨ sig = arch.sigStop ∨ sig = arch.sigIll then
        let insnFound := (s.tracer.instructionMap addr.toNat).isSome
        let s :=
          if insnFound then s.singleStep who
          else if sig ≠ arch.sigStop then s.skipInstruction who
          else s
        -- `blockUntilSolibDataRead` waits for the other thread
        ({ s with firstBreakpoint := s.firstBreakpoint && !insnFound }, ⟨.breakpoint, -1, addr⟩)
      else ({ s with lastSignalAddress := addr }, ⟨.signal, sig, addr⟩)
    | .signaled sig =>
      let s := { s with children := s.children.erase who }
      (s, ⟨if s.childrenLeft then .signal else .signalExit, sig, s.lastSignalAddress⟩)
    | .exited exitStatus =>
      ({ s with children := s.children.erase who },
        ⟨if who = s.firstChild then .exitFirstProcess else .exit, exitStatus, addr⟩)

end Engine

/-! ### The threads -/

/-- Why `wait_all` returns, on x86. -/
inductive Stop (arch : Arch) where
  /-- The thread `who` has executed the trap instruction at `addr`. -/
  | trap (who : Nat) (addr : BitVec (8 * arch.wordSize))
  /-- Anything else has happened to it, with the program counter `pc`. -/
  | other (who : Nat) (pc : BitVec (8 * arch.wordSize)) (status : WaitStatus)
  | failed
  deriving DecidableEq

namespace Stop

variable {arch : Arch}

/-- What `wait_all` reports. -/
def report : Stop arch → Option (Nat × WaitStatus)
  | .trap who _ => some (who, .stopped sigTrap 0)
  | .other who _ status => some (who, status)
  | .failed => none

/-- The program counters with that of the stopped thread. -/
def counters (pc : Nat → BitVec (8 * arch.wordSize)) :
    Stop arch → Nat → BitVec (8 * arch.wordSize)
  | .trap who addr => Function.update pc who (addr + 1)
  | .other who at' _ => Function.update pc who at'
  | .failed => pc

end Stop

namespace Engine

variable {arch : Arch}

/-- The first part of `continueExecution`: `cont` may fail, and then the thread stops. -/
def resume (s : Engine arch) (contFails : Bool) (stop : Stop arch) : Engine arch :=
  { s with
    tracer := s.tracer.setupAllBreakpoints
    children := if contFails then s.children.erase s.tracer.activeChild else s.children
    pc := stop.counters s.pc }

/-- `continueExecution` and its result. -/
def continueExecution (s : Engine arch) (contFails : Bool) (stop : Stop arch) :
    Engine arch × Bool :=
  let (s, ev) := (s.resume contFails stop).waitEvent stop.report
  let s := { s with signal := if ev.type = .signal then ev.data else 0 }
  let s :=
    if ev.type = .breakpoint then
      { s with tracer := (s.tracer.clearBreakpoint ev.addr.toNat).1 }
    else s
  (s, ev.type ≠ .error)

end Engine

/-- What happens to an engine. -/
inductive Action (arch : Arch) where
  | register (addr : BitVec (8 * arch.wordSize))
  | fork (parent child : Nat)
  | continueExecution (contFails : Bool) (stop : Stop arch)
  deriving DecidableEq

namespace Engine

variable {arch : Arch}

def step (s : Engine arch) : Action arch → Engine arch
  | .register addr => { s with tracer := (s.tracer.registerBreakpoint addr.toNat).1 }
  | .fork parent child => { s with tracer := s.tracer.step (.fork parent child) }
  | .continueExecution contFails stop => (s.continueExecution contFails stop).1

def run (arch : Arch) (text : Memory) (child : Nat) (acts : List (Action arch)) : Engine arch :=
  acts.foldl step (start arch text child)

end Engine

/-! ### The registered addresses -/

section InstructionMap

variable {arch : Arch}

@[simp] theorem instructionMap_setupAllBreakpoints (s : Tracer arch) :
    s.setupAllBreakpoints.instructionMap = s.instructionMap := by
  unfold Tracer.setupAllBreakpoints
  show (s.pendingBreakpoints.foldl Tracer.setupBreakpoint s).instructionMap = s.instructionMap
  generalize s.pendingBreakpoints = addrs
  induction addrs generalizing s with
  | nil => rfl
  | cons addr addrs ih => exact ih (s.setupBreakpoint addr)

@[simp] theorem instructionMap_clearBreakpoint (s : Tracer arch) (addr : Nat) :
    (s.clearBreakpoint addr).1.instructionMap = s.instructionMap := by
  unfold Tracer.clearBreakpoint
  split <;> rfl

theorem isSome_registerBreakpoint (s : Tracer arch) (addr a : Nat) :
    ((s.registerBreakpoint addr).1.instructionMap a).isSome ↔
      (s.instructionMap a).isSome ∨ (a = addr ∧ a ≠ 0) := by
  unfold Tracer.registerBreakpoint
  split
  · rename_i hzero
    subst hzero
    constructor
    · exact Or.inl
    · rintro (h | ⟨ha, hne⟩)
      · exact h
      · exact absurd ha hne
  · rename_i hzero
    split
    · rename_i hsome
      constructor
      · exact Or.inl
      · rintro (h | ⟨rfl, -⟩)
        · exact h
        · exact hsome
    · show (Function.update s.instructionMap addr _ a).isSome ↔ _
      by_cases ha : a = addr
      · subst ha
        simp [hzero]
      · rw [Function.update_of_ne ha]
        simp [ha]

namespace Engine

@[simp] theorem instructionMap_waitEvent (s : Engine arch) (r : Option (Nat × WaitStatus)) :
    (s.waitEvent r).1.tracer.instructionMap = s.tracer.instructionMap := by
  unfold waitEvent
  split
  · rfl
  · dsimp only
    split
    · split
      · rfl
      · split
        · dsimp only
          split
          · rfl
          · split <;> rfl
        · rfl
    · rfl
    · rfl

@[simp] theorem instructionMap_continueExecution (s : Engine arch) (contFails : Bool)
    (stop : Stop arch) : (s.continueExecution contFails stop).1.tracer.instructionMap =
      s.tracer.instructionMap := by
  have hresume : (s.resume contFails stop).tracer.instructionMap = s.tracer.instructionMap :=
    instructionMap_setupAllBreakpoints s.tracer
  unfold continueExecution
  dsimp only
  split
  · simp [hresume]
  · simp [hresume]

/-- An address is in the map when it has been registered, unless it is 0. -/
theorem isSome_run (text : Memory) (child : Nat) (acts : List (Action arch)) (a : Nat) :
    ((run arch text child acts).tracer.instructionMap a).isSome ↔
      a ≠ 0 ∧ ∃ addr, .register addr ∈ acts ∧ addr.toNat = a := by
  induction acts using List.reverseRecOn with
  | nil => simp [run, start, Tracer.start]
  | append_singleton acts act ih =>
    have hstep : run arch text child (acts ++ [act]) = (run arch text child acts).step act := by
      unfold run
      rw [List.foldl_append]
      rfl
    rw [hstep]
    cases act with
    | register addr =>
      show ((Tracer.registerBreakpoint _ addr.toNat).1.instructionMap a).isSome ↔ _
      rw [isSome_registerBreakpoint, ih]
      simp only [List.mem_append, List.mem_singleton, Action.register.injEq, or_and_right,
        exists_or, exists_eq_left]
      rw [@eq_comm _ a addr.toNat, and_or_left, @and_comm (addr.toNat = a)]
    | fork parent child' =>
      have hsame : ((run arch text child acts).step (.fork parent child')).tracer.instructionMap =
          (run arch text child acts).tracer.instructionMap := rfl
      rw [hsame, ih]
      simp
    | continueExecution contFails stop =>
      show ((continueExecution _ contFails stop).1.tracer.instructionMap a).isSome ↔ _
      rw [instructionMap_continueExecution, ih]
      simp

end Engine

end InstructionMap

/-! ### What is reported -/

section Sound

variable {arch : Arch}

/-- The signals that `waitEvent` takes for a breakpoint. -/
def takenForTrap (arch : Arch) (sig event : Nat) : Prop :=
  eventIsForky sig event = false ∧ (sig = sigTrap ∨ sig = arch.sigStop ∨ sig = arch.sigIll)

instance (arch : Arch) (sig event : Nat) : Decidable (takenForTrap arch sig event) :=
  inferInstanceAs (Decidable (_ ∧ _))

namespace Engine

/-- A breakpoint at a registered address is reported only for a thread that has executed the trap
there, and only then the program counter of the thread is changed. -/
structure Sound (s : Engine arch) (stop : Stop arch) : Prop where
  reported : (s.waitEvent stop.report).2.type = .breakpoint →
    (s.tracer.instructionMap (s.waitEvent stop.report).2.addr.toNat).isSome →
    ∃ who addr, stop = .trap who addr ∧ (s.waitEvent stop.report).2.addr = addr.setWidth 64
  rewound : ∀ who, (s.waitEvent stop.report).1.pc who ≠ s.pc who →
    ∃ addr, stop = .trap who addr ∧ (s.waitEvent stop.report).2.type = .breakpoint ∧
      (s.waitEvent stop.report).2.addr = addr.setWidth 64 ∧
      (s.tracer.instructionMap addr.toNat).isSome

end Engine

theorem toNat_setWidth (x : BitVec (8 * arch.wordSize)) : (x.setWidth 64).toNat = x.toNat := by
  have hx := x.isLt
  have hle : 2 ^ (8 * arch.wordSize) ≤ 2 ^ 64 := by
    apply Nat.pow_le_pow_right (by decide)
    cases arch <;> decide
  rw [BitVec.toNat_setWidth, Nat.mod_eq_of_lt (by omega)]

/-- What `waitEvent` does with a stop that it takes for a breakpoint, on x86. -/
theorem waitEvent_taken (harch : arch = .i386 ∨ arch = .x86_64) (s : Engine arch) {who sig event : Nat}
    (h : takenForTrap arch sig event) :
    (s.waitEvent (some (who, .stopped sig event))).2 =
        ⟨.breakpoint, -1, (s.pc who - 1).setWidth 64⟩ ∧
      (s.waitEvent (some (who, .stopped sig event))).1.pc =
        if (s.tracer.instructionMap (s.pc who - 1).toNat).isSome then
          Function.update s.pc who (s.pc who - 1)
        else s.pc := by
  have hget : archGetPcFromRegs arch (s.pc who) = s.pc who - 1 := by
    rcases harch with rfl | rfl <;> rfl
  have hadjust : archAdjustPcAfterBreakpoint arch (s.pc who) = s.pc who - 1 := by
    rcases harch with rfl | rfl <;> rfl
  have hskip : skippedPc arch (s.pc who) = s.pc who := by
    rcases harch with rfl | rfl <;> rfl
  unfold Engine.waitEvent
  simp only [Engine.getPc, hget, eventIsNewChild, h.1, Bool.or_self, Bool.false_eq_true, if_false,
    if_pos h.2, toNat_setWidth, true_and]
  split
  · simp [Engine.singleStep, hadjust]
  · split
    · simp [Engine.skipInstruction, hskip]
    · rfl

theorem waitEvent_other (s : Engine arch) {r : Option (Nat × WaitStatus)}
    (h : ∀ who sig event, r = some (who, .stopped sig event) → ¬takenForTrap arch sig event) :
    (s.waitEvent r).2.type ≠ .breakpoint ∧ (s.waitEvent r).1.pc = s.pc := by
  unfold Engine.waitEvent
  split
  · exact ⟨by simp, rfl⟩
  · rename_i who status
    dsimp only
    split
    · rename_i sig event
      have hnot := h who sig event rfl
      unfold takenForTrap at hnot
      split
      · exact ⟨by simp, rfl⟩
      · rename_i hforky
        rw [eventIsNewChild, Bool.false_or, Bool.not_eq_true] at hforky
        rw [if_neg fun hsig => hnot ⟨hforky, hsig⟩]
        exact ⟨by simp, rfl⟩
    · refine ⟨?_, rfl⟩
      dsimp only
      split <;> simp
    · refine ⟨?_, rfl⟩
      dsimp only
      split <;> simp

theorem takenForTrap_trap (arch : Arch) : takenForTrap arch sigTrap 0 := ⟨rfl, Or.inl rfl⟩

/-- The program counter of a thread that has not executed a trap, if it stops with a signal that
`waitEvent` takes for a breakpoint, is not right after an address of `registered`. -/
def Stop.Apart (registered : BitVec (8 * arch.wordSize) → Prop) : Stop arch → Prop
  | .other _ pc (.stopped sig event) => takenForTrap arch sig event → ¬registered (pc - 1)
  | _ => True

theorem Engine.sound_trap (harch : arch = .i386 ∨ arch = .x86_64) (s : Engine arch) {who : Nat}
    {addr : BitVec (8 * arch.wordSize)} (hpc : s.pc who = addr + 1) : s.Sound (.trap who addr) := by
  obtain ⟨hev, hcounters⟩ := waitEvent_taken harch s (takenForTrap_trap arch)
  rw [hpc, BitVec.add_sub_cancel] at hev hcounters
  have haddr : (s.waitEvent (Stop.trap who addr).report).2.addr = addr.setWidth 64 := by
    rw [Stop.report, hev]
  refine ⟨fun _ _ => ⟨who, addr, rfl, haddr⟩, fun thread hchanged => ?_⟩
  rw [Stop.report, hcounters] at hchanged
  split at hchanged
  · rename_i hfound
    have hthread : thread = who := by
      by_contra hne
      exact hchanged (Function.update_of_ne hne _ _)
    refine ⟨addr, by rw [hthread], by rw [Stop.report, hev], haddr, hfound⟩
  · exact absurd rfl hchanged

/-- The law holds for a stop exactly when it is apart from the registered addresses. -/
theorem Engine.sound_resume_iff (harch : arch = .i386 ∨ arch = .x86_64) (s : Engine arch)
    (contFails : Bool) (stop : Stop arch) :
    (s.resume contFails stop).Sound stop ↔
      stop.Apart fun a => (s.tracer.instructionMap a.toNat).isSome := by
  have hmap : (s.resume contFails stop).tracer.instructionMap = s.tracer.instructionMap :=
    instructionMap_setupAllBreakpoints s.tracer
  have hcounters : (s.resume contFails stop).pc = stop.counters s.pc := rfl
  generalize s.resume contFails stop = t at hmap hcounters
  -- a stop that is not taken for a breakpoint
  have hquiet : (∀ who sig event, stop.report = some (who, .stopped sig event) →
      ¬takenForTrap arch sig event) → t.Sound stop := by
    intro hnot
    obtain ⟨htype, hpc⟩ := waitEvent_other t hnot
    exact ⟨fun h => absurd h htype, fun who h => absurd (congrFun hpc who) h⟩
  cases stop with
  | trap who addr =>
    have hpc : t.pc who = addr + 1 := by
      rw [hcounters]
      exact Function.update_self _ _ _
    exact iff_of_true (t.sound_trap harch hpc) trivial
  | failed => exact iff_of_true (hquiet (by simp [Stop.report])) trivial
  | other who pc status =>
    cases status with
    | signaled sig => exact iff_of_true (hquiet (by simp [Stop.report])) trivial
    | exited exitStatus => exact iff_of_true (hquiet (by simp [Stop.report])) trivial
    | stopped sig event =>
      by_cases htaken : takenForTrap arch sig event
      · have hpc : t.pc who = pc := by
          rw [hcounters]
          exact Function.update_self _ _ _
        obtain ⟨hev, hset⟩ := waitEvent_taken harch t htaken
        rw [hpc, hmap] at hset
        rw [hpc] at hev
        constructor
        · intro hsound _ hfound
          obtain ⟨who', addr, hstop, -⟩ := hsound.reported (by rw [Stop.report, hev])
            (by rw [Stop.report, hev, toNat_setWidth, hmap]; exact hfound)
          cases hstop
        · intro hapart
          have hnone := hapart htaken
          constructor
          · intro _ hfound
            rw [Stop.report, hev, toNat_setWidth, hmap] at hfound
            exact absurd hfound hnone
          · intro who' hchanged
            rw [Stop.report, hset, if_neg hnone] at hchanged
            exact absurd rfl hchanged
      · refine iff_of_true (hquiet ?_) fun h => absurd h htaken
        intro who' sig' event' hreport
        cases hreport
        exact htaken

/-- The law at one action of a run. -/
def Engine.SoundAt (s : Engine arch) : Action arch → Prop
  | .continueExecution contFails stop => (s.resume contFails stop).Sound stop
  | _ => True

/-- The stop of an action is apart from the addresses that have been registered before. -/
def Action.Apart (before : List (Action arch)) : Action arch → Prop
  | .continueExecution _ stop => stop.Apart fun a => a ≠ 0 ∧ .register a ∈ before
  | _ => True

/-- A run reports only executed traps exactly when each of its stops is apart from the addresses that
have been registered before it. -/
theorem sound_run_iff (harch : arch = .i386 ∨ arch = .x86_64) (text : Memory) (child : Nat)
    (acts : List (Action arch)) :
    AllSteps (fun before act => (Engine.run arch text child before).SoundAt act) acts ↔
      AllSteps (fun before act => act.Apart before) acts := by
  have hstep : ∀ before act, (Engine.run arch text child before).SoundAt act ↔ act.Apart before := by
    intro before act
    cases act with
    | register addr => rfl
    | fork parent child' => rfl
    | continueExecution contFails stop =>
      have hregistered : ∀ a : BitVec (8 * arch.wordSize),
          ((Engine.run arch text child before).tracer.instructionMap a.toNat).isSome ↔
            a ≠ 0 ∧ .register a ∈ before := by
        intro a
        rw [Engine.isSome_run]
        simp only [BitVec.toNat_inj, exists_eq_right, ne_eq]
        rw [← BitVec.toNat_inj]
        simp
      unfold Engine.SoundAt Action.Apart
      dsimp only
      rw [Engine.sound_resume_iff harch]
      simp only [hregistered]
  unfold AllSteps
  simp only [hstep]

/-- A thread executes the trap at a registered address, and another one gets a `SIGSTOP` elsewhere. -/
def twoThreads : List (Action .x86_64) :=
  [.register 0x1000, .continueExecution false (.trap 7 0x1000),
    .continueExecution false (.other 8 0x2000 (.stopped 19 0))]

theorem sound_two_threads :
    AllSteps (fun before act => (Engine.run .x86_64 (fun _ => 0x90) 7 before).SoundAt act)
      twoThreads := by
  apply (sound_run_iff (Or.inr rfl) (fun _ => 0x90) 7 twoThreads).mpr
  have hsteps : twoThreads =
      (([] ++ [.register 0x1000]) ++ [.continueExecution false (.trap 7 0x1000)]) ++
        [.continueExecution false (.other 8 0x2000 (.stopped 19 0))] := rfl
  rw [hsteps, allSteps_snoc, allSteps_snoc, allSteps_snoc]
  exact ⟨⟨⟨allSteps_nil, trivial⟩, trivial⟩, fun _ h => absurd h.2 (by decide)⟩

/-- A thread gets a `SIGSTOP` right after the one-byte instruction at a registered address: it is
reported as a breakpoint, and the program counter is set back. -/
theorem not_sound_stopped_thread :
    ¬AllSteps (fun before act => (Engine.run .x86_64 (fun _ => 0x90) 7 before).SoundAt act)
      [.register 0x1000, .continueExecution false (.other 8 0x1001 (.stopped 19 0))] := by
  intro h
  have hsound := h [.register 0x1000] _ (List.prefix_refl _)
  have hapart := (Engine.sound_resume_iff (Or.inr rfl) _ _ _).mp hsound
  exact hapart (by decide) rfl

end Sound

end Kcov.Ptrace
