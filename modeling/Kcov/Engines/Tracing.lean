import Kcov.Collector
import Kcov.Engines.Breakpoints
import Kcov.Engines.WaitEvent
import Kcov.Reporter.Compiled

/-! kcov and a compiled program: what the processes do, what the ptrace engine makes of their stops,
and what the collector and the reporter make of its events. -/

namespace Kcov.Ptrace

open Bytes Runs

/-- A clear changes only what is planted. -/
theorem Plan.step_clear (t : Plan) (a : Nat) : t.step (.clear a) = { t with
    planted := if a ∈ t.registered
      then Function.update t.planted t.active ((t.planted t.active).erase a) else t.planted } := by
  rw [Plan.step]
  split <;> rfl

/-- The start of `continueExecution`: `cont` may fail, and then the thread is gone. -/
def Engine.cont {arch : Arch} (s : Engine arch) (contFails : Bool) : Engine arch :=
  { s with
    tracer := s.tracer.setupAllBreakpoints
    children := if contFails then s.children.erase s.tracer.activeChild else s.children }

/-- The registers are those of the stop. -/
def Engine.stopped {arch : Arch} (s : Engine arch) (stop : Stop arch) : Engine arch :=
  { s with pc := stop.counters s.pc }

/-- What happens to kcov and the processes that it traces. -/
inductive Happening (arch : Arch) where
  /-- The parser finds a line. -/
  | line (file : Text) (lineNr : U32) (addr : BitVec (8 * arch.wordSize))
  /-- The start of `continueExecution`, which ends with the next stop. -/
  | cont (contFails : Bool)
  /-- The process `who` executes the instruction at `addr`. -/
  | execute (who : Nat) (addr : BitVec (8 * arch.wordSize))
  | fork (parent child : Nat)
  | stop (stop : Stop arch)
  deriving DecidableEq

/-- The engine, the collector, the calls of the reporter, and the processes that run. -/
structure Tracing (arch : Arch) where
  engine : Engine arch
  collector : Collector
  calls : List Reporter.Event
  running : Finset Nat

namespace Tracing

variable {arch : Arch}

/-- The child has stopped behind `exec`. -/
def start (arch : Arch) (text : Memory) (child : Nat) : Tracing arch :=
  { engine := Engine.start arch text child
    collector := Collector.create
    calls := []
    running := ∅ }

section Step

variable (runFilters : Text → Bool) (daemonize : Bool)

/-- The listeners of the parser: first the collector, then the reporter. -/
def onLine (s : Tracing arch) (file : Text) (lineNr : U32) (addr : BitVec (8 * arch.wordSize)) :
    Tracing arch :=
  { s with
    engine := if runFilters file then s.engine.step (.register addr) else s.engine
    calls := s.calls ++ [.line file lineNr (addr.setWidth 64)] }

/-- What `waitEvent` returns for a stop. -/
def waitEvent (s : Tracing arch) (stop : Stop arch) : Engine arch × EngineEvent (BitVec 64) :=
  (s.engine.stopped stop).waitEvent stop.report

/-- `continueExecution` from `wait_all` on. -/
def onStop (s : Tracing arch) (stop : Stop arch) : Tracing arch :=
  let (engine, ev) := s.waitEvent stop
  let (collector, calls) := s.collector.onEvent daemonize ev
  let engine := { engine with signal := if ev.type = .signal then ev.data else 0 }
  { engine :=
      if ev.type = .breakpoint then
        { engine with tracer := (engine.tracer.clearBreakpoint ev.addr.toNat).1 }
      else engine
    collector
    calls := s.calls ++ calls
    running :=
      match stop.report with
      | some (who, _) => s.running.erase who
      | none => s.running }

def step (s : Tracing arch) : Happening arch → Tracing arch
  | .line file lineNr addr => s.onLine runFilters file lineNr addr
  | .cont contFails =>
    { s with
      engine := s.engine.cont contFails
      running :=
        if contFails then s.running else insert s.engine.tracer.activeChild s.running }
  | .execute _ _ => s
  | .fork parent child =>
    { s with
      engine := s.engine.step (.fork parent child)
      running := insert child s.running }
  | .stop stop => s.onStop daemonize stop

def run (text : Memory) (child : Nat) (hs : List (Happening arch)) : Tracing arch :=
  hs.foldl (step runFilters daemonize) (start arch text child)

/-- The two parts of `continueExecution` make the whole of it. -/
theorem continueExecution_eq (s : Tracing arch) (contFails : Bool) (stop : Stop arch) :
    (((s.step runFilters daemonize (.cont contFails)).step runFilters daemonize
      (.stop stop)).engine) = (s.engine.continueExecution contFails stop).1 := rfl

end Step

/-! ### What can happen -/

/-- A process reads an instruction at `a`: it executes it, or the trap there. -/
def reaches (a : Nat) : Happening arch → Bool
  | .execute _ addr => addr.toNat = a
  | .stop (.trap _ addr) => addr.toNat = a
  | _ => false

/-- Some process has read an instruction at `a`. -/
def reached (hs : List (Happening arch)) (a : Nat) : Bool := hs.any (reaches a)

/-- The lines that the parser finds. -/
def linesOf (hs : List (Happening arch)) : List Reporter.Event :=
  hs.filterMap fun
    | .line file lineNr addr => some (.line file lineNr (addr.setWidth 64))
    | _ => none

/-- A process runs until it stops, and where it stops at a trap there is one. -/
def Possible (s : Tracing arch) : Happening arch → Prop
  | .execute who addr => who ∈ s.running ∧ s.engine.tracer.memory who addr.toNat ≠ 0xcc
  | .fork parent _ => parent ∈ s.running
  | .stop (.trap who addr) => who ∈ s.running ∧ s.engine.tracer.memory who addr.toNat = 0xcc
  | .stop (.other who _ _) => who ∈ s.running
  | _ => True

/-- A line of an included file is found while no process runs, before its code is reached. -/
def Early (runFilters : Text → Bool) (before : List (Happening arch)) (s : Tracing arch) :
    Happening arch → Prop
  | .line file _ addr => runFilters file = true →
      s.running = ∅ ∧ addr ≠ 0 ∧ reached before addr.toNat = false
  | _ => True

/-- No process stops by another signal right behind a registered address. -/
def Apart (s : Tracing arch) : Happening arch → Prop
  | .stop stop => stop.Apart fun a => (s.engine.tracer.instructionMap a.toNat).isSome
  | _ => True

/-- What holds of a happening after those before it. -/
structure Regular (runFilters : Text → Bool) (before : List (Happening arch)) (s : Tracing arch)
    (h : Happening arch) : Prop where
  possible : s.Possible h
  early : s.Early runFilters before h
  apart : s.Apart h

/-! ### What the engine makes of a stop -/

theorem tracer_waitEvent (s : Engine arch) (who : Nat) (status : WaitStatus) :
    (s.waitEvent (some (who, status))).1.tracer = s.tracer.step (.stop who) := by
  unfold Engine.waitEvent
  dsimp only
  split
  · split
    · rfl
    · split
      · dsimp only
        split
        · rfl
        · split <;> rfl
      · rfl
  · rfl
  · rfl

section OnStop

variable {runFilters : Text → Bool} {daemonize : Bool} {s : Tracing arch} {stop : Stop arch}
  {who : Nat} {addr pc : BitVec (8 * arch.wordSize)}

theorem onStop_calls : (s.onStop daemonize stop).calls = s.calls ++
    if (s.waitEvent stop).2.type = .breakpoint then [.hit (s.waitEvent stop).2.addr 1] else [] := by
  rw [← Collector.onEvent_calls daemonize s.collector]
  rfl

theorem onStop_tracer {status : WaitStatus} (h : stop.report = some (who, status)) :
    (s.onStop daemonize stop).engine.tracer =
      if (s.waitEvent stop).2.type = .breakpoint then
        (s.engine.tracer.step (.stop who)).step (.clear (s.waitEvent stop).2.addr.toNat)
      else s.engine.tracer.step (.stop who) := by
  have htracer : (s.waitEvent stop).1.tracer = s.engine.tracer.step (.stop who) := by
    rw [waitEvent, h]
    exact tracer_waitEvent _ who status
  rw [← htracer]
  exact apply_ite Engine.tracer _ _ _

theorem onStop_running {status : WaitStatus} (h : stop.report = some (who, status)) :
    (s.onStop daemonize stop).running = s.running.erase who := by
  simp only [onStop, h]

theorem waitEvent_trap (hx86 : arch = .i386 ∨ arch = .x86_64) :
    (s.waitEvent (.trap who addr)).2 = ⟨.breakpoint, -1, addr.setWidth 64⟩ := by
  have hpc : (s.engine.stopped (.trap who addr)).pc who = addr + 1 := Function.update_self _ _ _
  rw [waitEvent, Stop.report, (waitEvent_taken hx86 _ (takenForTrap_trap arch)).1, hpc,
    BitVec.add_sub_cancel]

/-- A stop without a trap is an event of another kind, or is taken for a trap right before the
program counter. -/
theorem waitEvent_stop (hx86 : arch = .i386 ∨ arch = .x86_64) (status : WaitStatus) :
    (s.waitEvent (.other who pc status)).2.type ≠ .breakpoint ∨
      ((s.waitEvent (.other who pc status)).2 = ⟨.breakpoint, -1, (pc - 1).setWidth 64⟩ ∧
        ∃ sig ptraceEvent, status = .stopped sig ptraceEvent ∧ takenForTrap arch sig ptraceEvent) := by
  have hpc : (s.engine.stopped (.other who pc status)).pc who = pc := Function.update_self _ _ _
  by_cases htaken : ∃ sig ptraceEvent, status = .stopped sig ptraceEvent ∧
      takenForTrap arch sig ptraceEvent
  · obtain ⟨sig, ptraceEvent, rfl, h⟩ := htaken
    refine Or.inr ⟨?_, sig, ptraceEvent, rfl, h⟩
    rw [waitEvent, Stop.report, (waitEvent_taken hx86 _ h).1, hpc]
  · refine Or.inl (waitEvent_other _ fun who' sig ptraceEvent hreport h => htaken ?_).1
    cases hreport
    exact ⟨sig, ptraceEvent, rfl, h⟩

end OnStop

/-! ### What holds in every run -/

/-- The engine follows the plan `t`. A registered address that no process has reached is planted in
every process that may run, or will be before it does. -/
structure Follows (text : Memory) (cfg : ReporterSetup) (hs : List (Happening arch))
    (s : Tracing arch) (t : Plan) : Prop where
  refines : Refines text s.engine.tracer t
  valid : t.Valid arch.instructionAlign
  pending : t.pending ≠ [] → s.running = ∅
  running : ∀ a ∈ t.registered, reached hs a = false → ∀ p ∈ s.running, a ∈ t.planted p
  active : ∀ a ∈ t.registered, reached hs a = false → a ∈ t.planted t.active ∨ a ∈ t.pending
  registered : ∀ ref, ∀ a ∈ Reporter.addressesOf cfg ref s.calls, a.toNat ∈ t.registered
  hits : ∀ ref a, a ∈ Reporter.hitAddressesOf cfg ref s.calls ↔
    a ∈ Reporter.addressesOf cfg ref s.calls ∧ reached hs a.toNat = true

section Steps

variable {text : Memory} {cfg : ReporterSetup} {daemonize : Bool} {hs : List (Happening arch)}
  {s : Tracing arch} {t : Plan}

theorem reached_snoc (hs : List (Happening arch)) (h : Happening arch) (a : Nat) :
    reached (hs ++ [h]) a = (reached hs a || reaches a h) := by
  rw [reached, List.any_append, List.any_cons, List.any_nil, Bool.or_false]
  rfl

/-- A happening that reaches nothing new. -/
theorem reached_same {h : Happening arch} (hh : ∀ a, reaches a h = false) (a : Nat) :
    reached (hs ++ [h]) a = reached hs a := by
  rw [reached_snoc, hh, Bool.or_false]

theorem follows_start (text : Memory) (cfg : ReporterSetup) (child : Nat) :
    Follows text cfg [] (start arch text child) (Plan.start child) := by
  refine ⟨refines_start text child, Plan.valid_start _ child, fun h => absurd rfl h, ?_, ?_, ?_, ?_⟩
  · intro a ha
    simp [Plan.start] at ha
  · intro a ha
    simp [Plan.start] at ha
  · intro ref a ha
    simp [start, Reporter.addressesOf] at ha
  · intro ref a
    simp [start, Reporter.addressesOf, Reporter.hitAddressesOf]

/-- A line of a file that is not included. -/
theorem Follows.filtered (h : Follows text cfg hs s t) {file : Text}
    (hfilter : cfg.runFilters file = false) (lineNr : U32) (addr : BitVec (8 * arch.wordSize)) :
    Follows text cfg (hs ++ [.line file lineNr addr])
      (s.onLine cfg.runFilters file lineNr addr) t := by
  have hreached := @reached_same _ hs (.line file lineNr addr) fun _ => rfl
  have haddrs : ∀ ref, Reporter.addressesOf cfg ref
      (s.calls ++ [.line file lineNr (addr.setWidth 64)]) = Reporter.addressesOf cfg ref s.calls := by
    intro ref
    rw [Reporter.addressesOf_snoc, Reporter.addAddressOf_filtered hfilter]
  refine ⟨?_, h.valid, h.pending, fun a ha hnot => ?_, fun a ha hnot => ?_, fun ref a ha => ?_,
    fun ref a => ?_⟩
  · rw [onLine, hfilter]
    exact h.refines
  · exact h.running a ha ((hreached a).symm.trans hnot)
  · exact h.active a ha ((hreached a).symm.trans hnot)
  · exact h.registered ref a (haddrs ref ▸ ha)
  · show a ∈ Reporter.hitAddressesOf cfg ref (s.calls ++ [.line file lineNr (addr.setWidth 64)]) ↔
      a ∈ Reporter.addressesOf cfg ref (s.calls ++ [.line file lineNr (addr.setWidth 64)]) ∧ _
    rw [haddrs, hreached, Reporter.hitAddressesOf_snoc (by simp), h.hits]

/-- A line of an included file is registered before its code is reached. -/
theorem Follows.line (h : Follows text cfg hs s t) (hx86 : arch = .i386 ∨ arch = .x86_64)
    {file : Text} (hfilter : cfg.runFilters file = true) (lineNr : U32)
    {addr : BitVec (8 * arch.wordSize)}
    (hearly : s.Early cfg.runFilters hs (.line file lineNr addr)) :
    Follows text cfg (hs ++ [.line file lineNr addr]) (s.onLine cfg.runFilters file lineNr addr)
      (t.step (.register addr.toNat)) := by
  obtain ⟨hrunning, hzero, hunreached⟩ := hearly hfilter
  have hreached := @reached_same _ hs (.line file lineNr addr) fun _ => rfl
  have hne : addr.toNat ≠ 0 := fun h0 => hzero (BitVec.eq_of_toNat_eq h0)
  have hcases : addr.toNat ∈ t.registered ∧ t.step (.register addr.toNat) = t ∨
      t.step (.register addr.toNat) = { t with
        registered := insert addr.toNat t.registered
        pending := t.pending ++ [addr.toNat]
        snapshot := Function.update t.snapshot addr.toNat (t.planted t.active) } := by
    rw [Plan.step]
    by_cases hold : addr.toNat ∈ t.registered
    · exact Or.inl ⟨hold, if_pos (Or.inr hold)⟩
    · exact Or.inr (if_neg (not_or.mpr ⟨hne, hold⟩))
  have hsub : t.registered ⊆ (t.step (.register addr.toNat)).registered ∧
      addr.toNat ∈ (t.step (.register addr.toNat)).registered := by
    rcases hcases with ⟨hold, hsame⟩ | hnew
    · rw [hsame]
      exact ⟨Finset.Subset.refl _, hold⟩
    · rw [hnew]
      exact ⟨Finset.subset_insert _ _, Finset.mem_insert_self _ _⟩
  have hone : arch.instructionAlign = 1 := by rcases hx86 with rfl | rfl <;> rfl
  refine ⟨?_, Plan.valid_step h.valid _ fun a _ => by rw [hone, Nat.mod_one], fun _ => hrunning,
    fun a ha hnot p hp => ?_, fun a ha hnot => ?_, fun ref a ha => ?_, fun ref a => ?_⟩
  · rw [onLine, hfilter]
    exact refines_register h.refines addr.toNat
  · change p ∈ s.running at hp
    rw [hrunning] at hp
    simp at hp
  · rw [hreached] at hnot
    rcases hcases with ⟨hold, hsame⟩ | hnew
    · rw [hsame] at ha ⊢
      exact h.active a ha hnot
    · rw [hnew] at ha ⊢
      rcases Finset.mem_insert.mp ha with rfl | ha
      · exact Or.inr (by simp)
      · exact (h.active a ha hnot).imp id fun hmem => List.mem_append_left _ hmem
  · change a ∈ Reporter.addressesOf cfg ref (s.calls ++ [.line file lineNr (addr.setWidth 64)]) at ha
    rw [Reporter.addressesOf_snoc, Reporter.addAddressOf] at ha
    split at ha
    · rcases List.mem_append.mp ha with ha | ha
      · exact hsub.1 (h.registered ref a ha)
      · rw [List.mem_singleton.mp ha, toNat_setWidth]
        exact hsub.2
    · exact hsub.1 (h.registered ref a ha)
  · show a ∈ Reporter.hitAddressesOf cfg ref (s.calls ++ [.line file lineNr (addr.setWidth 64)]) ↔
      a ∈ Reporter.addressesOf cfg ref (s.calls ++ [.line file lineNr (addr.setWidth 64)]) ∧ _
    rw [Reporter.hitAddressesOf_snoc (by simp), hreached, h.hits, Reporter.addressesOf_snoc,
      Reporter.addAddressOf]
    split
    · rw [List.mem_append, or_and_right]
      refine (or_iff_left ?_).symm
      rintro ⟨ha, htrue⟩
      rw [List.mem_singleton.mp ha, toNat_setWidth, hunreached] at htrue
      cases htrue
    · rfl

theorem Follows.cont (h : Follows text cfg hs s t) (hx86 : arch = .i386 ∨ arch = .x86_64)
    (contFails : Bool) : Follows text cfg (hs ++ [.cont contFails])
      (s.step cfg.runFilters daemonize (.cont contFails)) (t.step .setupAll) := by
  have hreached := @reached_same _ hs (.cont contFails) fun _ => rfl
  have hlocal : SetupIsLocal arch := setupIsLocal_field (by rcases hx86 with rfl | rfl <;> decide)
  have hsize : arch.instructionAlign = arch.trap.size := by rcases hx86 with rfl | rfl <;> rfl
  -- The active process has all traps.
  have hactive : ∀ a ∈ t.registered, reached hs a = false →
      a ∈ t.planted t.active ∪ t.pending.toFinset := by
    intro a ha hnot
    rw [Finset.mem_union, List.mem_toFinset]
    exact h.active a ha hnot
  refine ⟨refines_setupAll hlocal hsize h.valid h.refines, Plan.valid_step h.valid _ (by simp),
    fun hne => absurd rfl hne, fun a ha hnot p hp => ?_, fun a ha hnot => ?_, h.registered,
    fun ref a => ?_⟩
  · rw [hreached] at hnot
    show a ∈ Function.update t.planted t.active _ p
    by_cases hpa : p = t.active
    · rw [hpa, Function.update_self]
      exact hactive a ha hnot
    · rw [Function.update_of_ne hpa]
      refine h.running a ha hnot p ?_
      have hmem : p ∈ if contFails then s.running else insert s.engine.tracer.activeChild s.running := hp
      rw [h.refines.active] at hmem
      split at hmem
      · exact hmem
      · exact Finset.mem_of_mem_insert_of_ne hmem hpa
  · rw [hreached] at hnot
    left
    show a ∈ Function.update t.planted t.active _ t.active
    rw [Function.update_self]
    exact hactive a ha hnot
  · rw [hreached]
    exact h.hits ref a

theorem Follows.fork (h : Follows text cfg hs s t) {parent : Nat} (child : Nat)
    (hparent : parent ∈ s.running) : Follows text cfg (hs ++ [.fork parent child])
      (s.step cfg.runFilters daemonize (.fork parent child)) (t.step (.fork parent child)) := by
  have hreached := @reached_same _ hs (.fork parent child) fun _ => rfl
  -- While a process runs, all traps are planted.
  have hall : ∀ a ∈ t.registered, reached hs a = false → ∀ p,
      p ∈ insert child s.running ∨ p = t.active →
        a ∈ Function.update t.planted child (t.planted parent) p := by
    intro a ha hnot p hp
    by_cases hpc : p = child
    · rw [hpc, Function.update_self]
      exact h.running a ha hnot parent hparent
    · rw [Function.update_of_ne hpc]
      rcases hp with hp | rfl
      · exact h.running a ha hnot p (Finset.mem_of_mem_insert_of_ne hp hpc)
      · refine (h.active a ha hnot).resolve_right fun hmem => ?_
        rw [h.pending (List.ne_nil_of_mem hmem)] at hparent
        simp at hparent
  refine ⟨refines_fork h.refines parent child, Plan.valid_step h.valid _ (by simp), fun hne => ?_,
    fun a ha hnot p hp => ?_, fun a ha hnot => ?_, h.registered, fun ref a => ?_⟩
  · rw [h.pending hne] at hparent
    simp at hparent
  · exact hall a ha ((hreached a).symm.trans hnot) p (Or.inl hp)
  · exact Or.inl (hall a ha ((hreached a).symm.trans hnot) t.active (Or.inr rfl))
  · rw [hreached]
    exact h.hits ref a

/-- The byte at an address where no trap is planted. -/
theorem Follows.planted_of_trap (h : Follows text cfg hs s t) (hx86 : arch = .i386 ∨ arch = .x86_64)
    {who a : Nat} (ha : a ∈ t.planted who) : s.engine.tracer.memory who a = 0xcc := by
  have hslot : arch.trap.slot a = a := by
    rcases hx86 with rfl | rfl <;> exact (Nat.mul_one _).trans (Nat.div_one a)
  have hbyte : arch.trap.byte 0 = 0xcc := by rcases hx86 with rfl | rfl <;> rfl
  rw [h.refines.memory, Trap.overlay, hslot, if_pos ha, Nat.sub_self, hbyte]

/-- A process that executes the code of a line has trapped there before, or an ancestor of it. -/
theorem Follows.execute (h : Follows text cfg hs s t) (hx86 : arch = .i386 ∨ arch = .x86_64)
    {who : Nat} {addr : BitVec (8 * arch.wordSize)} (hposs : s.Possible (.execute who addr)) :
    Follows text cfg (hs ++ [.execute who addr])
      (s.step cfg.runFilters daemonize (.execute who addr)) t := by
  obtain ⟨hrunning, hbyte⟩ := hposs
  have hreached : ∀ a ∈ t.registered, reached (hs ++ [.execute who addr]) a = reached hs a := by
    intro a ha
    rw [reached_snoc, reaches]
    by_cases heq : addr.toNat = a
    · cases hold : reached hs a with
      | true => rfl
      | false =>
        have htrap := h.planted_of_trap hx86 (h.running a ha hold who hrunning)
        exact absurd (heq ▸ htrap) hbyte
    · rw [decide_eq_false heq, Bool.or_false]
  refine ⟨h.refines, h.valid, h.pending, fun a ha hnot => ?_, fun a ha hnot => ?_, h.registered,
    fun ref a => ?_⟩
  · exact h.running a ha ((hreached a ha).symm.trans hnot)
  · exact h.active a ha ((hreached a ha).symm.trans hnot)
  · refine (h.hits ref a).trans (and_congr_right fun ha => ?_)
    rw [hreached _ (h.registered ref a ha)]

/-- The stops that leave all traps that have not been reached where they are. -/
theorem Follows.stopped (h : Follows text cfg hs s t) {stop : Stop arch} {t' : Plan} {who : Nat}
    {status : WaitStatus} (hreport : stop.report = some (who, status)) (hwho : who ∈ s.running)
    (hrefines : Refines text (s.onStop daemonize stop).engine.tracer t')
    (hvalid : t'.Valid arch.instructionAlign) (hactive : t'.active = who)
    (hregistered : t'.registered = t.registered) (hpending : t'.pending = t.pending)
    (hplanted : ∀ a, reached (hs ++ [.stop stop]) a = false → ∀ p,
      a ∈ t.planted p → a ∈ t'.planted p)
    (haddrs : ∀ ref, Reporter.addressesOf cfg ref (s.onStop daemonize stop).calls =
      Reporter.addressesOf cfg ref s.calls)
    (hhits : ∀ ref a, a ∈ Reporter.hitAddressesOf cfg ref (s.onStop daemonize stop).calls ↔
      a ∈ Reporter.addressesOf cfg ref s.calls ∧ reached (hs ++ [.stop stop]) a.toNat = true) :
    Follows text cfg (hs ++ [.stop stop]) (s.step cfg.runFilters daemonize (.stop stop)) t' := by
  have hnone : t.pending = [] := by
    by_contra hne
    rw [h.pending hne] at hwho
    simp at hwho
  have hall : ∀ a ∈ t'.registered, reached (hs ++ [.stop stop]) a = false → ∀ p ∈ s.running,
      a ∈ t'.planted p := by
    intro a ha hnot p hp
    refine hplanted a hnot p (h.running a (hregistered ▸ ha) ?_ p hp)
    rw [reached_snoc, Bool.or_eq_false_iff] at hnot
    exact hnot.1
  refine ⟨hrefines, hvalid, fun hne => absurd (hpending.trans hnone) hne,
    fun a ha hnot p hp => ?_, fun a ha hnot => ?_, fun ref a ha => ?_, fun ref a => ?_⟩
  · change p ∈ (s.onStop daemonize stop).running at hp
    rw [onStop_running hreport] at hp
    exact hall a ha hnot p (Finset.mem_of_mem_erase hp)
  · rw [hactive]
    exact Or.inl (hall a ha hnot who hwho)
  · rw [hregistered]
    exact h.registered ref a (haddrs ref ▸ ha)
  · show a ∈ Reporter.hitAddressesOf cfg ref (s.onStop daemonize stop).calls ↔
      a ∈ Reporter.addressesOf cfg ref (s.onStop daemonize stop).calls ∧ _
    rw [haddrs, hhits]

theorem addressesOf_hit (ref : LineRef) (calls : List Reporter.Event) (a hits : U64) :
    Reporter.addressesOf cfg ref (calls ++ [.hit a hits]) = Reporter.addressesOf cfg ref calls := by
  rw [Reporter.addressesOf_snoc]
  rfl

/-- A trap is reported, and taken away in the process that has stopped. -/
theorem Follows.trap (h : Follows text cfg hs s t) (hx86 : arch = .i386 ∨ arch = .x86_64)
    {who : Nat} {addr : BitVec (8 * arch.wordSize)} (hwho : who ∈ s.running) :
    Follows text cfg (hs ++ [.stop (.trap who addr)])
      (s.step cfg.runFilters daemonize (.stop (.trap who addr)))
      ((t.step (.stop who)).step (.clear addr.toNat)) := by
  have hevent := @waitEvent_trap _ s who addr hx86
  have hcalls : (s.onStop daemonize (.trap who addr)).calls =
      s.calls ++ [.hit (addr.setWidth 64) 1] := by
    rw [onStop_calls, hevent]
    rfl
  have htracer : (s.onStop daemonize (.trap who addr)).engine.tracer =
      (s.engine.tracer.step (.stop who)).step (.clear addr.toNat) := by
    rw [onStop_tracer rfl, hevent, if_pos rfl, toNat_setWidth]
  have hstop := refines_stop h.refines who
  have hvalid : (t.step (.stop who)).Valid arch.instructionAlign :=
    Plan.valid_step h.valid _ (by simp)
  have hclear := (t.step (.stop who)).step_clear addr.toNat
  refine h.stopped rfl hwho ?_ (Plan.valid_step hvalid _ (by simp)) ?_ ?_ ?_
    (fun a hnot p ha => ?_) (fun ref => ?_) fun ref a => ?_
  · rw [htracer]
    exact refines_clear hstop _ (clear_memory_x86 hx86 hvalid hstop)
  · rw [hclear]
    rfl
  · rw [hclear]
    rfl
  · rw [hclear]
    rfl
  · have hne : a ≠ addr.toNat := by
      rintro rfl
      simp [reached_snoc, reaches] at hnot
    rw [hclear]
    dsimp only
    split
    · rw [Function.update_apply]
      split
      next hp => exact Finset.mem_erase.mpr ⟨hne, hp ▸ ha⟩
      next => exact ha
    · exact ha
  · rw [hcalls, addressesOf_hit]
  · have heq : addr.toNat = a.toNat ↔ a = addr.setWidth 64 := by
      rw [← BitVec.toNat_inj, toNat_setWidth, eq_comm]
    rw [hcalls, Reporter.mem_hitAddressesOf_hit, h.hits, reached_snoc, reaches, Bool.or_eq_true,
      decide_eq_true_iff, heq]
    constructor
    · rintro (⟨ha, hr⟩ | ⟨rfl, ha⟩)
      · exact ⟨ha, Or.inl hr⟩
      · exact ⟨ha, Or.inr rfl⟩
    · rintro ⟨ha, hr | rfl⟩
      · exact Or.inl ⟨ha, hr⟩
      · exact Or.inr ⟨rfl, ha⟩

/-- Another stop, apart from the registered addresses, is no hit of a line. -/
theorem Follows.other (h : Follows text cfg hs s t) (hx86 : arch = .i386 ∨ arch = .x86_64)
    {who : Nat} {pc : BitVec (8 * arch.wordSize)} {status : WaitStatus} (hwho : who ∈ s.running)
    (hapart : s.Apart (.stop (.other who pc status))) :
    Follows text cfg (hs ++ [.stop (.other who pc status)])
      (s.step cfg.runFilters daemonize (.stop (.other who pc status))) (t.step (.stop who)) := by
  have hreached := @reached_same _ hs (.stop (.other who pc status)) fun _ => rfl
  have hstop := refines_stop h.refines who
  have hvalid : (t.step (.stop who)).Valid arch.instructionAlign :=
    Plan.valid_step h.valid _ (by simp)
  rcases @waitEvent_stop _ s who pc hx86 status with htype | ⟨hevent, sig, ptraceEvent, rfl, htaken⟩
  · have hcalls : (s.onStop daemonize (.other who pc status)).calls = s.calls := by
      rw [onStop_calls, if_neg htype, List.append_nil]
    refine h.stopped rfl hwho ?_ hvalid rfl rfl rfl (fun a _ p ha => ha) (fun ref => ?_)
      fun ref a => ?_
    · rw [onStop_tracer rfl, if_neg htype]
      exact hstop
    · rw [hcalls]
    · rw [hcalls, hreached, h.hits]
  · have hunreg : (pc - 1).toNat ∉ t.registered := fun hreg =>
      hapart htaken ((h.refines.registered _).mpr hreg)
    have hcalls : (s.onStop daemonize (.other who pc (.stopped sig ptraceEvent))).calls =
        s.calls ++ [.hit ((pc - 1).setWidth 64) 1] := by
      rw [onStop_calls, hevent]
      rfl
    refine h.stopped rfl hwho ?_ hvalid rfl rfl rfl (fun a _ p ha => ha) (fun ref => ?_)
      fun ref a => ?_
    · have hsame : (t.step (.stop who)).step (.clear (pc - 1).toNat) = t.step (.stop who) := by
        rw [Plan.step]
        exact if_neg hunreg
      rw [onStop_tracer rfl, hevent, if_pos rfl, toNat_setWidth, ← hsame]
      exact refines_clear hstop _ (clear_memory_x86 hx86 hvalid hstop)
    · rw [hcalls, addressesOf_hit]
    · rw [hcalls, hreached, Reporter.mem_hitAddressesOf_hit, h.hits, or_iff_left]
      rintro ⟨-, ha⟩
      have hreg := h.registered ref _ ha
      rw [toNat_setWidth] at hreg
      exact hunreg hreg

theorem run_snoc (hs : List (Happening arch)) (h : Happening arch) (runFilters : Text → Bool)
    (daemonize : Bool) (text : Memory) (child : Nat) :
    run runFilters daemonize text child (hs ++ [h]) =
      (run runFilters daemonize text child hs).step runFilters daemonize h := by
  rw [run, List.foldl_append]
  rfl

/-- Every happening of the run is as it should be. -/
def RegularRun (runFilters : Text → Bool) (daemonize : Bool) (text : Memory) (child : Nat)
    (hs : List (Happening arch)) : Prop :=
  AllSteps (fun before h => Regular runFilters before (run runFilters daemonize text child before) h)
    hs

theorem follows_run (hx86 : arch = .i386 ∨ arch = .x86_64) {child : Nat}
    (hregular : RegularRun cfg.runFilters daemonize text child hs) :
    ∃ t, Follows text cfg hs (run cfg.runFilters daemonize text child hs) t := by
  induction hs using List.reverseRecOn with
  | nil => exact ⟨_, follows_start text cfg child⟩
  | append_singleton hs h ih =>
    obtain ⟨hbefore, hposs, hearly, hapart⟩ := allSteps_snoc.mp hregular
    obtain ⟨t, ht⟩ := ih hbefore
    rw [run_snoc]
    cases h with
    | line file lineNr addr =>
      cases hfilter : cfg.runFilters file with
      | false => exact ⟨t, ht.filtered hfilter lineNr addr⟩
      | true => exact ⟨_, ht.line hx86 hfilter lineNr hearly⟩
    | cont contFails => exact ⟨_, ht.cont hx86 contFails⟩
    | execute who addr => exact ⟨_, ht.execute hx86 hposs⟩
    | fork parent child => exact ⟨_, ht.fork child hposs⟩
    | stop stop =>
      cases stop with
      | trap who addr => exact ⟨_, ht.trap hx86 hposs.1⟩
      | other who pc status => exact ⟨_, ht.other hx86 hposs hapart⟩
      | failed =>
        have hreached := @reached_same _ hs (.stop .failed) fun _ => rfl
        have hcalls : ((run cfg.runFilters daemonize text child hs).onStop daemonize .failed).calls =
            (run cfg.runFilters daemonize text child hs).calls := List.append_nil _
        refine ⟨t, ht.refines, ht.valid, ht.pending, fun a ha hnot => ?_, fun a ha hnot => ?_, ?_,
          fun ref a => ?_⟩
        · exact ht.running a ha ((hreached a).symm.trans hnot)
        · exact ht.active a ha ((hreached a).symm.trans hnot)
        · show ∀ ref, ∀ a ∈ Reporter.addressesOf cfg ref (onStop daemonize _ .failed).calls, _
          rw [hcalls]
          exact ht.registered
        · show a ∈ Reporter.hitAddressesOf cfg ref (onStop daemonize _ .failed).calls ↔
            a ∈ Reporter.addressesOf cfg ref (onStop daemonize _ .failed).calls ∧ _
          rw [hcalls, hreached]
          exact ht.hits ref a

theorem linesOf_snoc (hs : List (Happening arch)) (h : Happening arch) :
    linesOf (hs ++ [h]) = linesOf hs ++ linesOf [h] := List.filterMap_append

/-- The reporter gets the lines of the parser, and hits of the collector between them. -/
theorem calls_run (runFilters : Text → Bool) (child : Nat) :
    (run runFilters daemonize text child hs).calls.filter Reporter.isLine = linesOf hs ∧
      Reporter.Event.file ∉ (run runFilters daemonize text child hs).calls := by
  induction hs using List.reverseRecOn with
  | nil => exact ⟨rfl, by simp [run, start]⟩
  | append_singleton hs h ih =>
    obtain ⟨hlines, hfile⟩ := ih
    rw [run_snoc, linesOf_snoc, ← hlines]
    cases h with
    | line file lineNr addr =>
      refine ⟨List.filter_append _ _, ?_⟩
      show Reporter.Event.file ∉ _ ++ [.line file lineNr (addr.setWidth 64)]
      simpa using hfile
    | stop stop =>
      show (onStop daemonize _ stop).calls.filter Reporter.isLine = _ ∧
        Reporter.Event.file ∉ (onStop daemonize _ stop).calls
      rw [onStop_calls]
      split
      · exact ⟨List.filter_append _ _, by simpa using hfile⟩
      · rw [List.append_nil]
        exact ⟨(List.append_nil _).symm, hfile⟩
    | _ => exact ⟨(List.append_nil _).symm, hfile⟩

end Steps

/-- The hits of a line are those of its addresses at which some process has read an instruction,
whatever the processes do and in whichever order they stop. -/
theorem hits_eq_reached (hx86 : arch = .i386 ∨ arch = .x86_64) (cfg : ReporterSetup)
    (hmax : cfg.maxPossibleHits ≠ .unlimited) (daemonize : Bool) (text : Memory) (child : Nat)
    (hs : List (Happening arch)) (hregular : RegularRun cfg.runFilters daemonize text child hs)
    (hids : Reporter.SharersDistinct cfg (linesOf hs))
    (hadmits : ∀ ev ∈ linesOf hs, Reporter.Admits cfg ev) :
    ∃ s, Reporter.run cfg (run cfg.runFilters daemonize text child hs).calls = some s ∧
      ∀ ref, (s.getLineExecutionCount cfg ref.file ref.lineNr).hits =
        if cfg.excluded ref then 0
        else BitVec.ofNat 32 ((Reporter.addressesOf cfg ref (linesOf hs)).filter
          fun a => reached hs a.toNat).length := by
  obtain ⟨t, ht⟩ := follows_run hx86 hregular
  obtain ⟨hlines, hfile⟩ := @calls_run _ text daemonize hs cfg.runFilters child
  have hmem : ∀ f n a, .line f n a ∈ (run cfg.runFilters daemonize text child hs).calls →
      .line f n a ∈ linesOf hs := by
    intro f n a hev
    rw [← hlines]
    exact List.mem_filter.mpr ⟨hev, rfl⟩
  have hshot : cfg.singleShot = true := decide_eq_true hmax
  obtain ⟨s, hrun, hs'⟩ := Reporter.compiledState_run hshot
    (fun f n g m a hf hg => hids f n g m a (hmem f n a hf) (hmem g m a hg)) hfile
    (fun ev hev => by
      cases ev with
      | line f n a => exact hadmits _ (hmem f n a hev)
      | _ => trivial)
  refine ⟨s, hrun, fun ref => ?_⟩
  have hperm : (Reporter.hitAddressesOf cfg ref (run cfg.runFilters daemonize text child hs).calls).Perm
      ((Reporter.addressesOf cfg ref (linesOf hs)).filter fun a => reached hs a.toNat) := by
    refine (List.perm_ext_iff_of_nodup Reporter.nodup_hitAddressesOf
      (Reporter.nodup_addressesOf.filter _)).mpr fun a => ?_
    rw [List.mem_filter, ← hlines, Reporter.addressesOf_filter]
    exact ht.hits ref a
  rw [hs'.hits, hperm.length_eq]

/-- A line that is executed by a process and by its child, which starts without the trap. -/
def forkedProcess : List (Happening .x86_64) :=
  [.line (ascii "main.c") 3 0x1000, .cont false, .stop (.trap 7 0x1000), .cont false,
    .execute 7 0x1000, .fork 7 8, .execute 8 0x1000, .stop (.other 7 0x1001 (.exited 0))]

theorem regularRun_forkedProcess :
    RegularRun (fun _ => true) false (fun _ => 0x90) 7 forkedProcess := by
  have hsteps : forkedProcess = [] ++ [.line (ascii "main.c") 3 0x1000] ++ [.cont false] ++
      [.stop (.trap 7 0x1000)] ++ [.cont false] ++ [.execute 7 0x1000] ++ [.fork 7 8] ++
      [.execute 8 0x1000] ++ [.stop (.other 7 0x1001 (.exited 0))] := rfl
  rw [RegularRun, hsteps]
  simp only [allSteps_snoc]
  refine ⟨⟨⟨⟨⟨⟨⟨⟨allSteps_nil, ?_⟩, ?_⟩, ?_⟩, ?_⟩, ?_⟩, ?_⟩, ?_⟩, ?_⟩
  · exact ⟨trivial, fun _ => by decide, trivial⟩
  · exact ⟨trivial, trivial, trivial⟩
  · exact ⟨⟨by decide, by decide⟩, trivial, trivial⟩
  · exact ⟨trivial, trivial, trivial⟩
  · exact ⟨⟨by decide, by decide⟩, trivial, trivial⟩
  · exact ⟨show 7 ∈ _ by decide, trivial, trivial⟩
  · exact ⟨⟨by decide, by decide⟩, trivial, trivial⟩
  · exact ⟨show 7 ∈ _ by decide, trivial, trivial⟩

/-- The line is counted once. -/
theorem hits_eq_reached_forkedProcess :
    ∃ s, Reporter.run Reporter.compiledSetup
        (run (fun _ => true) false (fun _ => 0x90) 7 forkedProcess).calls = some s ∧
      (s.getLineExecutionCount Reporter.compiledSetup (ascii "main.c") 3).hits = 1 := by
  have hlines : linesOf forkedProcess = [.line (ascii "main.c") 3 0x1000] := rfl
  have hline : ∀ f n a, Reporter.Event.line f n a ∈ linesOf forkedProcess →
      f = ascii "main.c" ∧ n = 3 := by
    intro f n a hmem
    rw [hlines, List.mem_singleton, Reporter.Event.line.injEq] at hmem
    exact ⟨hmem.1, hmem.2.1⟩
  have hadmits : ∀ ev ∈ linesOf forkedProcess, Reporter.Admits Reporter.compiledSetup ev := by
    rw [hlines, List.forall_mem_singleton]
    exact fun _ => ⟨show (3 : U32).toNat + 1 < 2 ^ 32 by decide, show 0 + 1 < 2 ^ 32 by decide⟩
  obtain ⟨s, hrun, hhits⟩ := hits_eq_reached (Or.inr rfl) Reporter.compiledSetup (by decide) false
    (fun _ => 0x90) 7 forkedProcess regularRun_forkedProcess
    (fun f n g m a hf hg _ => (hline f n a hf).1.trans (hline g m a hg).1.symm) hadmits
  exact ⟨s, hrun, (hhits ⟨ascii "main.c", 3⟩).trans (by decide)⟩

end Tracing

end Kcov.Ptrace
