import Kcov.Collector
import Kcov.Engines.Python
import Kcov.Engines.PythonLines
import Kcov.Engines.Scripts
import Mathlib.Tactic.IntervalCases

/-! A whole run of a python script: the helper that writes, the engine that polls, the collector, and
the counts of the reporter, in any interleaving. -/

namespace Kcov.Python

open Bytes Runs Reporter Bash

/-- Which lines of a file are code; the parser counts lines in an `unsigned int`. -/
def codeLines (lines : List Text) : List U32 := (parseLines lines).found.map (BitVec.ofNat 32)

/-- The engine with the lines that it knows, the collector, and the calls of the reporter. -/
structure Running where
  engine : State
  base : ScriptEngineBase
  collector : Collector
  calls : List Reporter.Event

namespace Running

variable (host : Host) (daemonize : Bool)

/-- The line of the datum that a read delivers. -/
def datumLine (s : State) : Event → Option LineRef
  | .read ahead =>
    if s.pc ≠ .readable then none
    else
      match readCoverageDatum s.stream ahead with
      | .ok (some (some p, _)) => p.filename.map fun filename => ⟨filename, p.line⟩
      | _ => none
  | _ => none

def onEvent (s : Running) (ev : EngineEvent U64) : Running :=
  let (collector, calls) := s.collector.onEvent daemonize ev
  { s with collector, calls := s.calls ++ calls }

/-- A line that is not in a file that has been reported makes the engine parse its file first. -/
def step (s : Running) (ev : Event) : Running :=
  let base :=
    match datumLine s.engine ev with
    | some ref => s.base.reportFile host codeLines ref.file
    | none => s.base
  let engine := s.engine.step (fun file line => base.address host ⟨file, line⟩) ev
  let calls := s.calls ++ Scripts.calls s.base base
  (engine.events.drop s.engine.events.length).foldl (onEvent daemonize) { s with engine, base, calls }

/-- The engine has started the helper. -/
def start : Running :=
  { engine := State.start
    base := .empty
    collector := Collector.create
    calls := [] }

def run (evs : List Event) : Running := evs.foldl (step host daemonize) start

theorem run_snoc (evs : List Event) (ev : Event) :
    run host daemonize (evs ++ [ev]) = (run host daemonize evs).step host daemonize ev := by
  rw [run, List.foldl_append]
  rfl

end Running

/-! ### The engine apart from the addresses -/

namespace State

/-- Two engines that differ in the events that they have reported. -/
structure SameBut (s t : State) : Prop where
  stream : s.stream = t.stream
  exited : s.exited = t.exited
  pc : s.pc = t.pc
  written : s.written = t.written

variable {address address' : List Byte → BitVec 32 → BitVec 64} {s t : State}

/-- The addresses make no difference to what the engine does next. -/
theorem SameBut.step (h : SameBut s t) (ev : Event) :
    SameBut (s.step address ev) (t.step address' ev) := by
  obtain ⟨stream, exited, pc, _, _, written⟩ := s
  obtain ⟨stream', exited', pc', _, _, written'⟩ := t
  obtain ⟨rfl, rfl, rfl, rfl⟩ : stream = stream' ∧ exited = exited' ∧ pc = pc' ∧ written = written' :=
    ⟨h.stream, h.exited, h.pc, h.written⟩
  cases ev with
  | write d =>
    simp only [State.step]
    split <;> exact ⟨rfl, rfl, rfl, rfl⟩
  | close => exact ⟨rfl, rfl, rfl, rfl⟩
  | exit status =>
    simp only [State.step]
    split <;> exact ⟨rfl, rfl, rfl, rfl⟩
  | poll =>
    simp only [State.step]
    split
    · exact ⟨rfl, rfl, rfl, rfl⟩
    · split
      · exact ⟨rfl, rfl, rfl, rfl⟩
      · split <;> exact ⟨rfl, rfl, rfl, rfl⟩
  | read ahead =>
    simp only [State.step]
    split
    · exact ⟨rfl, rfl, rfl, rfl⟩
    · split
      · exact ⟨rfl, rfl, rfl, rfl⟩
      · exact ⟨rfl, rfl, rfl, rfl⟩
      · exact ⟨rfl, rfl, rfl, rfl⟩
      · split <;> exact ⟨rfl, rfl, rfl, rfl⟩
  | waitpid =>
    simp only [State.step]
    split
    · exact ⟨rfl, rfl, rfl, rfl⟩
    · split <;> exact ⟨rfl, rfl, rfl, rfl⟩

/-- A step that delivers no datum reports no breakpoint. -/
theorem step_quiet (address : List Byte → BitVec 32 → BitVec 64) (s : State) (ev : Event)
    (h : Running.datumLine s ev = none) : ∃ new, (s.step address ev).events = s.events ++ new ∧
      (∀ e ∈ new, e.type ≠ .breakpoint) ∧
      ((s.step address ev).pc = .finished → s.pc ≠ .finished → ∀ exitStatus,
        s.exited = some (.exited exitStatus) → new = [⟨.exitFirstProcess, exitStatus, 0⟩]) := by
  have herror : ∀ e ∈ [(⟨.error, -1, 0⟩ : EngineEvent (BitVec 64))], e.type ≠ .breakpoint := by simp
  have hnone : ∀ e ∈ ([] : List (EngineEvent (BitVec 64))), e.type ≠ .breakpoint := by simp
  cases ev with
  | write d =>
    refine ⟨[], ?_, hnone, ?_⟩
    · simp only [State.step, List.append_nil]
      split <;> rfl
    · simp only [State.step]
      split <;> exact fun hnew hold => absurd hnew hold
  | close => exact ⟨[], (List.append_nil _).symm, hnone, fun hnew hold => absurd hnew hold⟩
  | exit status =>
    refine ⟨[], ?_, hnone, ?_⟩
    · simp only [State.step, List.append_nil]
      split <;> rfl
    · simp only [State.step]
      split <;> exact fun hnew hold => absurd hnew hold
  | poll =>
    simp only [State.step]
    split
    · exact ⟨[], (List.append_nil _).symm, hnone, fun hnew hold => absurd hnew hold⟩
    · split
      · exact ⟨_, rfl, herror, fun hpc => by cases hpc⟩
      · split
        · exact ⟨[], (List.append_nil _).symm, hnone, fun hpc => by cases hpc⟩
        · exact ⟨_, rfl, herror, fun hpc => by cases hpc⟩
  | read ahead =>
    rw [Running.datumLine] at h
    simp only [State.step]
    split
    · exact ⟨[], (List.append_nil _).symm, hnone, fun hnew hold => absurd hnew hold⟩
    next hpc =>
      rw [if_neg hpc] at h
      split
      · exact ⟨[], (List.append_nil _).symm, hnone, fun hpc => by cases hpc⟩
      · exact ⟨[], (List.append_nil _).symm, hnone, fun hnew hold => absurd hnew hold⟩
      · exact ⟨_, rfl, herror, fun hpc => by cases hpc⟩
      next p f hread =>
        rw [hread] at h
        simp only [Option.map_eq_none_iff] at h
        rw [h]
        exact ⟨[], (List.append_nil _).symm, hnone, fun hpc => by cases hpc⟩
  | waitpid =>
    simp only [State.step]
    split
    · exact ⟨[], (List.append_nil _).symm, hnone, fun hnew hold => absurd hnew hold⟩
    · split
      · exact ⟨[], (List.append_nil _).symm, hnone, fun hpc => by cases hpc⟩
      next exitStatus hexited =>
        refine ⟨_, rfl, by simp, fun _ _ exitStatus' h' => ?_⟩
        rw [hexited, Option.some.injEq, WaitStatus.exited.injEq] at h'
        rw [h']
      next status hother hexited =>
        refine ⟨_, rfl, herror, fun _ _ exitStatus h' => ?_⟩
        rw [hexited, Option.some.injEq] at h'
        exact absurd h' (hother exitStatus)

/-- When `continueExecution` has returned false, nothing happens any more. -/
theorem step_finished (address : List Byte → BitVec 32 → BitVec 64) {s : State} (ev : Event)
    (hpc : s.pc = .finished) (hexited : s.exited.isSome) :
    (s.step address ev).events = s.events ∧ (s.step address ev).exited = s.exited := by
  have hsome : s.exited ≠ none := Option.isSome_iff_ne_none.mp hexited
  cases ev with
  | write d =>
    simp only [State.step]
    split <;> exact ⟨rfl, rfl⟩
  | close => exact ⟨rfl, rfl⟩
  | exit status => simp [State.step, hsome]
  | poll => simp [State.step, hpc]
  | read ahead => simp [State.step, hpc]
  | waitpid => simp [State.step, hpc]

/-- The helper has exited once it has. -/
theorem step_exited (address : List Byte → BitVec 32 → BitVec 64) {s : State} (ev : Event)
    (hev : ∀ status, ev ≠ .exit status) : (s.step address ev).exited = s.exited := by
  cases ev with
  | write d =>
    simp only [State.step]
    split <;> rfl
  | close => rfl
  | exit status => exact absurd rfl (hev status)
  | poll =>
    simp only [State.step]
    split
    · rfl
    · split
      · rfl
      · split <;> rfl
  | read ahead =>
    simp only [State.step]
    split
    · rfl
    · split
      · rfl
      · rfl
      · rfl
      · split <;> rfl
  | waitpid =>
    simp only [State.step]
    split
    · rfl
    · split <;> rfl

end State

/-! ### What is read -/

namespace Running

variable {host : Host} {daemonize : Bool} {evs : List Event} {s : Running}

/-- Events that are no breakpoints. -/
theorem foldl_onEvent_quiet {new : List (EngineEvent U64)} (hnew : ∀ e ∈ new, e.type ≠ .breakpoint)
    (s : Running) : new.foldl (onEvent daemonize) s =
      { s with collector := new.foldl (fun c e => (c.onEvent daemonize e).1) s.collector } := by
  induction new generalizing s with
  | nil => rfl
  | cons e new ih =>
    obtain ⟨he, hnew⟩ := List.forall_mem_cons.mp hnew
    have hone : s.onEvent daemonize e =
        { s with collector := (s.collector.onEvent daemonize e).1 } := by
      have hcalls := Collector.onEvent_calls daemonize s.collector e
      rw [if_neg he] at hcalls
      simp only [onEvent, hcalls, List.append_nil]
    rw [List.foldl_cons, List.foldl_cons, hone, ih hnew]

/-- The line of a datum. -/
def lineOf (d : Datum) : LineRef := ⟨cString d.filename, d.line⟩

/-- The data that have been read are the first ones that were written, and the listeners have been
told of their lines. -/
structure Conveys (host : Host) (evs : List Event) (s : Running) (read : List Datum) : Prop where
  same : State.SameBut s.engine (State.run (fun _ _ => 0) evs)
  waiting : ∃ waiting : List Datum, s.engine.stream.pending = waiting.flatMap Datum.encode ∧
    (∀ d ∈ waiting, d.size < bufSize) ∧ read ++ waiting = s.engine.written
  told : (⟨s.base, s.calls⟩ : Scripts.Told) =
    Scripts.Told.run host codeLines [] (read.map lineOf)
  exitCode : s.engine.pc = .finished → ∀ exitStatus,
    s.engine.exited = some (.exited exitStatus) → s.collector.exitCode = exitStatus

theorem conveys_start (host : Host) : Conveys host [] start [] :=
  ⟨⟨rfl, rfl, rfl, rfl⟩, ⟨[], rfl, by simp, rfl⟩, rfl, fun hpc => by cases hpc⟩

/-- Steps at which nothing is read. -/
theorem step_none {ev : Event} (h : datumLine s.engine ev = none) :
    (s.step host daemonize ev).base = s.base ∧ (s.step host daemonize ev).calls = s.calls ∧
      (s.step host daemonize ev).engine =
        s.engine.step (fun file line => s.base.address host ⟨file, line⟩) ev ∧
      ((s.step host daemonize ev).engine.pc = .finished → s.engine.pc ≠ .finished →
        ∀ exitStatus, s.engine.exited = some (.exited exitStatus) →
          (s.step host daemonize ev).collector.exitCode = exitStatus) ∧
      ((s.step host daemonize ev).engine.events = s.engine.events →
        (s.step host daemonize ev).collector = s.collector) := by
  obtain ⟨new, hevents, hnew, hlast⟩ :=
    State.step_quiet (fun file line => s.base.address host ⟨file, line⟩) s.engine ev h
  have hcalls : Scripts.calls s.base s.base = [] := by simp [Scripts.calls]
  have hstep : s.step host daemonize ev =
      { s with
        engine := s.engine.step (fun file line => s.base.address host ⟨file, line⟩) ev
        collector := new.foldl (fun c e => (c.onEvent daemonize e).1) s.collector } := by
    simp only [step, h, hevents, List.drop_left, hcalls, List.append_nil,
      foldl_onEvent_quiet hnew]
  rw [hstep]
  refine ⟨rfl, rfl, rfl, fun hpc hold exitStatus hexited => ?_, fun hsame => ?_⟩
  · rw [hlast hpc hold exitStatus hexited]
    rfl
  · have hnil : new = [] := List.append_right_eq_self.mp (hevents.symm.trans hsame)
    rw [hnil]
    rfl

/-- A step at which nothing is read, as far as the exit code goes. -/
theorem Conveys.exitCode_none {read : List Datum} (h : Conveys host evs s read)
    (hflow : (State.run (fun _ _ => 0) evs).Flowing (fun _ _ => 0)) {ev : Event}
    (hdatum : datumLine s.engine ev = none)
    (hpc : (s.step host daemonize ev).engine.pc = .finished) (exitStatus : Nat)
    (hexited : (s.step host daemonize ev).engine.exited = some (.exited exitStatus)) :
    (s.step host daemonize ev).collector.exitCode = exitStatus := by
  obtain ⟨-, -, hengine, hlast, hsame⟩ := @step_none host daemonize s ev hdatum
  by_cases hold : s.engine.pc = .finished
  · have hsome : s.engine.exited.isSome := by
      rw [h.same.exited]
      exact hflow.finished (h.same.pc ▸ hold)
    obtain ⟨hevents, hexit⟩ := State.step_finished (fun file line => s.base.address host ⟨file, line⟩)
      ev hold hsome
    rw [hsame (by rw [hengine, hevents])]
    exact h.exitCode hold exitStatus (by rw [← hexit, ← hengine, hexited])
  · refine hlast hpc hold exitStatus ?_
    by_cases hev : ∃ status, ev = .exit status
    · obtain ⟨status, rfl⟩ := hev
      rw [hengine, State.step] at hpc
      split at hpc <;> exact absurd hpc hold
    · rw [← hexited, hengine, State.step_exited _ ev fun status heq => hev ⟨status, heq⟩]

theorem Conveys.step {read : List Datum} (h : Conveys host evs s read)
    (hflow : (State.run (fun _ _ => 0) evs).Flowing (fun _ _ => 0)) {ev : Event}
    (hsmall : ∀ d, ev = .write d → d.size < bufSize) :
    ∃ read', Conveys host (evs ++ [ev]) (s.step host daemonize ev) read' := by
  obtain ⟨waiting, hpending, hwaiting, hwritten⟩ := h.waiting
  -- a step that delivers nothing, behind which `waiting'` are waiting
  have hquiet : datumLine s.engine ev = none → ∀ waiting' : List Datum,
      (s.engine.step (fun file line => s.base.address host ⟨file, line⟩) ev).stream.pending =
        waiting'.flatMap Datum.encode → (∀ d ∈ waiting', d.size < bufSize) →
      read ++ waiting' =
        (s.engine.step (fun file line => s.base.address host ⟨file, line⟩) ev).written →
      ∃ read', Conveys host (evs ++ [ev]) (s.step host daemonize ev) read' := by
    intro hdatum waiting' hpending' hwaiting' hwritten'
    obtain ⟨hbase, hcalls, hengine, -, -⟩ := @step_none host daemonize s ev hdatum
    refine ⟨read, ?_, ⟨waiting', ?_, hwaiting', ?_⟩, ?_, fun hpc exitStatus hexited => ?_⟩
    · rw [hengine, State.run_append]
      exact h.same.step ev
    · rw [hengine, hpending']
    · rw [hengine, hwritten']
    · rw [hbase, hcalls]
      exact h.told
    · exact h.exitCode_none hflow hdatum hpc exitStatus hexited
  cases ev with
  | write d =>
    by_cases hclosed : s.engine.stream.closed = true
    · have hsame : s.engine.step (fun file line => s.base.address host ⟨file, line⟩) (.write d) =
          s.engine := by
        rw [State.step, if_pos hclosed]
      exact hquiet rfl waiting (by rw [hsame, hpending]) hwaiting (by rw [hsame, hwritten])
    · refine hquiet rfl (waiting ++ [d]) ?_ ?_ ?_
      · simp only [State.step, hclosed, Bool.false_eq_true, if_false]
        unfold Stream.pending at hpending ⊢
        rw [← List.append_assoc, hpending]
        simp
      · intro d' hd'
        rcases List.mem_append.mp hd' with hmem | hmem
        · exact hwaiting d' hmem
        · rw [List.mem_singleton.mp hmem]
          exact hsmall d rfl
      · simp only [State.step, hclosed, Bool.false_eq_true, if_false, ← hwritten, List.append_assoc]
  | close => exact hquiet rfl waiting hpending hwaiting hwritten
  | exit status =>
    refine hquiet rfl waiting ?_ hwaiting ?_
    · simp only [State.step]
      split <;> exact hpending
    · simp only [State.step]
      split <;> exact hwritten
  | poll =>
    refine hquiet rfl waiting ?_ hwaiting ?_
    · simp only [State.step]
      split
      · exact hpending
      · split
        · exact hpending
        · split <;> exact hpending
    · simp only [State.step]
      split
      · exact hwritten
      · split
        · exact hwritten
        · split <;> exact hwritten
  | waitpid =>
    refine hquiet rfl waiting ?_ hwaiting ?_
    · simp only [State.step]
      split
      · exact hpending
      · split <;> exact hpending
    · simp only [State.step]
      split
      · exact hwritten
      · split <;> exact hwritten
  | read ahead =>
    by_cases hpc : s.engine.pc = .readable
    · cases waiting with
      | nil =>
        -- the end of the file
        have hclosed : s.engine.stream.closed = true := by
          have hready := hflow.readable (h.same.pc ▸ hpc)
          rw [← h.same.stream] at hready
          exact hready.resolve_left fun hne => hne (List.append_eq_nil_iff.mp hpending).2
        obtain ⟨f, hread, hf, -, -⟩ := readCoverageDatum_end hpending hclosed ahead
        have hstep : s.engine.step (fun file line => s.base.address host ⟨file, line⟩) (.read ahead) =
            { s.engine with stream := f }.fail := by
          simp only [State.step, hpc, ne_eq, not_true_eq_false, if_false, hread]
        have hdatum : datumLine s.engine (.read ahead) = none := by
          simp only [datumLine, hpc, ne_eq, not_true_eq_false, if_false, hread]
        exact hquiet hdatum [] (by rw [hstep]; exact hf) (by simp) (by rw [hstep]; exact hwritten)
      | cons d waiting =>
        obtain ⟨f, hread, hf, -, -⟩ := readCoverageDatum_encode hpending
          (hwaiting d List.mem_cons_self) ahead
        have hdatum : datumLine s.engine (.read ahead) = some (lineOf d) := by
          simp only [datumLine, hpc, ne_eq, not_true_eq_false, if_false, hread, filename_encode,
            Option.map_some, lineOf]
        have hstep : ∀ address : List Byte → BitVec 32 → BitVec 64,
            s.engine.step address (.read ahead) =
              { s.engine with stream := f }.report address (cString d.filename) d.line := by
          intro address
          simp only [State.step, hpc, ne_eq, not_true_eq_false, if_false, hread, filename_encode]
        let told := (⟨s.base, s.calls⟩ : Scripts.Told).report host codeLines (lineOf d)
        have hafter : s.step host daemonize (.read ahead) =
            { engine := s.engine.step (fun file line => told.engine.address host ⟨file, line⟩)
                (.read ahead)
              base := told.engine
              collector := s.collector
              calls := told.calls } := by
          simp only [Running.step, hdatum, hstep, State.report, List.drop_left, List.foldl_cons,
            List.foldl_nil, onEvent, Collector.onEvent]
          rfl
        rw [hafter]
        refine ⟨read ++ [d], ⟨?_, ⟨waiting, ?_, fun d' hd' => ?_, ?_⟩, ?_, ?_⟩⟩
        · rw [State.run_append]
          exact h.same.step (.read ahead)
        · rw [hstep]
          exact hf
        · exact hwaiting d' (List.mem_cons_of_mem _ hd')
        · rw [hstep, List.append_assoc]
          exact hwritten
        · rw [List.map_append, List.map_singleton, Scripts.Told.run_snoc, ← h.told]
        · rw [hstep]
          exact fun hpc => by cases hpc
    · have hsame : s.engine.step (fun file line => s.base.address host ⟨file, line⟩) (.read ahead) =
          s.engine := by
        rw [State.step, if_pos hpc]
      have hdatum : datumLine s.engine (.read ahead) = none := by
        rw [datumLine, if_pos hpc]
      exact hquiet hdatum waiting (by rw [hsame, hpending]) hwaiting (by rw [hsame, hwritten])

theorem conveys_run (host : Host) (daemonize : Bool) (evs : List Event)
    (hsmall : ∀ d, .write d ∈ evs → d.size < bufSize) :
    ∃ read, Conveys host evs (run host daemonize evs) read := by
  induction evs using List.reverseRecOn with
  | nil => exact ⟨[], conveys_start host⟩
  | append_singleton evs ev ih =>
    have hbefore : ∀ d, .write d ∈ evs → d.size < bufSize := fun d hd =>
      hsmall d (List.mem_append_left _ hd)
    obtain ⟨read, h⟩ := ih hbefore
    rw [run_snoc]
    exact h.step (State.flowing_run evs hbefore) fun d hd => hsmall d (by simp [hd])

/-- Nothing is left to be read at the end of a run in which nothing was when the helper exited. -/
theorem pending_run (host : Host) (daemonize : Bool) {evs : List Event}
    (hsmall : ∀ d, .write d ∈ evs → d.size < bufSize)
    (hfinished : (run host daemonize evs).engine.pc = .finished)
    (hdrained : AllSteps (fun before ev => (run host daemonize before).engine.ExitsDrained ev) evs) :
    (run host daemonize evs).engine.stream.pending = [] := by
  obtain ⟨read, h⟩ := conveys_run host daemonize evs hsmall
  have hall : AllSteps (fun before ev => (State.run (fun _ _ => 0) before).ExitsDrained ev) evs := by
    intro before ev hpre
    have hexits := hdrained before ev hpre
    obtain ⟨_, hbefore⟩ := conveys_run host daemonize before fun d hd =>
      hsmall d (hpre.subset (List.mem_append_left _ hd))
    cases ev with
    | exit status =>
      rw [State.ExitsDrained, hbefore.same.stream, hbefore.same.pc] at hexits
      exact hexits
    | _ => trivial
  rcases @State.drained_or_lost (fun _ _ => 0) evs hsmall with ⟨-, hd⟩ | ⟨hnot, -⟩
  · have hpc : (State.run (fun _ _ => 0) evs).pc = .finished := h.same.pc ▸ hfinished
    rw [h.same.stream]
    exact hd ((State.flowing_run evs hsmall).finished hpc) (Or.inr hpc)
  · exact absurd hall hnot

end Running

/-- Every executed line is counted, in any interleaving of the helper and the engine in which the
helper does not exit between a failed poll and the next `waitpid` while something is left to be read:
kcov returns the exit status of the helper, and each included line of code has as many hits as data
were written about it. -/
theorem data_counted (cfg : ReporterSetup) (hscript : Scripts.IsScript cfg)
    (hpaths : Scripts.RealPaths cfg.host) (daemonize : Bool) (evs : List Event)
    (hsmall : ∀ d, .write d ∈ evs → d.size < bufSize)
    (hfinished : (Running.run cfg.host daemonize evs).engine.pc = .finished)
    (hdrained : AllSteps (fun before ev =>
      (Running.run cfg.host daemonize before).engine.ExitsDrained ev) evs)
    (hdiffer : Scripts.HashesDiffer cfg.host
      ((Running.run cfg.host daemonize evs).engine.written.map fun d => cString d.filename))
    (hopens : ∀ d ∈ (Running.run cfg.host daemonize evs).engine.written,
      Opens cfg (cfg.host.realPath (cString d.filename))) :
    ∃ s, Reporter.run cfg (Running.run cfg.host daemonize evs).calls = some s ∧
      (∀ exitStatus, (Running.run cfg.host daemonize evs).engine.exited = some (.exited exitStatus) →
        (Running.run cfg.host daemonize evs).collector.exitCode = exitStatus) ∧
      ∀ ref, (s.getLineExecutionCount cfg ref.file ref.lineNr).hits =
        if !cfg.excluded ref && cfg.runFilters ref.file &&
            (codeLines (cfg.host.getLines ref.file)).contains ref.lineNr then
          BitVec.ofNat 32 ((Running.run cfg.host daemonize evs).engine.written.countP fun d =>
            cfg.host.realPath (cString d.filename) = ref.file && d.line = ref.lineNr)
        else 0 := by
  obtain ⟨read, h⟩ := Running.conveys_run cfg.host daemonize evs hsmall
  obtain ⟨waiting, hpending, -, hwritten⟩ := h.waiting
  have hnil : waiting = [] := by
    rw [Running.pending_run cfg.host daemonize hsmall hfinished hdrained] at hpending
    cases waiting with
    | nil => rfl
    | cons d waiting =>
      rw [List.flatMap_cons] at hpending
      exact absurd (List.append_eq_nil_iff.mp hpending.symm).1 d.encode_ne_nil
  rw [hnil, List.append_nil] at hwritten
  rw [← hwritten] at hdiffer hopens ⊢
  have hfile : ∀ ref ∈ read.map Running.lineOf,
      ref.file ∈ read.map fun d => cString d.filename := by
    intro ref href
    obtain ⟨d, hd, rfl⟩ := List.mem_map.mp href
    exact List.mem_map_of_mem hd
  have hopens' : ∀ f ∈ read.map fun d => cString d.filename, Opens cfg (cfg.host.realPath f) := by
    intro f hf
    obtain ⟨d, hd, rfl⟩ := List.mem_map.mp hf
    exact hopens d hd
  have hin : ∀ f ∈ read.map fun d => cString d.filename,
      Scripts.InFile codeLines (cfg.host.getLines f) := by
    intro f hf
    have hopen := hopens' f hf
    rw [Opens, hpaths.getLines] at hopen
    exact Scripts.inFile_notes (notes_parseLines _) hopen
  have hnone : ∀ f ∈ ([] : List Text), f ∈ read.map fun d => cString d.filename := by simp
  have htells := Scripts.tells_run codeLines hpaths hdiffer hnone hfile
  rw [← h.told] at htells
  obtain ⟨s, hrun, hhits⟩ := htells.counts hscript hpaths hdiffer hfile hopens' hin
  refine ⟨s, hrun, h.exitCode hfinished, fun ref => ?_⟩
  rw [hhits, List.countP_map]
  rfl

/-! ### A script of three lines -/

/-- A host on which every file has three lines. -/
def threeLinesHost : Host :=
  { Host.bare with
    fileExists := fun _ => true
    readFile := fun _ => some (ascii "a = 1\nb = 2\nc = 3\n") }

def threeLinesSetup : ReporterSetup where
  host := threeLinesHost
  runFilters _ := true
  excludeLine := []
  excludeRegion := []
  hashFilename := false
  maxPossibleHits := .unlimited
  checksum := 0
  cleanOutput := false
  database := none

/-- The third line is executed, and read before the helper exits. -/
theorem data_counted_three_lines :
    (Running.run threeLinesHost false State.readToEnd).collector.exitCode = 0 ∧
      ∃ s, Reporter.run threeLinesSetup
          (Running.run threeLinesHost false State.readToEnd).calls = some s ∧
        (s.getLineExecutionCount threeLinesSetup (ascii "/a.py") 3).hits = 1 := by
  have hwrites : ∀ d, .write d ∈ State.readToEnd → d.size < bufSize := by
    intro d hd
    have hd' : d = State.lineThree := by simpa [State.readToEnd] using hd
    rw [hd']
    decide
  have hfinished : (Running.run threeLinesHost false State.readToEnd).engine.pc = .finished := by
    decide
  have hexited : (Running.run threeLinesHost false State.readToEnd).engine.exited =
      some (.exited 0) := by
    decide
  have hwritten : (Running.run threeLinesHost false State.readToEnd).engine.written =
      [State.lineThree] := rfl
  have hdrained : AllSteps (fun before ev =>
      (Running.run threeLinesHost false before).engine.ExitsDrained ev) State.readToEnd := by
    refine allSteps_iff_getElem.mpr fun i hi => ?_
    have hlt : i < 8 := hi
    -- the helper exits at the fifth step
    interval_cases i <;> first | exact fun _ hpc => absurd hpc (by decide) | trivial
  obtain ⟨s, hrun, hexit, hhits⟩ := data_counted threeLinesSetup ⟨rfl, rfl, rfl⟩
    ⟨fun _ => rfl, fun _ => rfl, fun _ => rfl⟩ false State.readToEnd hwrites hfinished hdrained
    ⟨fun f hf g hg _ => (List.mem_singleton.mp hf).trans (List.mem_singleton.mp hg).symm,
      fun f hf g hg _ => (List.mem_singleton.mp hf).trans (List.mem_singleton.mp hg).symm⟩
    (fun _ _ => show 3 + 1 < 2 ^ 32 by decide)
  refine ⟨hexit 0 hexited, s, hrun, (hhits ⟨ascii "/a.py", 3⟩).trans ?_⟩
  rw [show (Running.run threeLinesSetup.host false State.readToEnd).engine.written =
    [State.lineThree] from hwritten]
  decide

end Kcov.Python
