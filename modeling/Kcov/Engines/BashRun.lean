import Kcov.Collector
import Kcov.Engines.BashLines
import Kcov.Engines.BashRecords
import Kcov.Engines.Scripts

/-! A whole run of a bash script: what bash writes, the engine that reads it, the collector, and the
counts of the reporter. -/

namespace Kcov.Bash

open Bytes Reporter

/-- The engine, the collector, and the calls of the reporter. -/
structure Running where
  engine : State
  collector : Collector
  calls : List Reporter.Event

namespace Running

variable (host : Host) (codeLines : List Text → List U32) (daemonize : Bool)

/-- An event of the engine. -/
def onEvent (s : Running) (ev : EngineEvent U64) : Running :=
  let (collector, calls) := s.collector.onEvent daemonize ev
  { s with collector, calls := s.calls ++ calls }

/-- `checkEvents`: the listeners of the parser are called first. -/
def checkEvents (s : Running) : Bool × Running :=
  let (found, engine) := s.engine.checkEvents host codeLines
  let calls := s.calls ++ Scripts.calls s.engine.base engine.base
  (found, (engine.events.drop s.engine.events.length).foldl (onEvent daemonize)
    { s with engine, calls })

/-- `continueExecution`, where `waitpid` would return `status`. -/
def continueExecution (s : Running) (status : Option WaitStatus) : Bool × Running :=
  let (found, s) := s.checkEvents host codeLines daemonize
  if found then (true, s)
  else
    match status with
    | none => (true, s)
    | some status =>
      let s := (s.checkEvents host codeLines daemonize).2
      match status with
      | .exited exitStatus =>
        (false, s.onEvent daemonize ⟨.exitFirstProcess, exitStatus, 0⟩)
      | _ => (false, s.onEvent daemonize ⟨.error, -1, 0⟩)

/-- `Collector::run`, with what `waitpid` would return each time. -/
def run : List (Option WaitStatus) → Running → Option Running
  | [], _ => none
  | status :: statuses, s =>
    match s.continueExecution host codeLines daemonize status with
    | (true, s) => run statuses s
    | (false, s) => some s

/-- The engine has parsed `files` in `start`, and bash will write `stderr`. -/
def start (files : List Text) (stderr : Text) : Running :=
  let told := Scripts.Told.start host codeLines files
  { engine := begun told.engine stderr
    collector := Collector.create
    calls := told.calls }

end Running

/-! ### One call -/

namespace State

variable (host : Host) (codeLines : List Text → List U32) {s t : State}

/-- A call either reports a line or tells the listeners nothing. -/
theorem checkEvents_events (s : State) :
    ((s.checkEvents host codeLines).2.events = s.events ∧
      (s.checkEvents host codeLines).2.base = s.base) ∨
    ∃ ev, (s.checkEvents host codeLines).2.events = s.events ++ [ev] := by
  have hparts : ∀ (u : State) (file lineNo : Text),
      ((u.reportParts host codeLines file lineNo).2.events = u.events ∧
        (u.reportParts host codeLines file lineNo).2.base = u.base) ∨
      ∃ ev, (u.reportParts host codeLines file lineNo).2.events = u.events ++ [ev] := by
    intro u file lineNo
    rw [reportParts]
    split
    · exact Or.inl ⟨rfl, rfl⟩
    · split
      · exact Or.inl ⟨rfl, rfl⟩
      · exact Or.inr ⟨_, rfl⟩
  rw [checkEvents]
  split
  · exact Or.inl ⟨rfl, rfl⟩
  · dsimp only
    split
    · exact Or.inl ⟨rfl, rfl⟩
    · split
      · exact Or.inl ⟨rfl, rfl⟩
      · split
        · exact hparts _ _ _
        · exact Or.inl ⟨rfl, rfl⟩

theorem length_events_checkEvents (s : State) :
    s.events.length ≤ (s.checkEvents host codeLines).2.events.length := by
  rcases checkEvents_events host codeLines s with ⟨h, -⟩ | ⟨ev, h⟩
  · rw [h]
  · rw [h, List.length_append]
    omega

variable {host codeLines}

theorem length_events_checkEventsTimes {n : Nat}
    (h : s.checkEventsTimes host codeLines n = some t) : s.events.length ≤ t.events.length := by
  induction n generalizing s with
  | zero =>
    cases h
    exact le_rfl
  | succ n ih =>
    rw [checkEventsTimes] at h
    have hone := length_events_checkEvents host codeLines s
    split at h
    next u hcheck =>
      rw [hcheck] at hone
      exact hone.trans (ih h)
    next => cases h

/-- The first of several calls, after which there are no fewer events. -/
theorem checkEventsTimes_succ {n : Nat} (h : s.checkEventsTimes host codeLines (n + 1) = some t) :
    ∃ u, s.checkEvents host codeLines = (true, u) ∧
      u.checkEventsTimes host codeLines n = some t ∧ u.events.length ≤ t.events.length ∧
      ((u.events = s.events ∧ u.base = s.base) ∨ ∃ ev, u.events = s.events ++ [ev]) := by
  rw [checkEventsTimes] at h
  have hone := checkEvents_events host codeLines s
  split at h
  next u hcheck =>
    rw [hcheck] at hone
    exact ⟨u, hcheck, h, length_events_checkEventsTimes h, hone⟩
  next => cases h

end State

/-! ### The records -/

namespace Running

variable {host : Host} {codeLines : List Text → List U32} {e e' : State}

section Calls

variable (daemonize : Bool) (collector : Collector) (told : List Reporter.Event)

/-- A call that reports a line. -/
theorem checkEvents_report {ev : EngineEvent U64} {found : Bool}
    (h : e.checkEvents host codeLines = (found, e')) (hevents : e'.events = e.events ++ [ev])
    (htype : ev.type = .breakpoint) :
    checkEvents host codeLines daemonize ⟨e, collector, told⟩ =
      (found, ⟨e', collector, told ++ Scripts.calls e.base e'.base ++ [.hit ev.addr 1]⟩) := by
  have hcollector : collector.onEvent daemonize ev = (collector, [.hit ev.addr 1]) := by
    rw [Collector.onEvent]
    simp only [htype]
  simp only [checkEvents, h, hevents, List.drop_left, List.foldl_cons, List.foldl_nil, onEvent,
    hcollector]

/-- A call that tells the listeners nothing. -/
theorem checkEvents_quiet {found : Bool} (h : e.checkEvents host codeLines = (found, e'))
    (hevents : e'.events = e.events) (hbase : e'.base = e.base) :
    checkEvents host codeLines daemonize ⟨e, collector, told⟩ = (found, ⟨e', collector, told⟩) := by
  have hcalls : Scripts.calls e.base e.base = [] := by simp [Scripts.calls]
  simp only [checkEvents, h, hevents, hbase, hcalls, List.drop_length, List.foldl_nil,
    List.append_nil]

/-- Calls of which none reports a line. -/
theorem run_quiet {statuses : List (Option WaitStatus)}
    (h : e.checkEventsTimes host codeLines statuses.length = some e')
    (hevents : e'.events.length = e.events.length) :
    e'.events = e.events ∧ e'.base = e.base ∧ ∀ rest,
      run host codeLines daemonize (statuses ++ rest) ⟨e, collector, told⟩ =
        run host codeLines daemonize rest ⟨e', collector, told⟩ := by
  induction statuses generalizing e with
  | nil =>
    cases h
    exact ⟨rfl, rfl, fun _ => rfl⟩
  | cons status statuses ih =>
    obtain ⟨u, hcheck, htimes, hlen, ⟨hsame, hbase⟩ | ⟨ev, hnew⟩⟩ := State.checkEventsTimes_succ h
    · obtain ⟨hevents', hbase', hrun⟩ := ih htimes (by rw [hevents, hsame])
      refine ⟨hevents'.trans hsame, hbase'.trans hbase, fun rest => ?_⟩
      rw [List.cons_append, run, continueExecution, checkEvents_quiet _ _ _ hcheck hsame hbase]
      exact hrun rest
    · rw [hnew, List.length_append, List.length_singleton] at hlen
      omega

/-- Calls of which one reports a line. -/
theorem run_report {statuses : List (Option WaitStatus)} {ev : EngineEvent U64}
    (h : e.checkEventsTimes host codeLines statuses.length = some e')
    (hevents : e'.events = e.events ++ [ev]) (htype : ev.type = .breakpoint)
    (rest : List (Option WaitStatus)) :
    run host codeLines daemonize (statuses ++ rest) ⟨e, collector, told⟩ =
      run host codeLines daemonize rest
        ⟨e', collector, told ++ Scripts.calls e.base e'.base ++ [.hit ev.addr 1]⟩ := by
  induction statuses generalizing e with
  | nil =>
    cases h
    simp at hevents
  | cons status statuses ih =>
    obtain ⟨u, hcheck, htimes, hlen, ⟨hsame, hbase⟩ | ⟨ev', hnew⟩⟩ := State.checkEventsTimes_succ h
    · rw [List.cons_append, run, continueExecution, checkEvents_quiet _ _ _ hcheck hsame hbase, ← hbase]
      exact ih htimes (by rw [hevents, hsame])
    · have hlast : e'.events.length = u.events.length := by
        rw [hevents, hnew, List.length_append, List.length_append]
        rfl
      obtain ⟨hevents', hbase', hrun⟩ := run_quiet daemonize collector
        (told ++ Scripts.calls e.base u.base ++ [.hit ev.addr 1]) htimes hlast
      have hev : u.events = e.events ++ [ev] := by rw [← hevents', hevents]
      rw [List.cons_append, run, continueExecution, checkEvents_report _ _ _ hcheck hev htype, hbase']
      exact hrun rest

end Calls

/-- The line that a record is about. -/
def refOf (host : Host) (r : Record) : LineRef := ⟨host.realPath r.file, BitVec.ofNat 32 r.line⟩

/-- The engine reads all records, and tells its listeners of their lines. -/
theorem run_records (codeLines : List Text → List U32) (daemonize : Bool) (collector : Collector)
    {rs : List Record}
    (hrs : ∀ r ∈ rs, r.ofScript host = true ∧ r.line < 2 ^ 32 ∧ 0 ∉ r.text)
    {statuses : List (Option WaitStatus)}
    (hlen : statuses.length = (rs.flatMap Record.text).count newline)
    (hnormal : e.inputType = .normal) (hstderr : e.stderr = rs.flatMap Record.text)
    (told : List Reporter.Event) : ∃ e', e'.stderr = [] ∧ ∀ rest,
      run host codeLines daemonize (statuses ++ rest) ⟨e, collector, told⟩ =
        run host codeLines daemonize rest ⟨e', collector,
          ((rs.map (refOf host)).foldl (Scripts.Told.report host codeLines) ⟨e.base, told⟩).calls⟩ := by
  induction rs generalizing e statuses told with
  | nil =>
    rw [List.flatMap_nil] at hstderr hlen
    rw [List.count_nil, List.length_eq_zero_iff] at hlen
    exact ⟨e, hstderr, fun rest => by rw [hlen]; rfl⟩
  | cons r rs ih =>
    obtain ⟨hscript, hline, hnul⟩ := hrs r List.mem_cons_self
    rw [List.flatMap_cons] at hstderr hlen
    rw [List.count_append] at hlen
    -- the lines of this record, and those of the others
    obtain ⟨first, others, rfl, hfirst⟩ : ∃ first others, statuses = first ++ others ∧
        first.length = r.text.count newline :=
      ⟨_, _, (List.take_append_drop (r.text.count newline) statuses).symm,
        by rw [List.length_take]; omega⟩
    have hothers : others.length = (rs.flatMap Record.text).count newline := by
      rw [List.length_append] at hlen
      omega
    have htimes := State.checkEventsTimes_record codeLines hscript hline hnul hnormal hstderr
    rw [← hfirst] at htimes
    have hreport := run_report daemonize collector told htimes rfl rfl
    obtain ⟨e', hempty, hrest⟩ := ih (fun r hr => hrs r (List.mem_cons_of_mem _ hr)) hothers
      (e := State.report host codeLines { e with stderr := rs.flatMap Record.text } (refOf host r))
      hnormal rfl _
    refine ⟨e', hempty, fun rest => ?_⟩
    rw [List.append_assoc, hreport]
    exact hrest rest

/-- Bash has written everything, and exits later. -/
theorem run_exit (codeLines : List Text → List U32) (daemonize : Bool) (collector : Collector)
    (told : List Reporter.Event) (hempty : e.stderr = []) (polls exitStatus : Nat)
    (rest : List (Option WaitStatus)) :
    run host codeLines daemonize
        (List.replicate polls none ++ some (.exited exitStatus) :: rest) ⟨e, collector, told⟩ =
      some ⟨e, (collector.onEvent daemonize ⟨.exitFirstProcess, exitStatus, 0⟩).1, told⟩ := by
  have hcheck : e.checkEvents host codeLines = (false, e) := by
    rw [State.checkEvents, if_pos hempty]
  have hquiet := checkEvents_quiet daemonize collector told hcheck rfl rfl
  induction polls with
  | zero =>
    rw [List.replicate_zero, List.nil_append, run, continueExecution, hquiet]
    simp only [Bool.false_eq_true, if_false, hquiet, onEvent, Collector.onEvent_calls, reduceCtorEq,
      List.append_nil]
  | succ polls ih =>
    rw [List.replicate_succ, List.cons_append, run, continueExecution, hquiet]
    exact ih

end Running

/-- What bash traces is counted: kcov reads all records, however long bash takes to exit, returns its
exit status, and counts for each line of code that is included how often it was traced. -/
theorem records_counted (cfg : ReporterSetup) (hscript : Scripts.IsScript cfg)
    (hpaths : Scripts.RealPaths cfg.host) (useBasicParser daemonize : Bool) (files : List Text)
    (rs : List Record)
    (hrs : ∀ r ∈ rs, r.ofScript cfg.host = true ∧ r.line < 2 ^ 32 ∧ 0 ∉ r.text)
    (hdiffer : Scripts.HashesDiffer cfg.host (files ++ rs.map fun r => cfg.host.realPath r.file))
    (hopens : ∀ f ∈ files ++ rs.map fun r => cfg.host.realPath r.file,
      Opens cfg (cfg.host.realPath f))
    (statuses rest : List (Option WaitStatus))
    (hlen : statuses.length = (rs.flatMap Record.text).count newline) (polls exitStatus : Nat) :
    ∃ t s, Running.run cfg.host (codeLines useBasicParser) daemonize
        (statuses ++ (List.replicate polls none ++ some (.exited exitStatus) :: rest))
        (Running.start cfg.host (codeLines useBasicParser) files (rs.flatMap Record.text)) = some t ∧
      t.collector.exitCode = exitStatus ∧ Reporter.run cfg t.calls = some s ∧ ∀ ref,
      (s.getLineExecutionCount cfg ref.file ref.lineNr).hits =
        if !cfg.excluded ref && cfg.runFilters ref.file &&
            (codeLines useBasicParser (cfg.host.getLines ref.file)).contains ref.lineNr then
          BitVec.ofNat 32 (rs.countP fun r =>
            cfg.host.realPath r.file = ref.file && r.line = ref.lineNr.toNat)
        else 0 := by
  have hin : ∀ f ∈ files ++ rs.map fun r => cfg.host.realPath r.file,
      Scripts.InFile (codeLines useBasicParser) (cfg.host.getLines f) := by
    intro f hf
    have hopen := hopens f hf
    rw [Opens, hpaths.getLines] at hopen
    cases useBasicParser with
    | true => exact Scripts.inFile_notes (notes_parseFileBasic _) hopen
    | false => exact Scripts.inFile_notes (notes_parseFileFull _) hopen
  have htrace : ∀ ref ∈ rs.map (Running.refOf cfg.host),
      ref.file ∈ files ++ rs.map fun r => cfg.host.realPath r.file := by
    intro ref href
    obtain ⟨r, hr, rfl⟩ := List.mem_map.mp href
    exact List.mem_append_right _ (List.mem_map_of_mem hr)
  have htells := Scripts.tells_run (codeLines useBasicParser) hpaths hdiffer
    (fun f hf => List.mem_append_left _ hf) htrace
  obtain ⟨s, hrun, hhits⟩ := htells.counts hscript hpaths hdiffer htrace hopens hin
  obtain ⟨e', hempty, hrecords⟩ := Running.run_records (codeLines useBasicParser)
    daemonize Collector.create hrs hlen
    (e := begun (Scripts.Told.start cfg.host (codeLines useBasicParser) files).engine _) rfl rfl
    (Scripts.Told.start cfg.host (codeLines useBasicParser) files).calls
  refine ⟨_, s, (hrecords _).trans (Running.run_exit _ _ _ _ hempty polls exitStatus rest), rfl,
    hrun, fun ref => ?_⟩
  have hcount : (rs.map (Running.refOf cfg.host)).countP (Scripts.isAbout cfg.host ref) =
      rs.countP fun r => cfg.host.realPath r.file = ref.file && r.line = ref.lineNr.toNat := by
    rw [List.countP_map]
    refine List.countP_congr fun r hr => ?_
    have hline : BitVec.ofNat 32 r.line = ref.lineNr ↔ r.line = ref.lineNr.toNat := by
      rw [← BitVec.toNat_inj, BitVec.toNat_ofNat, Nat.mod_eq_of_lt (hrs r hr).2.1]
    simp [Scripts.isAbout, Running.refOf, hpaths.idem, hline]
  rw [hhits, hcount]

/-! ### A loop -/

/-- A host on which every file has two lines. -/
def loopHost : Host :=
  { Host.bare with
    fileExists := fun _ => true
    readFile := fun _ => some (ascii "echo a\necho b\n") }

def loopSetup : ReporterSetup where
  host := loopHost
  runFilters _ := true
  excludeLine := []
  excludeRegion := []
  hashFilename := false
  maxPossibleHits := .unlimited
  checksum := 0
  cleanOutput := false
  database := none

/-- The first line is executed twice, once with an argument that goes over two lines. -/
def loopRecords : List Record :=
  [recordOf (ascii "/a") 1 [.quoted (ascii "a\nkcov@b@2@") (by decide)] (by decide),
    recordOf (ascii "/a") 2 [] (by decide), recordOf (ascii "/a") 1 [] (by decide)]

theorem records_counted_loop :
    ∃ t s, Running.run loopHost (codeLines false) false
        ([none, none, none, none] ++ (List.replicate 2 none ++ [some (.exited 3)]))
        (Running.start loopHost (codeLines false) [ascii "/a"] (loopRecords.flatMap Record.text)) =
          some t ∧
      t.collector.exitCode = 3 ∧ Reporter.run loopSetup t.calls = some s ∧
      (s.getLineExecutionCount loopSetup (ascii "/a") 1).hits = 2 := by
  have hnames : ∀ f ∈ [ascii "/a"] ++ loopRecords.map fun r => loopHost.realPath r.file,
      f = ascii "/a" := by
    decide
  obtain ⟨t, s, hrun, hexit, hreporter, hhits⟩ := records_counted loopSetup ⟨rfl, rfl, rfl⟩
    ⟨fun _ => rfl, fun _ => rfl, fun _ => rfl⟩ false false [ascii "/a"] loopRecords (by decide)
    ⟨fun f hf g hg _ => (hnames f hf).trans (hnames g hg).symm,
      fun f hf g hg _ => (hnames f hf).trans (hnames g hg).symm⟩
    (fun _ _ => show 2 + 1 < 2 ^ 32 by decide) [none, none, none, none] [] (by decide) 2 3
  exact ⟨t, s, hrun, hexit, hreporter, (hhits ⟨ascii "/a", 1⟩).trans (by decide)⟩

end Kcov.Bash
