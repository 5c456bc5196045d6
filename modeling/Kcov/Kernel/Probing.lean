import Kcov.Collector
import Kcov.Kernel.Ownership
import Kcov.Kernel.Texts
import Kcov.Reporter.Compiled

/-! kcov and a kernel: the probes that kcov asks for, the module that plants them, the workqueue, the
text that is read back, and what the collector and the reporter make of it. -/

namespace Kcov.Kernel

open Bytes Runs

/-- The probes at the instruction trigger. -/
def State.execute (s : State) (addr : BitVec 64) : State :=
  ((List.range s.next).filter fun e =>
    (s.entries e).any fun entry => entry.registered && entry.addr = addr).foldl State.preHandler s

/-- What happens to kcov, the module and the kernel. -/
inductive Happening where
  /-- The parser finds a line, and `register_kprobe` succeeds or does not. -/
  | line (file : Text) (lineNr : U32) (addr : BitVec 64) (registers : Bool)
  /-- The kernel reaches the instruction at `addr`. -/
  | execute (addr : BitVec 64)
  /-- The next step of the thread of the workqueue. -/
  | work
  | coming (name : Text) (core : BitVec 64) (registers : Nat → Bool)
  | going (name : Text)
  | unlinkNext
  /-- An entry is shown to the reader, whose buffer may have no room for the line. -/
  | seqShow (e : Nat) (fits : Bool)
  /-- `continueExecution` -/
  | read

/-- Where the thread of the workqueue is. -/
inductive Worker where
  | idle
  /-- It has taken the work of the entry off the queue, and will call `unregister_kprobe`. -/
  | taken (e : Nat)
  /-- It has unregistered the probe of the entry, and will take the lock. -/
  | unregistered (e : Nat)
  deriving DecidableEq, Repr

/-- The entry whose work is running. -/
def Worker.items : Worker → List Nat
  | idle => []
  | taken e | unregistered e => [e]

/-- The engine, the module, the thread of its workqueue, what the module has shown and kcov has not
read, the collector, and the calls of the reporter. -/
structure Probing where
  addresses : Addresses
  kernel : State
  worker : Worker
  unread : Text
  collector : Collector
  calls : List Reporter.Event

namespace Probing

def start : Probing where
  addresses := []
  kernel := State.init
  worker := .idle
  unread := []
  collector := Collector.create
  calls := []

section Step

variable (runFilters : Text → Bool) (daemonize : Bool)

/-- The listeners of the parser: first the collector, then the reporter. -/
def onLine (s : Probing) (file : Text) (lineNr : U32) (addr : BitVec 64) (registers : Bool) :
    Probing :=
  let (addresses, text) :=
    if runFilters file then registerBreakpoint s.addresses addr else (s.addresses, [])
  { s with
    addresses
    kernel := controlWrite (fun _ => registers) s.kernel text
    calls := s.calls ++ [.line file lineNr addr] }

/-- `kpc_probe_work`. An item that has been taken may be queued again. -/
def onWork (s : Probing) : Option Probing :=
  match s.worker with
  | .idle =>
    match s.kernel.workqueue with
    | [] => some s
    | e :: workqueue => some { s with kernel := { s.kernel with workqueue }, worker := .taken e }
  | .taken e => (s.kernel.workUnregister e).map fun kernel =>
      { s with kernel, worker := .unregistered e }
  | .unregistered e => (s.kernel.workMove e).map fun kernel => { s with kernel, worker := .idle }

def onShow (s : Probing) (e : Nat) (fits : Bool) : Option Probing := do
  let kernel ← s.kernel.seqShow e
  let lines ← (kernel.printed.drop s.kernel.printed.length).mapM showLine
  return { s with kernel, unread := if fits then s.unread ++ lines.flatten else s.unread }

def onRead (s : Probing) : Option Probing := do
  let (ev, unread) ← continueExecution s.unread
  match ev with
  | none => return { s with unread }
  | some ev =>
    let (collector, calls) := s.collector.onEvent daemonize ev
    return { s with unread, collector, calls := s.calls ++ calls }

def step (s : Probing) : Happening → Option Probing
  | .line file lineNr addr registers => some (s.onLine runFilters file lineNr addr registers)
  | .execute addr => some { s with kernel := s.kernel.execute addr }
  | .work => s.onWork
  | .coming name core registers =>
    some { s with kernel := s.kernel.handleComingModule name core registers }
  | .going name => some { s with kernel := s.kernel.handleGoingModule name }
  | .unlinkNext => some { s with kernel := s.kernel.unlinkNext }
  | .seqShow e fits => s.onShow e fits
  | .read => s.onRead daemonize

/-- There is no result where freed memory is used. -/
def run (hs : List Happening) : Option Probing := hs.foldlM (step runFilters daemonize) start

end Step

end Probing

/-! ### What is meant to happen -/

/-- The addresses that were asked for, those at which a probe was planted, and those of them at which
the kernel has arrived since. -/
structure Watch where
  asked : Finset (BitVec 64)
  probed : Finset (BitVec 64)
  triggered : Finset (BitVec 64)

namespace Watch

def step (runFilters : Text → Bool) (w : Watch) : Happening → Watch
  | .line file _ addr registers =>
    if runFilters file ∧ addr ∉ w.asked then
      { w with
        asked := insert addr w.asked
        probed := if registers then insert addr w.probed else w.probed }
    else w
  | .execute addr =>
    if addr ∈ w.probed then { w with triggered := insert addr w.triggered } else w
  | _ => w

def run (runFilters : Text → Bool) (hs : List Happening) : Watch :=
  hs.foldl (step runFilters) ⟨∅, ∅, ∅⟩

end Watch

/-- The lines that the parser finds. -/
def linesOf (hs : List Happening) : List Reporter.Event :=
  hs.filterMap fun
    | .line file lineNr addr _ => some (.line file lineNr addr)
    | _ => none

namespace Happening

def isLine : Happening → Bool
  | .line _ _ _ _ => true
  | _ => false

def isRead : Happening → Bool
  | .read => true
  | _ => false

/-- The reader has room for what is shown. -/
def fits : Happening → Bool
  | .seqShow _ fits => fits
  | _ => true

end Happening

/-- `parse` has found all lines before `continueExecution` is called. -/
def LinesFirst (hs : List Happening) : Prop :=
  AllSteps (fun before h => h.isLine = true → before.any Happening.isRead = false) hs

/-- The kernel does not reach the instruction of a probe that is about to be unregistered. -/
def Probing.SparesTaken (s : Probing) : Happening → Prop
  | .execute addr => ∀ e, s.worker = .taken e →
      (s.kernel.entries e).any (fun entry => entry.addr = addr) = false
  | _ => True

/-- Between the time when the work of a probe is taken off the queue and the time when the probe is
unregistered, the kernel does not reach its instruction again. -/
def NotAgain (runFilters : Text → Bool) (daemonize : Bool) (hs : List Happening) : Prop :=
  AllSteps (fun before h => ∀ s, Probing.run runFilters daemonize before = some s →
    s.SparesTaken h) hs

/-- Nothing is under way. -/
structure Probing.Drained (s : Probing) : Prop where
  worker : s.worker = .idle
  workqueue : s.kernel.workqueue = []
  hitList : s.kernel.hitList = []
  shown : s.kernel.shown = []
  unread : s.unread = []

end Kcov.Kernel
