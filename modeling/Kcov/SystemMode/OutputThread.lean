import Kcov.SystemMode.Memory
import Mathlib.Logic.Function.Basic

/-! The output thread of the system-mode daemon and the tracer processes that share memories with it.
Each access to shared memory is one step. -/

namespace Kcov.SystemMode

/-- Where a tracer process is in `reportIndex`, called for the memory with the key `id`. -/
inductive TracerPc where
  | idle
  /-- It tests whether the bit is set. -/
  | test (id index : BitVec 32)
  /-- It reads the word. -/
  | read (id index : BitVec 32)
  /-- It swaps the word, if it still has the value `val`. -/
  | swap (id index val : BitVec 32)
  /-- It increments `dirtyCount`. -/
  | increment (id index : BitVec 32)
  deriving DecidableEq, Repr

/-- Where the output thread is. The memories of `todo` remain in the round. -/
inductive ThreadPc where
  /-- In `waitCond`. -/
  | waiting
  /-- It tests `doExit`. -/
  | awake
  /-- It copies `outputFiles` to a list. -/
  | collecting
  | next (todo : List (BitVec 32))
  /-- In `isDirty`, with the value of `dirtyCount` once it has been read. -/
  | readDirty (id : BitVec 32) (todo : List (BitVec 32))
  | compare (id : BitVec 32) (todo : List (BitVec 32)) (dirty : BitVec 32)
  /-- In `markClean`. -/
  | markRead (id : BitVec 32) (todo : List (BitVec 32))
  | markWrite (id : BitVec 32) (todo : List (BitVec 32)) (dirty : BitVec 32)
  /-- In `memoryToFile`, with the words that have been copied. -/
  | copying (id : BitVec 32) (todo copied : List (BitVec 32))
  /-- At `fopen`, which empties the file, and at `fwrite`. -/
  | opening (id : BitVec 32) (todo copied : List (BitVec 32))
  | writing (id : BitVec 32) (todo copied : List (BitVec 32))
  | terminated
  deriving DecidableEq, Repr

/-- The memories of `outputFiles`, whose keys are `ids`, the words of the bitmap in the last file
that was written for each, and where everyone is. A memory that is not in the map yet is as it will
be created. The last three fields only record what has happened. -/
structure OutputState where
  ids : List (BitVec 32)
  memory : BitVec 32 → SystemModeMemory
  files : BitVec 32 → Option (List (BitVec 32))
  tracers : Nat → TracerPc
  thread : ThreadPc
  doExit : Bool
  /-- How often `dirtyCount` has been incremented. -/
  increments : BitVec 32 → Nat
  /-- The calls of `reportIndex` that have returned, for an index that the bitmap has. -/
  completed : List (BitVec 32 × BitVec 32)
  /-- Those that had returned when the stop was requested. -/
  completedAtStop : List (BitVec 32 × BitVec 32)

inductive OutputEvent where
  /-- `processOne` puts a new memory into `outputFiles`. -/
  | create (id : BitVec 32)
  /-- The tracer `t` calls `reportIndex`. -/
  | report (t : Nat) (id index : BitVec 32)
  /-- The tracer `t` makes its next step. -/
  | tracer (t : Nat)
  /-- The output thread makes its next step; `order` is how it finds the keys of the map. -/
  | output (order : List (BitVec 32))
  /-- `onExitSignal`, or a message that stops the daemon. -/
  | stop
  deriving DecidableEq, Repr

namespace OutputState

def setMemory (s : OutputState) (id : BitVec 32) (m : SystemModeMemory) : OutputState :=
  { s with memory := Function.update s.memory id m }

def setTracer (s : OutputState) (t : Nat) (pc : TracerPc) : OutputState :=
  { s with tracers := Function.update s.tracers t pc }

def setFile (s : OutputState) (id : BitVec 32) (words : List (BitVec 32)) : OutputState :=
  { s with files := Function.update s.files id (some words) }

/-- The return of the call of the tracer `t`. -/
def complete (s : OutputState) (t : Nat) (id index : BitVec 32) : OutputState :=
  { s.setTracer t .idle with completed := (id, index) :: s.completed }

/-- The next step of `reportIndex`. -/
def tracerStep (s : OutputState) (t : Nat) : OutputState :=
  match s.tracers t with
  | .idle => s
  | .test id index =>
    if (s.memory id).indexIsHit index then s.complete t id index
    else s.setTracer t (.read id index)
  | .read id index =>
    match (s.memory id).data[(index / 32).toNat]? with
    | none => s
    | some val => s.setTracer t (.swap id index val)
  | .swap id index val =>
    if (s.memory id).data[(index / 32).toNat]? = some val then
      let newVal := val ||| (1#32 <<< (index % 32).toNat)
      let m := s.memory id
      (s.setMemory id { m with
        data := m.data.set (index / 32).toNat newVal
        size := List.length_set.trans m.size }).setTracer t (.increment id index)
    else s.setTracer t (.read id index)
  | .increment id index =>
    let m := s.memory id
    let s := { s with increments := Function.update s.increments id (s.increments id + 1) }
    (s.setMemory id { m with dirtyCount := m.dirtyCount + 1 }).complete t id index

/-- The next step of `outputThread`. -/
def threadStep (s : OutputState) (order : List (BitVec 32)) : OutputState :=
  match s.thread with
  | .waiting => { s with thread := .awake }
  | .awake => { s with thread := if s.doExit then .terminated else .collecting }
  | .collecting => if order.Perm s.ids then { s with thread := .next order } else s
  | .next [] => { s with thread := .waiting }
  | .next (id :: todo) => { s with thread := .readDirty id todo }
  | .readDirty id todo => { s with thread := .compare id todo (s.memory id).dirtyCount }
  | .compare id todo dirty =>
    if dirty ≠ (s.memory id).cleanCount then { s with thread := .markRead id todo }
    else { s with thread := .next todo }
  | .markRead id todo => { s with thread := .markWrite id todo (s.memory id).dirtyCount }
  | .markWrite id todo dirty =>
    { s.setMemory id { s.memory id with cleanCount := dirty } with thread := .copying id todo [] }
  | .copying id todo copied =>
    match (s.memory id).data[copied.length]? with
    | some word => { s with thread := .copying id todo (copied ++ [word]) }
    | none => { s with thread := .opening id todo copied }
  | .opening id todo copied => { s.setFile id [] with thread := .writing id todo copied }
  | .writing id todo copied => { s.setFile id copied with thread := .next todo }
  | .terminated => s

def step (s : OutputState) : OutputEvent → OutputState
  | .create id => if id ∈ s.ids then s else { s with ids := s.ids ++ [id] }
  | .report t id index =>
    if s.tracers t = .idle ∧ id ∈ s.ids ∧ (index / 32).toNat < (s.memory id).nEntries.toNat then
      s.setTracer t (.test id index)
    else s
  | .tracer t => s.tracerStep t
  | .output order => s.threadStep order
  | .stop =>
    { s with
      doExit := true
      completedAtStop := if s.doExit then s.completedAtStop else s.completed }

/-- The daemon when its output thread has been created; `new` are the memories to come. -/
def start (new : BitVec 32 → SystemModeMemory) : OutputState :=
  { ids := []
    memory := new
    files := fun _ => none
    tracers := fun _ => .idle
    thread := .waiting
    doExit := false
    increments := fun _ => 0
    completed := []
    completedAtStop := [] }

def run (new : BitVec 32 → SystemModeMemory) (evs : List OutputEvent) : OutputState :=
  evs.foldl step (start new)

@[simp] theorem tracers_setTracer (s : OutputState) (t : Nat) (pc : TracerPc) :
    (s.setTracer t pc).tracers t = pc := Function.update_self _ _ _

@[simp] theorem memory_setTracer (s : OutputState) (t : Nat) (pc : TracerPc) :
    (s.setTracer t pc).memory = s.memory := rfl

@[simp] theorem memory_setMemory (s : OutputState) (id : BitVec 32) (m : SystemModeMemory) :
    (s.setMemory id m).memory id = m := Function.update_self _ _ _

end OutputState

end Kcov.SystemMode
