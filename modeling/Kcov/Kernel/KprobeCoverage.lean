import Kcov.Utils
import Mathlib.Data.List.Count
import Mathlib.Logic.Function.Basic

/-! The kernel module: entries for the probes of the kernel and of its modules, on a list each for the
probes that wait for their module, that have not triggered yet, and that wait to be read. -/

namespace Kcov.Kernel

open Bytes

/-- `kprobe_coverage_entry`, but for its links. -/
structure Entry where
  /-- -1 where the table of names was full. -/
  nameIndex : Int
  baseAddr : BitVec 64
  addr : BitVec 64
  /-- `kp` is registered. -/
  registered : Bool
  deriving DecidableEq, Repr

/-- `ARRAY_SIZE(kpc->module_names)`. -/
def moduleNamesSize : Nat := 32

/-- `kprobe_coverage`, with the entries by the order in which they were allocated, and what the rest of
the kernel knows of it. -/
structure State where
  /-- The entries that are allocated. -/
  entries : Nat → Option Entry
  next : Nat
  deferredList : List Nat
  pendingList : List Nat
  hitList : List Nat
  /-- `module_names`, from index 1 up to `name_count`. -/
  moduleNames : List Text
  /-- The entries whose work is queued. -/
  workqueue : List Nat
  /-- The entries that readers have unlinked and not shown yet. -/
  shown : List Nat
  /-- The entries that `kfree` was called for. -/
  freed : List Nat
  /-- `module_core` of the modules that are loaded. -/
  modules : Text → Option (BitVec 64)
  /-- What readers were shown: a name, if it is in the table, and an address. -/
  printed : List (Option (Option Text) × BitVec 64)

namespace State

/-- After `kpc_init`. -/
def init : State where
  entries _ := none
  next := 0
  deferredList := []
  pendingList := []
  hitList := []
  moduleNames := []
  workqueue := []
  shown := []
  freed := []
  modules _ := none
  printed := []

/-! ### Names -/

def moduleNameToIndex (s : State) : Option Text → Int
  | none => 0
  | some name =>
    match s.moduleNames.findIdx? (· = name) with
    | some i => i + 1
    | none => -1

def allocateModuleNameIndex (s : State) (moduleName : Option Text) : State × Int :=
  let index := s.moduleNameToIndex moduleName
  match moduleName with
  | some name =>
    if index < 0 ∧ s.moduleNames.length + 1 < moduleNamesSize then
      ({ s with moduleNames := s.moduleNames ++ [name] }, s.moduleNames.length + 1)
    else (s, index)
  | none => (s, index)

/-- `module_names[index]`, or `none` outside the table. -/
def moduleName (s : State) (index : Int) : Option (Option Text) :=
  match index with
  | .ofNat 0 => some none
  | .ofNat (i + 1) => if i + 1 < moduleNamesSize then some s.moduleNames[i]? else none
  | .negSucc _ => none

/-! ### Entries -/

/-- `list_del`, from the list that the entry is on. -/
def listDel (s : State) (e : Nat) : State :=
  { s with
    deferredList := s.deferredList.erase e
    pendingList := s.pendingList.erase e
    hitList := s.hitList.erase e }

def modifyEntry (s : State) (e : Nat) (g : Entry → Entry) : State :=
  { s with entries := Function.update s.entries e ((s.entries e).map g) }

def unregisterKprobe (s : State) (e : Nat) : State :=
  s.modifyEntry e fun entry => { entry with registered := false }

def freeEntry (s : State) (e : Nat) : State :=
  { s with entries := Function.update s.entries e none, freed := s.freed ++ [e] }

def newEntry (s : State) (moduleName : Option Text) (module : Option (BitVec 64))
    (offset : BitVec 64) : State × Nat :=
  let (s, nameIndex) := s.allocateModuleNameIndex moduleName
  let baseAddr := module.getD 0
  let entry := { nameIndex, baseAddr, addr := baseAddr + offset, registered := false }
  ({ s with entries := Function.update s.entries s.next (some entry), next := s.next + 1 }, s.next)

/-- `enable_probe`, where `registers` is whether `register_kprobe` succeeds. -/
def enableProbe (s : State) (e : Nat) (registers : Bool) : State × Bool :=
  let s := { s with pendingList := e :: s.pendingList }
  if registers then (s.modifyEntry e fun entry => { entry with registered := true }, true)
  else (s.listDel e, false)

def deferProbe (s : State) (e : Nat) : State := { s with deferredList := e :: s.deferredList }

def addProbe (s : State) (moduleName : Option Text) (offset : BitVec 64) (registers : Bool) :
    State :=
  let module := moduleName.bind s.modules
  let (s, e) := s.newEntry moduleName module offset
  if moduleName.isSome && module.isNone then s.deferProbe e
  else
    let (s, enabled) := s.enableProbe e registers
    if enabled then s else s.freeEntry e

/-- The body of the loop of `clear_list`. -/
def clearEntry (unregister : Bool) (s : State) (e : Nat) : State :=
  ((if unregister then s.unregisterKprobe e else s).listDel e).freeEntry e

def clear (s : State) : State :=
  let s := s.deferredList.foldl (clearEntry false) s
  let s := s.hitList.foldl (clearEntry true) s
  let s := s.pendingList.foldl (clearEntry true) s
  { s with deferredList := [], pendingList := [], hitList := [], moduleNames := [] }

/-- `kpc_pre_handler`, when the probe of a registered entry triggers. -/
def preHandler (s : State) (e : Nat) : State :=
  if (s.entries e).any Entry.registered ∧ e ∉ s.workqueue then
    { s with workqueue := s.workqueue ++ [e] }
  else s

/-- `kpc_probe_work` up to the lock, or `none` where it uses freed memory. -/
def workUnregister (s : State) (e : Nat) : Option State :=
  if (s.entries e).isSome then some (s.unregisterKprobe e) else none

/-- `kpc_probe_work` with the lock, or `none` where it uses freed memory or unlinks an entry that is on
no list. -/
def workMove (s : State) (e : Nat) : Option State :=
  if (s.entries e).isSome ∧ (e ∈ s.deferredList ∨ e ∈ s.pendingList ∨ e ∈ s.hitList) then
    let s := s.listDel e
    some { s with hitList := s.hitList ++ [e] }
  else none

/-- The workqueue runs its first item in one go. -/
def probeWork (s : State) : Option State :=
  match s.workqueue with
  | [] => some s
  | e :: workqueue => do
    let s ← { s with workqueue }.workUnregister e
    s.workMove e

/-! ### Modules -/

/-- The entry is for the module, as far as the table of names tells. -/
def isFor (s : State) (name : Text) (e : Nat) : Bool :=
  (s.entries e).any fun entry => s.moduleNameToIndex (some name) = entry.nameIndex

/-- The body of the loop of `kpc_handle_coming_module`. -/
def comingEntry (name : Text) (core : BitVec 64) (registers : Nat → Bool) (s : State) (e : Nat) :
    State :=
  if !s.isFor name e then s
  else
    let s := (s.listDel e).modifyEntry e fun entry =>
      { entry with baseAddr := core, addr := entry.addr + core }
    let (s, enabled) := s.enableProbe e (registers e)
    if enabled then s else s.freeEntry e

def handleComingModule (s : State) (name : Text) (core : BitVec 64) (registers : Nat → Bool) :
    State :=
  let s := { s with modules := Function.update s.modules name (some core) }
  s.deferredList.foldl (comingEntry name core registers) s

/-- The body of the loop of `kpc_handle_going_module`. -/
def goingEntry (name : Text) (s : State) (e : Nat) : State :=
  if !s.isFor name e then s else ((s.unregisterKprobe e).listDel e).freeEntry e

def handleGoingModule (s : State) (name : Text) : State :=
  let s := { s with modules := Function.update s.modules name none }
  s.pendingList.foldl (goingEntry name) s

/-! ### Reading -/

def unlinkNext (s : State) : State :=
  match s.hitList with
  | [] => s
  | e :: hitList => { s with hitList, shown := s.shown ++ [e] }

/-- `kpc_seq_show` for an entry that a reader has unlinked, or `none` where it uses freed memory. -/
def seqShow (s : State) (e : Nat) : Option State :=
  if e ∉ s.shown then some s
  else
    match s.entries e with
    | none => none
    | some entry => some
        ({ s with
          shown := s.shown.erase e
          printed := s.printed ++ [(s.moduleName entry.nameIndex, entry.addr - entry.baseAddr)] }
            |>.freeEntry e)

end State

/-! ### Steps -/

inductive Event where
  /-- A line of `control` that is for the kernel or for a module. -/
  | addProbe (moduleName : Option Text) (offset : BitVec 64) (registers : Bool)
  /-- The line `clear` of `control`. -/
  | clear
  | fire (e : Nat)
  /-- The workqueue runs its first item. -/
  | work
  | coming (name : Text) (core : BitVec 64) (registers : Nat → Bool)
  | going (name : Text)
  | unlinkNext
  | seqShow (e : Nat)

def step (s : State) : Event → Option State
  | .addProbe moduleName offset registers => some (s.addProbe moduleName offset registers)
  | .clear => some s.clear
  | .fire e => some (s.preHandler e)
  | .work => s.probeWork
  | .coming name core registers => some (s.handleComingModule name core registers)
  | .going name => some (s.handleGoingModule name)
  | .unlinkNext => some s.unlinkNext
  | .seqShow e => s.seqShow e

def run (evs : List Event) : Option State := evs.foldlM step State.init

/-! ### What is meant to hold -/

/-- The number of times that an entry is on one of the lists. -/
def State.links (s : State) (e : Nat) : Nat :=
  s.deferredList.count e + s.pendingList.count e + s.hitList.count e

/-- Every entry that is allocated and not being shown is on exactly one list, the work that is queued
is for pending entries, and no entry was freed twice. -/
structure State.Owned (s : State) : Prop where
  onOneList : ∀ e, (s.entries e).isSome → e ∉ s.shown → s.links e = 1
  queued : ∀ e ∈ s.workqueue, (s.entries e).isSome ∧ e ∈ s.pendingList
  freedOnce : s.freed.Nodup

/-- No work is queued for an entry that the event frees. -/
def SparesQueued (s : State) : Event → Prop
  | .clear => s.workqueue = []
  | .going name => ∀ e ∈ s.workqueue, s.isFor name e = false
  | _ => True

end Kcov.Kernel
