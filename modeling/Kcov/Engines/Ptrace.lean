import Kcov.Lib.Words

/-! The ptrace engine: patching breakpoints into the text of the traced processes, one aligned word
at a time, and restoring what was there. -/

namespace Kcov.Ptrace

open Bytes

/-- The branches of `arch_setupBreakpoint`. -/
inductive Arch where
  | i386
  | x86_64
  | powerpc
  | arm
  | aarch64
  | riscv64
  | loongarch64
  | sparc64
  deriving DecidableEq, Repr

namespace Arch

/-- `sizeof(unsigned long)`. -/
def wordSize : Arch → Nat
  | .i386 | .powerpc | .arm => 4
  | .x86_64 | .aarch64 | .riscv64 | .loongarch64 | .sparc64 => 8

def byteOrder : Arch → Endian
  | .powerpc | .sparc64 => .big
  | .i386 | .x86_64 | .arm | .aarch64 | .riscv64 | .loongarch64 => .little

end Arch

def getAligned (wordSize addr : Nat) : Nat := addr / wordSize * wordSize

section Patching

variable {w : Nat}

/-- `arch_setupBreakpoint`, with words of `w` bits. -/
def archSetupBreakpoint (arch : Arch) (addr : Nat) (oldData : BitVec w) : BitVec w :=
  let shift := 8 * (addr - getAligned (w / 8) addr)
  match arch with
  | .i386 | .x86_64 => (oldData &&& ~~~(0xff#w <<< shift)) ||| (0xcc#w <<< shift)
  | .powerpc => 0x7fe00008#w
  | .arm => 0xfedeffe7#w
  | .aarch64 => (oldData &&& ~~~(0xffffffff#w <<< shift)) ||| (0xd4200000#w <<< shift)
  | .riscv64 => 0x00100073#w
  | .loongarch64 => (oldData &&& ~~~(0xffffffff#w <<< shift)) ||| (0x002a0004#w <<< shift)
  | .sparc64 => (oldData &&& ~~~(0xffffffff#w <<< shift)) ||| (0x91d02001#w <<< shift)

/-- `arch_clearBreakpoint`, with words of `w` bits. -/
def archClearBreakpoint (arch : Arch) (addr : Nat) (oldData curData : BitVec w) : BitVec w :=
  match arch with
  | .i386 | .x86_64 =>
    let shift := 8 * (addr - getAligned (w / 8) addr)
    let oldByte := (oldData >>> shift) &&& 0xff#w
    (curData &&& ~~~(0xff#w <<< shift)) ||| (oldByte <<< shift)
  | _ => oldData

end Patching

/-- The engine and the text of each process that it traces. -/
structure Tracer (arch : Arch) where
  instructionMap : Nat → Option (BitVec (8 * arch.wordSize))
  pendingBreakpoints : List Nat
  activeChild : Nat
  memory : Nat → Memory

namespace Tracer

variable {arch : Arch}

/-- `start`: every process that will be traced has the same text. -/
def start (arch : Arch) (text : Memory) (child : Nat) : Tracer arch :=
  { instructionMap := fun _ => none
    pendingBreakpoints := []
    activeChild := child
    memory := fun _ => text }

def peekWord (s : Tracer arch) (pid addr : Nat) : BitVec (8 * arch.wordSize) :=
  loadWord arch.byteOrder arch.wordSize (s.memory pid) addr

def pokeWord (s : Tracer arch) (pid addr : Nat) (val : BitVec (8 * arch.wordSize)) : Tracer arch :=
  { s with
    memory := Function.update s.memory pid
      (storeWord arch.byteOrder arch.wordSize (s.memory pid) addr val) }

/-- The tracer after the call and the returned value. -/
def registerBreakpoint (s : Tracer arch) (addr : Nat) : Tracer arch × Int :=
  if addr = 0 then (s, -1)
  else if (s.instructionMap addr).isSome then (s, 0)
  else
    let data := s.peekWord s.activeChild (getAligned arch.wordSize addr)
    ({ s with
       instructionMap := Function.update s.instructionMap addr (some data)
       pendingBreakpoints := s.pendingBreakpoints ++ [addr] }, 0)

/-- The tracer after the call and the returned value. -/
def clearBreakpoint (s : Tracer arch) (addr : Nat) : Tracer arch × Bool :=
  match s.instructionMap addr with
  | none => (s, false)
  | some saved =>
    let aligned := getAligned arch.wordSize addr
    let val := archClearBreakpoint arch addr saved (s.peekWord s.activeChild aligned)
    (s.pokeWord s.activeChild aligned val, true)

/-- The body of the loop in `setupAllBreakpoints`. -/
def setupBreakpoint (s : Tracer arch) (addr : Nat) : Tracer arch :=
  let aligned := getAligned arch.wordSize addr
  s.pokeWord s.activeChild aligned
    (archSetupBreakpoint arch addr (s.peekWord s.activeChild aligned))

def setupAllBreakpoints (s : Tracer arch) : Tracer arch :=
  { s.pendingBreakpoints.foldl setupBreakpoint s with pendingBreakpoints := [] }

end Tracer

/-- What happens to a tracer and its processes. -/
inductive Event where
  /-- The parser or the solib handler registers a breakpoint. -/
  | register (addr : Nat)
  /-- The start of `continueExecution`. -/
  | setupAll
  /-- `waitEvent` returns with a stop of a process. -/
  | stop (pid : Nat)
  /-- The end of `continueExecution`, after a trap of the active process. -/
  | clear (addr : Nat)
  /-- A process starts with a copy of another one's memory. -/
  | fork (parent child : Nat)
  deriving DecidableEq, Repr

namespace Tracer

variable {arch : Arch}

def step (s : Tracer arch) : Event → Tracer arch
  | .register addr => (s.registerBreakpoint addr).1
  | .setupAll => s.setupAllBreakpoints
  | .stop pid => { s with activeChild := pid }
  | .clear addr => (s.clearBreakpoint addr).1
  | .fork parent child =>
    { s with memory := Function.update s.memory child (s.memory parent) }

def run (arch : Arch) (text : Memory) (child : Nat) (evs : List Event) : Tracer arch :=
  evs.foldl step (start arch text child)

end Tracer

end Kcov.Ptrace
