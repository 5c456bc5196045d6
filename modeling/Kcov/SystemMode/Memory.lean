import Kcov.Engines.Engine
import Kcov.SystemMode.FileData

/-! The hits of a system-mode process: a bitmap in shared memory, the file that it is written to, the
side that sets its bits and the side that reports them. -/

namespace Kcov.SystemMode

open Bytes

def systemModeFileMagic : BitVec 32 := 0x4d455247
def systemModeFileVersion : BitVec 32 := 1

/-- `sizeof(struct system_mode_file)`. -/
def sizeofSystemModeFile : Nat := 24

/-- `system_mode_memory`: as many words of the bitmap as `n_entries` says, and the two counters. -/
structure SystemModeMemory where
  filename : List Byte
  options : List Byte
  nEntries : BitVec 32
  data : List (BitVec 32)
  dirtyCount : BitVec 32
  cleanCount : BitVec 32
  size : data.length = nEntries.toNat

namespace SystemModeMemory

/-- The constructor, or `none` where `n_entries + 2` wraps, so that the counters lie outside the
mapping. -/
def new (fn opts : List Byte) (n : BitVec 32) : Option SystemModeMemory :=
  if n.toNat + 2 < 2 ^ 32 then
    some
      { filename := fn
        options := opts
        nEntries := n
        data := List.replicate n.toNat 0
        dirtyCount := 0
        cleanCount := 0
        size := List.length_replicate }
  else none

def indexIsHit (m : SystemModeMemory) (index : BitVec 32) : Bool :=
  match m.data[(index / 32).toNat]? with
  | none => false
  | some cur => cur &&& (1#32 <<< (index % 32).toNat) ≠ 0

/-- `reportIndex` of a process that runs alone. -/
def reportIndex (m : SystemModeMemory) (index : BitVec 32) : SystemModeMemory :=
  if m.indexIsHit index || m.data.length ≤ (index / 32).toNat then m
  else
    { m with
      data := m.data.modify (index / 32).toNat fun val => val ||| (1#32 <<< (index % 32).toNat)
      dirtyCount := m.dirtyCount + 1
      size := (List.length_modify _ _ _).trans m.size }

def isDirty (m : SystemModeMemory) : Bool := m.dirtyCount ≠ m.cleanCount

def markClean (m : SystemModeMemory) : SystemModeMemory := { m with cleanCount := m.dirtyCount }

end SystemModeMemory

/-! ### The file -/

/-- The bytes of the words of a bitmap. -/
def wordBytes (host : Endian) (words : List (BitVec 32)) : List Byte :=
  words.flatMap fun w => host.encode 4 w.toNat

/-- `memoryToFile`, or `none` where it writes outside the block that it allocated. The block holds
`junk` at first: the checksum of the header is never set. -/
def memoryToFile (host : Endian) (junk : Nat → Byte) (m : SystemModeMemory) : Option (List Byte) := do
  let outSize := sizeofSystemModeFile + m.nEntries.toNat * 4 + m.filename.length +
    m.options.length + 2
  let filenameOffset := BitVec.ofNat 32 (m.nEntries.toNat * 4 + sizeofSystemModeFile)
  let kcovOptionsOffset := BitVec.ofNat 32 (filenameOffset.toNat + m.filename.length + 1)
  let out := (List.range outSize).map junk
  let out ← write out 0 (host.encode 4 systemModeFileMagic.toNat ++
    host.encode 4 systemModeFileVersion.toNat ++ host.encode 4 m.nEntries.toNat)
  let out ← write out 16
    (host.encode 4 filenameOffset.toNat ++ host.encode 4 kcovOptionsOffset.toNat)
  let out ← write out filenameOffset.toNat (cString m.filename ++ [0])
  let out ← write out kcovOptionsOffset.toNat (cString m.options ++ [0])
  -- an offset that has wrapped around leads into the header, whose number of entries is read here
  let data ← read (wordBytes host (m.data ++ [m.dirtyCount, m.cleanCount])) 0 (field host out 8 4 * 4)
  write out sizeofSystemModeFile data

/-- The `n` words that stand at the start of `bs`. -/
def decodeWords (host : Endian) : Nat → List Byte → List (BitVec 32)
  | 0, _ => []
  | n + 1, bs => BitVec.ofNat 32 (field host bs 0 4) :: decodeWords host n (bs.drop 4)

theorem length_decodeWords (host : Endian) (n : Nat) (bs : List Byte) :
    (decodeWords host n bs).length = n := by
  induction n generalizing bs with
  | zero => rfl
  | succ n ih => exact congrArg (· + 1) (ih _)

/-- `fileToMemory`. -/
def fileToMemory (host : Endian) (file : List Byte) : Except Stop SystemModeMemory := do
  let _ ← inBounds (read file 0 sizeofSystemModeFile)
  let nEntries := BitVec.ofNat 32 (field host file 8 4)
  let filenameOffset := BitVec.ofNat 32 (field host file 16 4)
  let kcovOptionsOffset := BitVec.ofNat 32 (field host file 20 4)
  refuseIf (BitVec.ofNat 32 (field host file 0 4) ≠ systemModeFileMagic)
  refuseIf (BitVec.ofNat 32 (field host file 4 4) ≠ systemModeFileVersion)
  refuseIf (filenameOffset.toNat < sizeofSystemModeFile + nEntries.toNat * 4)
  refuseIf (kcovOptionsOffset < filenameOffset + 1)
  let filename ← inBounds (cStringAt file filenameOffset.toNat)
  let options ← inBounds (cStringAt file kcovOptionsOffset.toNat)
  let out ← inBounds (SystemModeMemory.new filename options nEntries)
  let data ← inBounds (read file sizeofSystemModeFile (nEntries.toNat * 4))
  return { out with
    nEntries := nEntries
    data := decodeWords host nEntries.toNat data
    size := length_decodeWords _ _ _ }

/-! ### Setting bits -/

namespace ProcessHandler

/-- `m_indexByAddress` after `attach`: the last index of an address is kept. -/
def attach (entries : List (BitVec 64)) : BitVec 64 → Option (BitVec 32) :=
  entries.zipIdx.foldl (fun m (addr, i) => Function.update m addr (some (BitVec.ofNat 32 i)))
    fun _ => none

def onEvent (indexByAddress : BitVec 64 → Option (BitVec 32)) (output : SystemModeMemory)
    (ev : EngineEvent (BitVec 64)) : SystemModeMemory :=
  if ev.type = .breakpoint then
    match indexByAddress ev.addr with
    | none => output
    | some index => output.reportIndex index
  else output

end ProcessHandler

/-! ### Reporting -/

namespace SystemModeEngine

/-- `m_indexToAddress` after a call of `registerBreakpoint` for each of the addresses. -/
def registerBreakpoints (addrs : List (BitVec 64)) : List (BitVec 64) :=
  addrs.foldl (fun m addr => m ++ [addr]) []

/-- The indices that the loop of `handleReadFile` visits; their number is computed in 32 bits. -/
def visited (results : SystemModeMemory) : List (BitVec 32) :=
  (List.range (results.nEntries * 32).toNat).map (BitVec.ofNat 32)

/-- The addresses of the breakpoint events that `handleReadFile` reports, or `none` where an index is
outside `m_indexToAddress`. -/
def handleReadFile (indexToAddress : List (BitVec 64)) (results : SystemModeMemory) :
    Option (List (BitVec 64)) :=
  ((visited results).filter results.indexIsHit).mapM fun i => indexToAddress[i.toNat]?

/-- The same for the file that the daemon wrote: nothing is reported for a file that is refused. -/
def readResults (host : Endian) (indexToAddress : List (BitVec 64)) (file : List Byte) :
    Option (List (BitVec 64)) :=
  match fileToMemory host file with
  | .ok results => handleReadFile indexToAddress results
  | .error .rejected => some []
  | .error .outOfBounds => none

end SystemModeEngine

/-- The addresses that are reported for the events of a process: the daemon sets bits for the entries
of `sysFile`, writes them to a file, and an engine with the breakpoints `addrs` reads it. -/
def reportedAddresses (host : Endian) (junk : Nat → Byte) (sysFile : SystemModeFile)
    (addrs : List (BitVec 64)) (events : List (EngineEvent (BitVec 64))) :
    Option (List (BitVec 64)) := do
  let output ← SystemModeMemory.new sysFile.filename sysFile.options
    (BitVec.ofNat 32 sysFile.entries.length)
  let output := events.foldl (ProcessHandler.onEvent (ProcessHandler.attach sysFile.entries)) output
  let file ← memoryToFile host junk output
  SystemModeEngine.readResults host (SystemModeEngine.registerBreakpoints addrs) file

end Kcov.SystemMode
