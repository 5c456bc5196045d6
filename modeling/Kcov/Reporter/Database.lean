import Kcov.Lib.Decoder
import Kcov.Reporter.State

/-! The coverage database: the hit addresses of a reporter as bytes, and taking them in again. -/

namespace Kcov

open Bytes

/-- An address with hits: its line, its position among the addresses of the line, and the hits. -/
structure Entry where
  addr : U64
  lineId : U64
  index : U64
  hits : U64
  deriving DecidableEq, Repr

namespace Entry

/-- The four words that `Line::marshal` writes. -/
def encode (e : Entry) : List Byte :=
  Endian.big.encode 8 e.addr.toNat ++ (Endian.big.encode 8 e.lineId.toNat ++
    (Endian.big.encode 8 e.index.toNat ++ Endian.big.encode 8 e.hits.toNat))

/-- The four words that `Line::unMarshal` reads at the start of `p`. -/
def decode (p : List Byte) : Entry :=
  let word := fun off => BitVec.ofNat 64 (field .big p off 8)
  { addr := word 0, lineId := word 8, index := word 16, hits := word 24 }

end Entry

def marshalEntrySize : Nat := 32
def marshalHeaderSize : Nat := 16
def kcovMagic : U32 := 0x6b636f76
def kcovDbVersion : U32 := 6

/-- The entries of a line: the index is counted in 32 bits, the hits are sign-extended. -/
def Line.entries (l : Line) : List Entry :=
  l.addrs.zipIdx.filterMap fun (p, i) =>
    if p.2 = 0 then none
    else some
      { addr := p.1
        lineId := l.lineId
        index := (BitVec.ofNat 32 i).setWidth 64
        hits := p.2.signExtend 64 }

def File.entries (f : File) : List Entry := f.lines.reduceOption.flatMap Line.entries

/-- `File::marshalSize`, which is in bytes. -/
def File.marshalSize (f : File) : Nat := marshalEntrySize * f.entries.length

/-- The big-endian integer of `n` bytes at offset `off`, or `none` behind the end of the data. -/
def bigAt (data : List Byte) (off n : Nat) : Option Nat :=
  (Bytes.read data off n).map Endian.big.decode

/-- `Line::unMarshal`, which reads four words at offset `off`. -/
def Line.unMarshal (data : List Byte) (off : Nat) : Option Entry := do
  let addr ← bigAt data off 8
  let lineId ← bigAt data (off + 8) 8
  let index ← bigAt data (off + 16) 8
  let hits ← bigAt data (off + 24) 8
  return {
    addr := BitVec.ofNat 64 addr
    lineId := BitVec.ofNat 64 lineId
    index := BitVec.ofNat 64 index
    hits := BitVec.ofNat 64 hits }

/-- The order in which an iteration visits the keys of an `unordered_map`. -/
structure IterationOrder where
  order : List Text → List Text
  perm : ∀ l, (order l).Perm l

namespace Reporter

/-- The files in the order in which the loops over `m_files` visit them. -/
def filesInOrder (s : Reporter) (it : IterationOrder) : List File :=
  (it.order s.fileNames).filterMap s.files

def entries (s : Reporter) (it : IterationOrder) : List Entry :=
  (s.filesInOrder it).flatMap File.entries

/-- `getMarshalSize`, which takes the size in bytes for a number of entries. -/
def getMarshalSize (s : Reporter) (it : IterationOrder) : Nat :=
  ((s.filesInOrder it).map File.marshalSize).sum * marshalEntrySize + marshalHeaderSize

def marshalHeader (cfg : ReporterSetup) : List Byte :=
  Endian.big.encode 4 kcovMagic.toNat ++ (Endian.big.encode 4 kcovDbVersion.toNat ++
    Endian.big.encode 8 cfg.checksum.toNat)

/-- `marshal`: the header and the entries at the start of a block of zeroes. -/
def marshal (cfg : ReporterSetup) (s : Reporter) (it : IterationOrder) : List Byte :=
  let data := marshalHeader cfg ++ (s.entries it).flatMap Entry.encode
  data ++ zeros (s.getMarshalSize it - data.length)

/-- Whether the header matches. The fields are read one after the other, up to the first that
differs. -/
def unMarshalHeader (cfg : ReporterSetup) (p : List Byte) : Option Bool := do
  let magic ← bigAt p 0 4
  if BitVec.ofNat 32 magic ≠ kcovMagic then return false
  let version ← bigAt p 4 4
  if BitVec.ofNat 32 version ≠ kcovDbVersion then return false
  let checksum ← bigAt p 8 8
  if BitVec.ofNat 64 checksum ≠ cfg.checksum then return false
  return true

/-- The entries that the loop of `unMarshal` reads, `n` of them. -/
def decodeEntries : Nat → List Byte → List Entry
  | 0, _ => []
  | n + 1, p => Entry.decode p :: decodeEntries n (p.drop marshalEntrySize)

/-- The entries of a database, behind its header. -/
def databaseEntries (data : List Byte) : List Entry :=
  decodeEntries ((data.length - marshalHeaderSize) / marshalEntrySize)
    (data.drop marshalHeaderSize)

/-- What the loop of `unMarshal` does with an entry. -/
def loadEntry (cfg : ReporterSetup) (s : Reporter) (e : Entry) : Reporter :=
  if e.hits = 0 then s
  else
    match s.addrToLine e.addr with
    | [] =>
      match s.lineIdToFile e.lineId with
      | none =>
        { s with
          pendingFiles := Function.update s.pendingFiles e.lineId
            (s.pendingFiles e.lineId ++ [⟨e.index, e.hits⟩]) }
      | some ref =>
        (s.notify (.onAddress e.lineId e.hits)).modifyLine ref
          fun line => line.registerHitIndex e.index e.hits
    | _ :: _ => s.onAddressHit cfg e.addr e.hits

/-- The loop of `unMarshal`, over the `n` entries from offset `off` on. -/
def loadEntries (cfg : ReporterSetup) (data : List Byte) : Nat → Nat → Reporter → Option Reporter
  | 0, _, s => some s
  | n + 1, off, s => do
    let e ← Line.unMarshal data off
    loadEntries cfg data n (off + marshalEntrySize) (s.loadEntry cfg e)

/-- `unMarshal`: the reporter and whether the header matched, or `none` where a byte behind the end
of the data is read. -/
def unMarshal (cfg : ReporterSetup) (s : Reporter) (data : List Byte) :
    Option (Reporter × Bool) := do
  let found ← unMarshalHeader cfg data
  if !found then return (s, false)
  -- the difference does not wrap around, since the header has been read
  let n := (data.length - marshalHeaderSize) / marshalEntrySize
  let s ← loadEntries cfg data n marshalHeaderSize s
  return (s, true)

/-- `onFile`: the database is read when the first file is added. -/
def onFile (cfg : ReporterSetup) (s : Reporter) : Option Reporter :=
  if s.unmarshallingDone then some s
  else if !cfg.cleanOutput then
    match cfg.database with
    | none => some { s with unmarshallingDone := true }
    | some data => do
      let (s, _) ← s.unMarshal cfg data
      return { s with unmarshallingDone := true }
  else some { s with unmarshallingDone := true }

/-- A call of the parser or of the collector. -/
inductive Event where
  | file
  | line (file : Text) (lineNr : U32) (addr : U64)
  | hit (addr hits : U64)
  deriving DecidableEq, Repr

def step (cfg : ReporterSetup) (s : Reporter) : Event → Option Reporter
  | .file => s.onFile cfg
  | .line file lineNr addr => s.onLine cfg file lineNr addr
  | .hit addr hits => some (s.onAddressHit cfg addr hits)

/-- A new reporter after a sequence of calls. -/
def run (cfg : ReporterSetup) (evs : List Event) : Option Reporter :=
  evs.foldlM (step cfg) (create cfg)

end Reporter

end Kcov
