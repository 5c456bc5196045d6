import Kcov.Lib.Decoder

/-! Processed files of the system mode: a binary followed by its file name, the recorded options,
the breakpoint addresses and a trailer that locates them from the end. -/

namespace Kcov.SystemMode

open Bytes

/-! ### The trailer -/

def trailerMagic : BitVec 32 := 0x19992000
def trailerVersion : BitVec 32 := 1

/-- `struct trailer`. -/
structure Trailer where
  magic : BitVec 32
  version : BitVec 32
  compressedSize : BitVec 32
  uncompressedSize : BitVec 32
  id : BitVec 32
  filenameSize : BitVec 32
  optionsSize : BitVec 32
  nEntries : BitVec 16
  deriving DecidableEq, Repr

/-- `sizeof(struct trailer)`: the fields take 30 bytes, padded to the alignment of `uint32_t`. -/
def sizeofTrailer : Nat := 32

/-- The fields of a trailer as they stand in memory, without the padding. -/
def Trailer.encode (host : Endian) (t : Trailer) : List Byte :=
  host.encode 4 t.magic.toNat ++ host.encode 4 t.version.toNat ++
    host.encode 4 t.compressedSize.toNat ++ host.encode 4 t.uncompressedSize.toNat ++
    host.encode 4 t.id.toNat ++ host.encode 4 t.filenameSize.toNat ++
    host.encode 4 t.optionsSize.toNat ++ host.encode 2 t.nEntries.toNat

/-- The trailer that stands in the bytes `bs`. -/
def Trailer.decode (host : Endian) (bs : List Byte) : Trailer where
  magic := BitVec.ofNat 32 (field host bs 0 4)
  version := BitVec.ofNat 32 (field host bs 4 4)
  compressedSize := BitVec.ofNat 32 (field host bs 8 4)
  uncompressedSize := BitVec.ofNat 32 (field host bs 12 4)
  id := BitVec.ofNat 32 (field host bs 16 4)
  filenameSize := BitVec.ofNat 32 (field host bs 20 4)
  optionsSize := BitVec.ofNat 32 (field host bs 24 4)
  nEntries := BitVec.ofNat 16 (field host bs 28 2)

/-- `unmarshalTrailer`. -/
def unmarshalTrailer (t : Trailer) : Bool :=
  if t.magic ≠ trailerMagic then false
  else if t.version ≠ trailerVersion then false
  else if t.filenameSize &&& 7 ≠ 0 then false
  else if t.optionsSize &&& 7 ≠ 0 then false
  else true

def padTo8 (sz : Nat) : Nat := if sz % 8 ≠ 0 then sz + (8 - sz % 8) else sz

/-! ### The file -/

/-- `SystemModeFile`; the length of `data` is `m_fileSize`. -/
structure SystemModeFile where
  filename : List Byte
  options : List Byte
  id : BitVec 32
  data : List Byte
  entries : List (BitVec 64)
  deriving DecidableEq, Repr

/-- `std::vector::resize` with value-initialized new elements. -/
def resize (l : List (BitVec 64)) (n : Nat) : List (BitVec 64) :=
  l.take n ++ List.replicate (n - l.length) 0

/-- `addEntry`; `index + 1` is computed in 32 bits, and the store is out of bounds if it wraps. -/
def SystemModeFile.addEntry (f : SystemModeFile) (index : BitVec 32) (value : BitVec 64) :
    Option SystemModeFile :=
  let entries :=
    if f.entries.length ≤ index.toNat then resize f.entries (index + 1).toNat else f.entries
  if index.toNat < entries.length then
    some { f with entries := entries.set index.toNat value }
  else none

/-- A sequence of `addEntry` calls. -/
def SystemModeFile.addEntries (f : SystemModeFile) (calls : List (BitVec 32 × BitVec 64)) :
    Option SystemModeFile :=
  calls.foldlM (fun f call => f.addEntry call.1 call.2) f

/-- `fromRawFile`: `parse` keeps a raw file as it is and refuses an empty one. -/
def fromRawFile (id : BitVec 32) (filename options fileData : List Byte) :
    Option SystemModeFile :=
  if fileData.length = 0 then none
  else some { filename, options, id, data := fileData, entries := [] }

/-- The bytes of the entry table. -/
def entryBytes (host : Endian) (entries : List (BitVec 64)) : List Byte :=
  entries.flatMap fun e => host.encode 8 e.toNat

/-- The sizes that `getProcessedData` computes, in the types of the source. -/
structure Layout where
  padded : Nat
  filenameSize : BitVec 32
  optionsSize : BitVec 32
  uncompressedSize : BitVec 32
  compressedSize : BitVec 32

def SystemModeFile.layout (f : SystemModeFile) : Layout :=
  -- `compressEntries` stores the entries as they are
  let uncompressedSize := BitVec.ofNat 32 (f.entries.length * 8)
  { padded := padTo8 f.data.length
    filenameSize := BitVec.ofNat 32 (padTo8 (f.filename.length + 1))
    optionsSize := BitVec.ofNat 32 (padTo8 (f.options.length + 1))
    uncompressedSize
    compressedSize := BitVec.ofNat 32 (padTo8 uncompressedSize.toNat) }

def Layout.options (l : Layout) : Nat := l.padded + l.filenameSize.toNat

def Layout.entries (l : Layout) : Nat := l.options + l.optionsSize.toNat

def Layout.trailerStart (l : Layout) : Nat := l.entries + l.compressedSize.toNat

def Layout.outSize (l : Layout) : Nat := l.trailerStart + sizeofTrailer

def SystemModeFile.trailer (f : SystemModeFile) : Trailer where
  magic := trailerMagic
  version := trailerVersion
  compressedSize := f.layout.compressedSize
  uncompressedSize := f.layout.uncompressedSize
  id := f.id
  filenameSize := f.layout.filenameSize
  optionsSize := f.layout.optionsSize
  nEntries := BitVec.ofNat 16 f.entries.length

/-- `getProcessedData`, or `none` when it writes outside the block it allocated. -/
def SystemModeFile.getProcessedData (host : Endian) (f : SystemModeFile) : Option (List Byte) :=
  if f.entries.length = 0 then some f.data
  else do
    let l := f.layout
    let out := zeros l.outSize
    let out ← write out 0 f.data
    let out ← write out l.padded (cString f.filename ++ [0])
    -- the source indexes `options` with the size of the file name here
    let out ← write out (l.options + (l.filenameSize - 1).toNat) [0]
    let out ← write out l.options (cString f.options ++ [0])
    let out ← write out (l.options + (l.optionsSize - 1).toNat) [0]
    let out ← write out l.entries (entryBytes host f.entries)
    write out l.trailerStart (f.trailer.encode host)

/-- `uncompressEntries`: a zeroed block of `uncompressedSize` bytes that `data` is copied into. -/
def uncompressEntries (data : List Byte) (uncompressedSize : Nat) : Option (List Byte) :=
  write (zeros uncompressedSize) 0 data

/-- The loop of `parse` that takes the first `n` values of the uncompressed block. -/
def takeEntries (host : Endian) (block : List Byte) (n : Nat) (f : SystemModeFile) :
    Except Stop SystemModeFile :=
  (List.range n).foldlM (fun f i => do
    let bytes ← inBounds (read block (8 * i) 8)
    inBounds (f.addEntry (BitVec.ofNat 32 i) (BitVec.ofNat 64 (host.decode bytes)))) f

/-- The first half of `parse`: the trailer at the end of a processed file, for a buffer at address
`base`. -/
def parseTrailer (host : Endian) (base : Nat) (fileData : List Byte) : Except Stop Trailer := do
  refuseIf (fileData.length = 0)
  refuseIf ((base + ((fileData.length : Int) - sizeofTrailer)) % 8 ≠ 0)
  let bytes ← inBounds (bytesAt fileData (fileData.length - sizeofTrailer) sizeofTrailer)
  refuseIf (unmarshalTrailer (Trailer.decode host bytes) = false)
  return Trailer.decode host bytes

/-- The second half of `parse`: the parts that the trailer locates before itself. -/
def parseParts (host : Endian) (fileData : List Byte) (trailer : Trailer) (trailerStart : Int) :
    Except Stop SystemModeFile := do
  refuseIf ((trailer.filenameSize + trailer.optionsSize + trailer.compressedSize).toNat >
    fileData.length + sizeofTrailer)
  let entries : Int := trailerStart - trailer.compressedSize.toNat
  let options : Int := entries - trailer.optionsSize.toNat
  let filename : Int := options - trailer.filenameSize.toNat
  let filenameEnd ← inBounds (byteAt fileData (filename + (trailer.filenameSize - 1).toNat))
  refuseIf (filenameEnd ≠ 0)
  let optionsEnd ← inBounds (byteAt fileData (options + (trailer.optionsSize - 1).toNat))
  refuseIf (optionsEnd ≠ 0)
  let mFilename ← inBounds (cStringAt fileData filename)
  let mOptions ← inBounds (cStringAt fileData options)
  let compressed ← inBounds (bytesAt fileData entries trailer.compressedSize.toNat)
  let block ← inBounds (uncompressEntries compressed trailer.uncompressedSize.toNat)
  takeEntries host block trailer.nEntries.toNat
    { filename := mFilename, options := mOptions, id := trailer.id, data := fileData, entries := [] }

/-- `fromProcessedFile`: `parse` of a processed file held in a buffer at address `base`. -/
def fromProcessedFile (host : Endian) (base : Nat) (fileData : List Byte) :
    Except Stop SystemModeFile := do
  let trailer ← parseTrailer host base fileData
  parseParts host fileData trailer (fileData.length - sizeofTrailer)

end Kcov.SystemMode
