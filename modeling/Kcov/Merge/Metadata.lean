import Kcov.Lib.Decoder
import Kcov.Merge.Parser

/-! The metadata files of the merge parser: the bytes that are written for a file, and what is read
from any bytes. -/

namespace Kcov

open Bytes

/-! ### The layout -/

def mergeMagic : U32 := 0x4d6f6172
def mergeVersion : U32 := 4

/-- `struct line_entry`. -/
structure LineEntry where
  line : U32
  addressStart : U32
  nAddresses : U32
  deriving DecidableEq, Repr

def LineEntry.encode (e : Endian) (p : LineEntry) : List Byte :=
  e.encode 4 p.line.toNat ++ e.encode 4 p.addressStart.toNat ++ e.encode 4 p.nAddresses.toNat

def LineEntry.decode (e : Endian) (bs : List Byte) : LineEntry where
  line := BitVec.ofNat 32 (field e bs 0 4)
  addressStart := BitVec.ofNat 32 (field e bs 4 4)
  nAddresses := BitVec.ofNat 32 (field e bs 8 4)

/-- `struct file_data` up to its `entries`. -/
structure FileData where
  magic : U32
  version : U32
  size : U32
  checksum : U32
  timestamp : U64
  nEntries : U32
  addressTableOffset : U32
  fileNameOffset : U32
  deriving DecidableEq, Repr

def FileData.encode (e : Endian) (fd : FileData) : List Byte :=
  e.encode 4 fd.magic.toNat ++ e.encode 4 fd.version.toNat ++ e.encode 4 fd.size.toNat ++
    e.encode 4 fd.checksum.toNat ++ e.encode 8 fd.timestamp.toNat ++
    e.encode 4 fd.nEntries.toNat ++ e.encode 4 fd.addressTableOffset.toNat ++
    e.encode 4 fd.fileNameOffset.toNat

def FileData.decode (e : Endian) (bs : List Byte) : FileData where
  magic := BitVec.ofNat 32 (field e bs 0 4)
  version := BitVec.ofNat 32 (field e bs 4 4)
  size := BitVec.ofNat 32 (field e bs 8 4)
  checksum := BitVec.ofNat 32 (field e bs 12 4)
  timestamp := BitVec.ofNat 64 (field e bs 16 8)
  nEntries := BitVec.ofNat 32 (field e bs 24 4)
  addressTableOffset := BitVec.ofNat 32 (field e bs 28 4)
  fileNameOffset := BitVec.ofNat 32 (field e bs 32 4)

def sizeofLineEntry : Nat := 12

/-- `offsetof(struct file_data, entries)`. -/
def offsetofEntries : Nat := 36

/-- `sizeof(struct file_data)`: padded to the alignment of `uint64_t`. -/
def sizeofFileData : Nat := 40

/-- The offset of the address table behind `n` entries, in a block that is aligned for every type. -/
def tableStart (n : Nat) : Nat :=
  let start := offsetofEntries + sizeofLineEntry * n
  if start % 8 ≠ 0 then start + (8 - start % 8) else start

/-! ### Writing -/

/-- The order in which an iteration visits the keys of an `unordered_map` of numbers. -/
structure KeyOrder (w : Nat) where
  order : List (BitVec w) → List (BitVec w)
  perm : ∀ l, (order l).Perm l

/-- What the bytes depend on besides the contents of a file: the byte order of the host, the orders
of the maps, and `get_file_timestamp`. -/
structure MetadataSetup where
  endian : Endian
  files : IterationOrder
  lines : Text → KeyOrder 32
  addrs : Text → U32 → KeyOrder 64
  timestamp : Text → U64

/-- The lines of a file in the order of the loops of `marshalFile`, with the words of their
addresses. -/
def MergeFile.inOrder (md : MetadataSetup) (filename : Text) (file : MergeFile) :
    List (U32 × List U64) :=
  ((md.lines filename).order file.lines.keys).map fun line =>
    (line, ((md.addrs filename line).order (file.lineAddrs line).keys).map fun addr =>
      if file.isHit addr then addr ||| hitBit else addr)

/-- The inner loop of `marshalFile`: the words behind `tableOffset` others. -/
def writeWords (table : Nat) : List U64 → U32 → List Byte → Option (List Byte × U32)
  | [], tableOffset, out => some (out, tableOffset)
  | word :: words, tableOffset, out => do
    let out ← write out (table + 8 * tableOffset.toNat) (Endian.big.encode 8 word.toNat)
    writeWords table words (tableOffset + 1) out

/-- The outer loop of `marshalFile`: the entries from offset `p` on. -/
def writeLines (table : Nat) : List (U32 × List U64) → Nat → U32 → List Byte →
    Option (List Byte × U32)
  | [], _, tableOffset, out => some (out, tableOffset)
  | (line, words) :: lines, p, tableOffset, out => do
    let entry : LineEntry :=
      { line, addressStart := tableOffset, nAddresses := BitVec.ofNat 32 words.length }
    let out ← write out p (entry.encode .big)
    let (out, tableOffset) ← writeWords table words tableOffset out
    writeLines table lines (p + sizeofLineEntry) tableOffset out

/-- `marshalFile`, or `none` where it writes outside the block it allocated. -/
def marshalFile (md : MetadataSetup) (filename : Text) (file : MergeFile) : Option (List Byte) := do
  let lines := file.inOrder md filename
  let nAddrs := BitVec.ofNat 32 (lines.map (·.2.length)).sum
  let size := sizeofFileData + lines.length * sizeofLineEntry + nAddrs.toNat * 8 +
    filename.length + 1 + 8
  let header : FileData :=
    { magic := mergeMagic
      version := mergeVersion
      size := BitVec.ofNat 32 size
      checksum := file.checksum
      timestamp := md.timestamp filename
      nEntries := BitVec.ofNat 32 lines.length
      addressTableOffset := 0
      fileNameOffset := 0 }
  let out ← write (zeros size) 0 (header.encode .big)
  let (out, tableOffset) ← writeLines (tableStart lines.length) lines offsetofEntries 0 out
  let start := BitVec.ofNat 32 (tableStart lines.length)
  let out ← write out 28 (Endian.big.encode 4 start.toNat)
  let name := start.toNat + tableOffset.toNat * 8
  let out ← write out name (cString filename ++ [0])
  write out 32 (Endian.big.encode 4 name)

/-! ### Reading -/

/-- The body of the first loop of `unMarshalFile`, for one entry. -/
def unMarshalEntry (e : Endian) (fd : List Byte) (i : Nat) : Except Stop (List Byte) := do
  let p := offsetofEntries + sizeofLineEntry * i
  let bytes ← inBounds (read fd p sizeofLineEntry)
  inBounds (write fd p ((LineEntry.decode .big bytes).encode e))

/-- The body of the second loop of `unMarshalFile`, for one word of the address table. -/
def unMarshalWord (e : Endian) (table : Nat) (fd : List Byte) (i : Nat) :
    Except Stop (List Byte) := do
  let bytes ← inBounds (read fd (table + 8 * i) 8)
  inBounds (write fd (table + 8 * i) (e.encode 8 (Endian.big.decode bytes)))

/-- The number of words between the address table and the file name, in 32 bits. -/
def wordCount (e : Endian) (fd : List Byte) : Nat :=
  ((FileData.decode e fd).fileNameOffset - (FileData.decode e fd).addressTableOffset).toNat / 8

/-- The second loop of `unMarshalFile`. Its bound is read from `fd` for every word, and the loop ends
or is out of bounds with the first word that does not fit. -/
def unMarshalTable (e : Endian) (table : Nat) (fd : List Byte) : Except Stop (List Byte) :=
  (List.range (fd.length / 8 + 1)).foldlM (whileBelow (wordCount e) (unMarshalWord e table)) fd

/-- `unMarshalFile`: the data in the byte order of the host. -/
def unMarshalFile (e : Endian) (fd : List Byte) : Except Stop (List Byte) := do
  let header := FileData.decode .big fd
  let fd ← inBounds (write fd 0 (header.encode e))
  refuseIf (header.magic ≠ mergeMagic)
  refuseIf (header.version ≠ mergeVersion)
  let fd ← (List.range header.nEntries.toNat).foldlM (unMarshalEntry e) fd
  unMarshalTable e header.addressTableOffset.toNat fd

/-- `addrTable[i]`. -/
def wordAt (e : Endian) (fd : List Byte) (i : U32) : Except Stop U64 := do
  let table := (FileData.decode e fd).addressTableOffset.toNat
  let bytes ← inBounds (read fd (table + 8 * i.toNat) 8)
  return BitVec.ofNat 64 (e.decode bytes)

/-- The line of `fd->entries[i]` and the words of its addresses. -/
def lineAt (e : Endian) (fd : List Byte) (i : Nat) : Except Stop (U32 × List U64) := do
  let bytes ← inBounds (read fd (offsetofEntries + sizeofLineEntry * i) sizeofLineEntry)
  let entry := LineEntry.decode e bytes
  let words ← (List.range entry.nAddresses.toNat).mapM fun ia =>
    wordAt e fd (entry.addressStart + BitVec.ofNat 32 ia)
  return (entry.line, words)

def fileNameIn (e : Endian) (fd : List Byte) : Except Stop Text :=
  inBounds (cStringAt fd (FileData.decode e fd).fileNameOffset.toNat)

def entriesIn (e : Endian) (fd : List Byte) : Except Stop (List (U32 × List U64)) :=
  (List.range (FileData.decode e fd).nEntries.toNat).mapM (lineAt e fd)

/-- `chunk` in `read_file_int`. -/
def readChunk : Nat := 1024

/-- What `read_file` returns: the data, with zeros up to the end of the last chunk. -/
def readFileBlock (data : List Byte) : List Byte :=
  data ++ zeros (readChunk - data.length % readChunk)

/-- A file of a metadata directory. -/
structure StoredFile where
  name : Text
  data : List Byte
  deriving DecidableEq, Repr

namespace MergeParser

/-- `parseFileData` returns before it looks at the entries. -/
def ignores (cfg : MergeSetup) (s : MergeParser) (fileName : Text) (checksum : U32) : Bool :=
  let filename := cfg.mangleSourcePath fileName
  !cfg.host.fileExists filename || (s.files filename).any fun file => file.checksum ≠ checksum

/-- `parseFileData` panics before it looks at the entries: the file is new and cannot be read. -/
def panics (cfg : MergeSetup) (s : MergeParser) (fileName : Text) : Bool :=
  (s.openFile cfg (cfg.mangleSourcePath fileName)).isNone

/-- `parseOne` for the `size` bytes at the start of a block; the parser is `none` where it panics. -/
def parseBlock (e : Endian) (cfg : MergeSetup) (s : MergeParser) (size : Nat) (block : List Byte) :
    Except Stop (Option MergeParser) :=
  if size < sizeofFileData then .ok (some s)
  else
    match unMarshalFile e block with
    | .error .rejected => .ok (some s)
    | .error .outOfBounds => .error .outOfBounds
    | .ok fd => do
      let fileName ← fileNameIn e fd
      let checksum := (FileData.decode e fd).checksum
      if s.ignores cfg fileName checksum then return some s
      if s.panics cfg fileName then return none
      let entries ← entriesIn e fd
      return s.parseFileData cfg { fileName, checksum, entries }

/-- `parseOne` -/
def parseOne (e : Endian) (cfg : MergeSetup) (s : MergeParser) (file : StoredFile) :
    Except Stop (Option MergeParser) :=
  if !stringIsInteger file.name then .ok (some s)
  else s.parseBlock e cfg file.data.length (readFileBlock file.data)

/-- The metadata files of a merge, one after the other. -/
def parseStored (e : Endian) (cfg : MergeSetup) :
    MergeParser → List StoredFile → Except Stop (Option MergeParser)
  | s, [] => .ok (some s)
  | s, file :: files => do
    match ← s.parseOne e cfg file with
    | none => return none
    | some s => parseStored e cfg s files

/-- A directory: its files by name. -/
abbrev Directory := AList fun _ : Text => List Byte

/-- The loop of `onStop` for one file, or `none` where `marshalFile` writes out of bounds. -/
def writeOne (md : MetadataSetup) (cfg : MergeSetup) (inMergeMode : Bool) (s : MergeParser)
    (dir : Directory) (filename : Text) : Option Directory :=
  match s.files filename with
  | none => some dir
  | some file =>
    if !inMergeMode && !file.isLocal then some dir
    else do
      let fd ← marshalFile md filename file
      return dir.insert (hexName (cfg.host.hashBlock filename))
        (fd.take (FileData.decode .big fd).size.toNat)

/-- The loop of `onStop`: what it writes to an empty metadata directory. -/
def writeFiles (md : MetadataSetup) (cfg : MergeSetup) (inMergeMode : Bool) (s : MergeParser) :
    Option Directory :=
  (md.files.order s.fileNames).foldlM (s.writeOne md cfg inMergeMode) ∅

/-- `onStop`, where `stored` are the metadata files of the other directories. -/
def onStop (md : MetadataSetup) (cfg : MergeSetup) (inMergeMode : Bool) (stored : List StoredFile)
    (s : MergeParser) : Except Stop (Option (MergeParser × List StoredFile)) := do
  match ← s.parseStored md.endian cfg stored with
  | none => return none
  | some s =>
    let dir ← inBounds (s.writeFiles md cfg inMergeMode)
    return some (s, dir.entries.map fun file => ⟨file.1, file.2⟩)

end MergeParser

end Kcov
