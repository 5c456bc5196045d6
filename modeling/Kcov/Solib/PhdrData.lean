import Kcov.Lib.Decoder

/-! The messages of the preloaded library: the loaded objects of a process, with their segments, in
one block of memory that is written to a FIFO as it is. -/

namespace Kcov.Solib

open Bytes

def kcovMagic : BitVec 32 := 0x6b636f76
def kcovSolibVersion : BitVec 32 := 3

/-- `sizeof(struct phdr_data)`: the fields take 20 bytes, padded to the alignment of `relocation`. -/
def sizeofPhdrData : Nat := 24

/-- `sizeof(struct phdr_data_entry)`. -/
def sizeofEntry : Nat := 2568

/-- `sizeof(data_area)`. -/
def dataAreaSize : Nat := 4194304

/-- `struct phdr_data_segment`. -/
structure Segment where
  paddr : BitVec 64
  vaddr : BitVec 64
  size : BitVec 64
  deriving DecidableEq, Repr

/-- `struct phdr_data_entry`: a name with its terminator, and up to 64 segments. -/
structure Entry where
  name : List Byte
  segments : List Segment
  nameFits : name.length < 1024
  segmentsFit : segments.length ≤ 64

/-- `struct phdr_data` with its entries, inside `data_area`. -/
structure PhdrData where
  relocation : BitVec 64
  entries : List Entry
  fits : sizeofPhdrData + sizeofEntry * entries.length ≤ dataAreaSize

/-! ### Collecting the objects -/

/-- `ElfW(Phdr)`, the fields that are read. -/
structure Phdr where
  type : BitVec 32
  paddr : BitVec 64
  vaddr : BitVec 64
  memsz : BitVec 64
  deriving DecidableEq, Repr

/-- `struct dl_phdr_info`. -/
structure DlPhdrInfo where
  addr : BitVec 64
  name : List Byte
  phdrs : List Phdr
  deriving DecidableEq, Repr

/-- `PT_LOAD`. -/
def ptLoad : BitVec 32 := 1

/-- `phdr_data_new`. -/
def phdrDataNew (allocSize : Nat) : Option PhdrData :=
  if allocSize > dataAreaSize then none
  else some { relocation := 0, entries := [], fits := by decide }

/-- The segments that `phdr_data_add` collects. -/
def loadSegments (info : DlPhdrInfo) : List Segment :=
  (info.phdrs.filter fun hdr => hdr.type = ptLoad).map fun hdr =>
    { paddr := hdr.paddr, vaddr := info.addr + hdr.vaddr, size := hdr.memsz }

theorem length_take_cString (bs : List Byte) : ((cString bs).take 1023).length < 1024 := by
  rw [List.length_take]
  omega

/-- `phdr_data_add`, or `none` where it writes outside `data_area`: an object with too many segments
is not counted. -/
def phdrDataAdd (p : PhdrData) (info : DlPhdrInfo) : Option PhdrData :=
  if hfits : sizeofPhdrData + sizeofEntry * (p.entries.length + 1) ≤ dataAreaSize then
    if hsegments : (loadSegments info).length ≤ 64 then
      let entry : Entry :=
        { name := (cString info.name).take 1023
          segments := loadSegments info
          nameFits := length_take_cString info.name
          segmentsFit := hsegments }
      some { p with
        entries := p.entries ++ [entry]
        fits := by rw [List.length_append, List.length_singleton]; exact hfits }
    else some p
  else none

def phdrCallback (p : PhdrData) (info : DlPhdrInfo) : Option PhdrData :=
  phdrDataAdd (if p.entries.length = 0 then { p with relocation := info.addr } else p) info

/-- What `parse_solibs` writes for the objects that `dl_iterate_phdr` goes through. -/
def parseSolibs (infos : List DlPhdrInfo) : Option PhdrData := do
  let allocSize := infos.foldl (fun size _ => size + sizeofEntry) sizeofPhdrData
  let p ← phdrDataNew allocSize
  infos.foldlM phdrCallback p

/-! ### The bytes -/

def Segment.encode (host : Endian) (s : Segment) : List Byte :=
  host.encode 8 s.paddr.toNat ++ host.encode 8 s.vaddr.toNat ++ host.encode 8 s.size.toNat

def Entry.encode (host : Endian) (e : Entry) : List Byte :=
  e.name ++ zeros (1024 - e.name.length) ++ host.encode 4 e.segments.length ++ zeros 4 ++
    e.segments.flatMap (Segment.encode host) ++ zeros (24 * (64 - e.segments.length))

/-- What `phdr_data_marshal` returns. -/
def PhdrData.encode (host : Endian) (p : PhdrData) : List Byte :=
  host.encode 4 kcovMagic.toNat ++ host.encode 4 kcovSolibVersion.toNat ++
    host.encode 8 p.relocation.toNat ++ host.encode 4 p.entries.length ++ zeros 4 ++
    p.entries.flatMap (Entry.encode host)

/-- `phdr_data_unmarshal`: the number of entries of a block that is accepted. -/
def phdrDataUnmarshal (host : Endian) (buf : List Byte) : Option Nat :=
  let nEntries := BitVec.ofNat 32 (field host buf 16 4)
  if BitVec.ofNat 32 (field host buf 0 4) ≠ kcovMagic then none
  else if BitVec.ofNat 32 (field host buf 4 4) ≠ kcovSolibVersion then none
  else if nEntries.toNat > 0x10000 then none
  else some nEntries.toNat

theorem Segment.length_encode (host : Endian) (s : Segment) : (s.encode host).length = 24 := by
  simp [Segment.encode]

theorem Entry.length_encode (host : Endian) (e : Entry) : (e.encode host).length = sizeofEntry := by
  have hname := e.nameFits
  have hsegments := e.segmentsFit
  have hflat : (e.segments.flatMap (Segment.encode host)).length = e.segments.length * 24 := by
    rw [List.length_flatMap]
    simp [Segment.length_encode]
  simp only [Entry.encode, List.length_append, hflat, List.length_replicate, Endian.length_encode,
    sizeofEntry]
  omega

theorem PhdrData.length_encode (host : Endian) (p : PhdrData) :
    (p.encode host).length = sizeofPhdrData + sizeofEntry * p.entries.length := by
  have hflat : (p.entries.flatMap (Entry.encode host)).length =
      sizeofEntry * p.entries.length := by
    rw [List.length_flatMap]
    simp [Entry.length_encode, Nat.mul_comm]
  simp only [PhdrData.encode, List.length_append, hflat, List.length_replicate,
    Endian.length_encode, sizeofPhdrData]

/-- A message is accepted, whatever stands behind it. -/
theorem phdrDataUnmarshal_encode (host : Endian) (p : PhdrData) (rest : List Byte) :
    phdrDataUnmarshal host (p.encode host ++ rest) = some p.entries.length := by
  have hfits := p.fits
  unfold sizeofPhdrData sizeofEntry dataAreaSize at hfits
  have hbytes : p.encode host ++ rest = host.encode 4 kcovMagic.toNat ++
      (host.encode 4 kcovSolibVersion.toNat ++ (host.encode 8 p.relocation.toNat ++
        (host.encode 4 p.entries.length ++ (zeros 4 ++ p.entries.flatMap (Entry.encode host) ++
          rest)))) := by
    simp only [PhdrData.encode, List.append_assoc]
  have hmagic : field host (p.encode host ++ rest) 0 4 = kcovMagic.toNat := by
    rw [hbytes, field_encode]
    rfl
  have hversion : field host (p.encode host ++ rest) 4 4 = kcovSolibVersion.toNat := by
    rw [hbytes, field_skip _ _ (by omega), field_encode]
    rfl
  have hn : field host (p.encode host ++ rest) 16 4 = p.entries.length := by
    rw [hbytes, field_skip _ _ (by omega), field_skip _ _ (by omega), field_skip _ _ (by omega),
      field_encode, Nat.mod_eq_of_lt (by omega)]
  have hcount : (BitVec.ofNat 32 p.entries.length).toNat = p.entries.length := by
    rw [BitVec.toNat_ofNat]
    omega
  unfold phdrDataUnmarshal
  simp only [hmagic, hversion, hn, hcount, BitVec.ofNat_toNat, BitVec.setWidth_eq, ne_eq,
    not_true_eq_false, if_false]
  rw [if_neg (by omega)]

/-! ### Staying inside `data_area` -/

theorem phdrDataAdd_eq_some (p : PhdrData) (info : DlPhdrInfo)
    (h : sizeofPhdrData + sizeofEntry * (p.entries.length + 1) ≤ dataAreaSize) :
    ∃ q, phdrDataAdd p info = some q ∧ q.entries.length ≤ p.entries.length + 1 := by
  unfold phdrDataAdd
  rw [dif_pos h]
  split
  · exact ⟨_, rfl, by simp⟩
  · exact ⟨p, rfl, by omega⟩

theorem phdrCallback_eq_some (p : PhdrData) (info : DlPhdrInfo)
    (h : sizeofPhdrData + sizeofEntry * (p.entries.length + 1) ≤ dataAreaSize) :
    ∃ q, phdrCallback p info = some q ∧ q.entries.length ≤ p.entries.length + 1 := by
  unfold phdrCallback
  split
  · exact phdrDataAdd_eq_some { p with relocation := info.addr } info h
  · exact phdrDataAdd_eq_some p info h

theorem foldlM_phdrCallback (infos : List DlPhdrInfo) (p : PhdrData)
    (h : sizeofPhdrData + sizeofEntry * (p.entries.length + infos.length) ≤ dataAreaSize) :
    (infos.foldlM phdrCallback p).isSome := by
  induction infos generalizing p with
  | nil => rfl
  | cons info infos ih =>
    rw [List.length_cons] at h
    have hone : sizeofEntry * (p.entries.length + 1) ≤
        sizeofEntry * (p.entries.length + (infos.length + 1)) := Nat.mul_le_mul_left _ (by omega)
    obtain ⟨q, hq, hlen⟩ := phdrCallback_eq_some p info (by omega)
    have hrest : sizeofEntry * (q.entries.length + infos.length) ≤
        sizeofEntry * (p.entries.length + (infos.length + 1)) := Nat.mul_le_mul_left _ (by omega)
    rw [List.foldlM_cons, hq]
    exact ih q (by omega)

/-- `parse_solibs` never writes outside `data_area`: it writes a message unless the objects are too
many for it. -/
theorem isSome_parseSolibs (infos : List DlPhdrInfo) :
    (parseSolibs infos).isSome ↔ sizeofPhdrData + sizeofEntry * infos.length ≤ dataAreaSize := by
  have hsize : ∀ (infos : List DlPhdrInfo) (size : Nat),
      infos.foldl (fun size _ => size + sizeofEntry) size = size + sizeofEntry * infos.length := by
    intro infos
    induction infos with
    | nil => exact fun _ => rfl
    | cons info infos ih =>
      intro size
      rw [List.foldl_cons, ih, List.length_cons, Nat.mul_add]
      omega
  unfold parseSolibs phdrDataNew
  simp only [hsize, Option.bind_eq_bind]
  constructor
  · intro h
    by_contra hlarge
    rw [if_pos (Nat.not_le.mp hlarge)] at h
    cases h
  · intro h
    rw [if_neg (Nat.not_lt.mpr h), Option.bind_some]
    exact foldlM_phdrCallback infos _ (by rw [List.length_nil, Nat.zero_add]; exact h)

end Kcov.Solib
