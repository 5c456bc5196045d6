import Kcov.Lib.Decoder

/-! Registration messages of the system mode: the process entry that an instrumented program writes
to the daemon's FIFO when it starts. -/

namespace Kcov.SystemMode

open Bytes

def newProcessMagic : BitVec 32 := 0x76817812
def newProcessVersion : BitVec 32 := 1

/-- `sizeof(struct new_process_entry)`: the fields before the file name. -/
def sizeofProcessEntry : Nat := 12

/-- `createProcessEntry`: the size is stored in 16 bits, the block has the size in 32. -/
def createProcessEntry (host : Endian) (pid : BitVec 16) (filename : List Byte) : List Byte :=
  let size := BitVec.ofNat 32 (sizeofProcessEntry + filename.length + 1)
  host.encode 4 newProcessMagic.toNat ++ host.encode 4 newProcessVersion.toNat ++
    host.encode 2 (size.setWidth 16).toNat ++ host.encode 2 pid.toNat ++
    cString filename ++ [0] ++ zeros (filename.length - (cString filename).length)

/-- The `entry_size` field of a process entry. -/
def entrySize (host : Endian) (p : List Byte) : BitVec 16 := BitVec.ofNat 16 (field host p 8 2)

/-- The size of the file name with its terminator, in 16 bits. -/
def filenameSize (host : Endian) (p : List Byte) : BitVec 16 :=
  entrySize host p - BitVec.ofNat 16 sizeofProcessEntry

/-- `unmarshalProcessEntry` on the buffer `p`. -/
def unmarshalProcessEntry (host : Endian) (p : List Byte) : Except Stop Unit := do
  refuseIf (BitVec.ofNat 32 (field host p 0 4) ≠ newProcessMagic)
  refuseIf (BitVec.ofNat 32 (field host p 4 4) ≠ newProcessVersion)
  refuseIf ((entrySize host p).toNat < sizeofProcessEntry + 1)
  let last ← inBounds (byteAt p (sizeofProcessEntry + ((filenameSize host p).toNat - 1 : Int)))
  refuseIf (last ≠ 0)

/-- `parseProcessEntry`: the process id and the file name of the entry at the start of `p`. -/
def parseProcessEntry (host : Endian) (p : List Byte) : Except Stop (BitVec 16 × List Byte) := do
  unmarshalProcessEntry host p
  let filename ← inBounds (cStringAt p sizeofProcessEntry)
  return (BitVec.ofNat 16 (field host p 10 2), filename)

/-- A process that registers: `connectToDaemon` takes its file name from a 4096-byte buffer whose
last byte it clears. -/
structure Client where
  pid : Nat
  filename : List Byte
  noNul : 0 ∉ filename
  fits : filename.length ≤ 4095

namespace Client

/-- The bytes that `connectToDaemon` writes to the FIFO. -/
def entry (host : Endian) (c : Client) : List Byte :=
  let pe := createProcessEntry host (BitVec.ofNat 16 c.pid) c.filename
  pe.take (entrySize host pe).toNat

/-- The process id and file name for which the daemon is to call `processOne`. -/
def request (c : Client) : Nat × List Byte := (c.pid, c.filename)

theorem request_injective : Function.Injective request := by
  rintro ⟨p, f, _, _⟩ ⟨q, g, _, _⟩ h
  cases h
  rfl

end Client

variable {host : Endian}

namespace Client

/-- The bytes of the entry of `c` before the file name. -/
def header (host : Endian) (c : Client) : List Byte :=
  host.encode 4 newProcessMagic.toNat ++ (host.encode 4 newProcessVersion.toNat ++
    (host.encode 2 (13 + c.filename.length) ++ host.encode 2 (BitVec.ofNat 16 c.pid).toNat))

@[simp] theorem length_header (c : Client) : (c.header host).length = 12 := by simp [header]

/-- The fields of a header, whatever follows it. -/
theorem field_header (host : Endian) (c : Client) (rest : List Byte) :
    BitVec.ofNat 32 (field host (c.header host ++ rest) 0 4) = newProcessMagic ∧
      BitVec.ofNat 32 (field host (c.header host ++ rest) 4 4) = newProcessVersion ∧
      (entrySize host (c.header host ++ rest)).toNat = 13 + c.filename.length ∧
      BitVec.ofNat 16 (field host (c.header host ++ rest) 10 2) = BitVec.ofNat 16 c.pid := by
  have hfits := c.fits
  have h4 := fun x : BitVec 32 => ofNat_mod_pow (n := 4) rfl x
  have h2 := fun x : BitVec 16 => ofNat_mod_pow (n := 2) rfl x
  simp only [entrySize, header, List.append_assoc, field_skip, field_encode, Nat.reduceLeDiff,
    Nat.reduceSub, le_refl, h4, h2, true_and, and_true]
  rw [BitVec.toNat_ofNat]
  omega

theorem createProcessEntry_eq (c : Client) :
    createProcessEntry host (BitVec.ofNat 16 c.pid) c.filename =
      c.header host ++ (c.filename ++ [0]) := by
  have hfits := c.fits
  have hsize : ((BitVec.ofNat 32 (12 + c.filename.length + 1)).setWidth 16).toNat =
      13 + c.filename.length := by
    simp only [BitVec.toNat_setWidth, BitVec.toNat_ofNat]
    omega
  simp only [createProcessEntry, header, sizeofProcessEntry, hsize, cString_eq_self c.noNul,
    Nat.sub_self, List.replicate_zero, List.append_nil, List.append_assoc]

theorem entry_eq (c : Client) : c.entry host = c.header host ++ (c.filename ++ [0]) := by
  rw [entry, createProcessEntry_eq, List.take_of_length_le]
  rw [(c.field_header host _).2.2.1]
  simp only [List.length_append, length_header, List.length_singleton]
  omega

theorem length_entry (host : Endian) (c : Client) : (c.entry host).length = 13 + c.filename.length := by
  rw [entry_eq]
  simp only [List.length_append, length_header, List.length_singleton]
  omega

/-- The offset of the last byte of the file name, as the decoder computes it from the header. -/
theorem filenameSize_header (c : Client) (rest : List Byte) :
    (sizeofProcessEntry : Int) + ((filenameSize host (c.header host ++ rest)).toNat - 1) =
      (12 + c.filename.length : Nat) := by
  have hfits := c.fits
  rw [filenameSize, BitVec.toNat_sub, (c.field_header host rest).2.2.1,
    show (BitVec.ofNat 16 sizeofProcessEntry).toNat = 12 from rfl]
  simp only [sizeofProcessEntry]
  omega

/-- Behind a header, the outcome depends on the byte where the file name must end. -/
theorem unmarshalProcessEntry_header (c : Client) (rest : List Byte) :
    unmarshalProcessEntry host (c.header host ++ rest) = (do
      let last ← inBounds (c.header host ++ rest)[12 + c.filename.length]?
      refuseIf (last ≠ 0)) := by
  obtain ⟨hmagic, hversion, hsize, -⟩ := c.field_header host rest
  unfold unmarshalProcessEntry
  rw [refuseIf_neg (by simpa using hmagic), ok_bind, refuseIf_neg (by simpa using hversion),
    ok_bind, refuseIf_neg (by rw [hsize]; simp only [sizeofProcessEntry]; omega), ok_bind,
    filenameSize_header, byteAt_natCast]

theorem parseProcessEntry_entry (c : Client) (rest : List Byte) :
    parseProcessEntry host (c.entry host ++ rest) = .ok (BitVec.ofNat 16 c.pid, c.filename) := by
  have hsplit : c.entry host ++ rest = c.header host ++ (c.filename ++ (zeros 1 ++ rest)) := by
    rw [entry_eq]
    simp
  have hstring : cStringAt (c.entry host ++ rest) (sizeofProcessEntry : Nat) =
      some c.filename := by
    rw [hsplit]
    exact cStringAt_append (by simp [sizeofProcessEntry]) c.noNul (by omega)
  have hlast : (c.entry host ++ rest)[12 + c.filename.length]? = some 0 := by
    rw [hsplit, ← List.append_assoc]
    exact getElem?_zeros (by simp) (by simp)
  have hpid := (c.field_header host (c.filename ++ (zeros 1 ++ rest))).2.2.2
  unfold parseProcessEntry
  rw [hsplit, unmarshalProcessEntry_header, ← hsplit, hlast, inBounds_some, ok_bind,
    refuseIf_neg (by simp), ok_bind, hstring, inBounds_some, ok_bind, hsplit, hpid]
  rfl

/-- An entry that is cut by the end of the buffer makes the decoder look behind it. -/
theorem parseProcessEntry_cut (host : Endian) (c : Client) {n : Nat} (hlow : 12 ≤ n)
    (hcut : n < (c.entry host).length) :
    parseProcessEntry host ((c.entry host).take n) = .error .outOfBounds := by
  have hsplit : (c.entry host).take n = c.header host ++ (c.filename ++ [0]).take (n - 12) := by
    rw [entry_eq, List.take_append, List.take_of_length_le (by simpa using hlow), length_header]
  have hnone : (c.header host ++ (c.filename ++ [0]).take (n - 12))[12 + c.filename.length]? =
      none := by
    rw [length_entry] at hcut
    rw [List.getElem?_eq_none_iff]
    simp only [List.length_append, length_header, List.length_take, List.length_singleton]
    omega
  unfold parseProcessEntry
  rw [hsplit, unmarshalProcessEntry_header, hnone]
  rfl

end Client

end Kcov.SystemMode
