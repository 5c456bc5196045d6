import Kcov.Numbers
import Kcov.SystemMode.Daemon

/-! One process entry: what the daemon makes of an entry that a client creates, and of any other
bytes that it reads. -/

namespace Kcov.SystemMode

open Bytes

variable {host : Endian}

/-! ### Entries of clients -/

/-- `fmt("%s/%d", dir, pid)`, the pipe on which a process waits for the daemon. -/
def readbackPipe (dir : Text) (pid : Nat) : Text := dir ++ ascii "/" ++ decimal pid

/-- The daemon finds in the block of `createProcessEntry` what the client has put there, the size of
the block is the one it writes, and both sides name the same pipe. -/
structure Client.RoundTrips (host : Endian) (c : Client) (pid : BitVec 16) : Prop where
  parsed : parseProcessEntry host (createProcessEntry host (BitVec.ofNat 16 c.pid) c.filename) =
    .ok (pid, c.filename)
  samePid : pid.toNat = c.pid
  size : (entrySize host (createProcessEntry host (BitVec.ofNat 16 c.pid) c.filename)).toNat =
    (createProcessEntry host (BitVec.ofNat 16 c.pid) c.filename).length
  pipe : ∀ dir, readbackPipe dir pid.toNat = readbackPipe dir c.pid

/-- An entry makes the round trip if and only if the process id fits in 16 bits. -/
theorem Client.roundTrips_iff_pid_lt (host : Endian) (c : Client) :
    (∃ pid, c.RoundTrips host pid) ↔ c.pid < 65536 := by
  have hblock : createProcessEntry host (BitVec.ofNat 16 c.pid) c.filename =
      c.header host ++ (c.filename ++ [0]) := c.createProcessEntry_eq
  have hparsed := @parseProcessEntry_entry host c []
  rw [List.append_nil, entry_eq] at hparsed
  constructor
  · rintro ⟨pid, h⟩
    rw [← h.samePid]
    exact pid.isLt
  · intro hpid
    have htoNat : (BitVec.ofNat 16 c.pid).toNat = c.pid := by
      rw [BitVec.toNat_ofNat, Nat.mod_eq_of_lt hpid]
    refine ⟨BitVec.ofNat 16 c.pid, by rw [hblock, hparsed], htoNat, ?_, fun dir => by rw [htoNat]⟩
    rw [hblock, (c.field_header host _).2.2.1]
    simp only [List.length_append, length_header, List.length_singleton]
    omega

/-- The process with the first id that does not fit in 16 bits is taken for the one before it. -/
theorem not_roundTrips_65537 :
    ¬∃ pid, Client.RoundTrips .little ⟨65537, ascii "/a", by decide, by decide⟩ pid := by
  rintro ⟨pid, h⟩
  have hlt := pid.isLt
  have hpid := h.samePid
  dsimp only at hpid
  omega

/-! ### Entries of anyone -/

/-- The buffer of the read loop when `msg` has been read. -/
def received (msg : List Byte) : List Byte := msg ++ zeros (readSize - msg.length)

/-- The decoder stays inside the buffer, and an accepted file name ends inside its entry and inside
what was read. -/
structure DecodesInside (host : Endian) (msg : List Byte) : Prop where
  inside : StaysInside (parseProcessEntry host (received msg))
  terminated : ∀ pid filename, parseProcessEntry host (received msg) = .ok (pid, filename) →
    sizeofProcessEntry + filename.length + 1 ≤ (entrySize host (received msg)).toNat ∧
      sizeofProcessEntry + filename.length + 1 ≤ msg.length

section Received

variable {msg : List Byte}

theorem length_received (h : msg.length ≤ readSize) : (received msg).length = readSize := by
  rw [received, List.length_append, List.length_replicate]
  omega

/-- The byte that is checked is the last one of the entry. -/
theorem filenameSize_add {p : List Byte} (h : 13 ≤ (entrySize host p).toNat) :
    (sizeofProcessEntry : Int) + ((filenameSize host p).toNat - 1) =
      ((entrySize host p).toNat - 1 : Nat) := by
  have hlt := (entrySize host p).isLt
  rw [filenameSize, BitVec.toNat_sub, show (BitVec.ofNat 16 sizeofProcessEntry).toNat = 12 from rfl]
  simp only [sizeofProcessEntry]
  omega

/-- The fields that let an entry through to the check of its end. -/
structure EntryFields (host : Endian) (p : List Byte) : Prop where
  magic : BitVec.ofNat 32 (field host p 0 4) = newProcessMagic
  version : BitVec.ofNat 32 (field host p 4 4) = newProcessVersion
  size : 13 ≤ (entrySize host p).toNat

theorem parseProcessEntry_fields {p : List Byte} (h : EntryFields host p) :
    parseProcessEntry host p = (do
      let last ← inBounds p[(entrySize host p).toNat - 1]?
      refuseIf (last ≠ 0)
      let filename ← inBounds (cStringAt p sizeofProcessEntry)
      return (BitVec.ofNat 16 (field host p 10 2), filename)) := by
  have hsize := h.size
  unfold parseProcessEntry unmarshalProcessEntry
  rw [refuseIf_neg (not_not_intro h.magic), ok_bind, refuseIf_neg (not_not_intro h.version), ok_bind,
    refuseIf_neg (by rw [sizeofProcessEntry]; omega), ok_bind, filenameSize_add hsize,
    byteAt_natCast, bind_assoc]

theorem parseProcessEntry_refused {p : List Byte} (h : ¬EntryFields host p) :
    parseProcessEntry host p = .error .rejected := by
  unfold parseProcessEntry unmarshalProcessEntry
  by_cases hmagic : BitVec.ofNat 32 (field host p 0 4) = newProcessMagic
  · rw [refuseIf_neg (not_not_intro hmagic), ok_bind]
    by_cases hversion : BitVec.ofNat 32 (field host p 4 4) = newProcessVersion
    · have hsize : (entrySize host p).toNat < sizeofProcessEntry + 1 := by
        rw [sizeofProcessEntry]
        exact Nat.lt_of_not_le fun hsize => h ⟨hmagic, hversion, hsize⟩
      rw [refuseIf_neg (not_not_intro hversion), ok_bind, refuseIf_pos hsize]
      rfl
    · rw [refuseIf_pos hversion]
      rfl
  · rw [refuseIf_pos hmagic]
    rfl

/-- The terminator that was checked lies in the file name's part of the buffer. -/
theorem zero_mem_drop {p : List Byte} {i : Nat} (hlow : 12 ≤ i) (h : p[i]? = some 0) :
    0 ∈ p.drop 12 := by
  apply List.mem_of_getElem? (i := i - 12)
  rw [List.getElem?_drop, ← h]
  congr 1
  omega

theorem length_cString_drop_le {p : List Byte} {i : Nat} (hlow : 12 ≤ i) (h : p[i]? = some 0) :
    12 + (cString (p.drop 12)).length ≤ i := by
  have hle : (cString (p.drop 12)).length ≤ i - 12 := by
    apply length_cString_le
    rw [List.getElem?_drop, ← h]
    congr 1
    omega
  omega

/-- A string that starts inside a message ends there if and only if the message has a NUL. -/
theorem length_cString_received (h : 12 ≤ msg.length) (hmax : msg.length < readSize) :
    12 + (cString ((received msg).drop 12)).length + 1 ≤ msg.length ↔ 0 ∈ msg.drop 12 := by
  have hdrop : (received msg).drop 12 = msg.drop 12 ++ zeros (readSize - msg.length) := by
    rw [received, List.drop_append_of_le_length h]
  rw [hdrop]
  constructor
  · intro hle
    refine Decidable.of_not_not fun hmem => ?_
    obtain ⟨k, hk⟩ : ∃ k, readSize - msg.length = k + 1 := ⟨readSize - msg.length - 1, by omega⟩
    rw [hk, zeros, List.replicate_succ, cString_append_zero hmem, List.length_drop] at hle
    omega
  · intro hmem
    obtain ⟨i, hi, hzero⟩ := List.mem_iff_getElem.mp hmem
    have hle : (cString (msg.drop 12 ++ zeros (readSize - msg.length))).length ≤ i := by
      apply length_cString_le
      rw [List.getElem?_append_left hi, List.getElem?_eq_getElem hi, hzero]
    rw [List.length_drop] at hi
    omega

/-- The last byte of an entry that is longer than the message is a zero of the buffer. -/
theorem getElem?_received_behind {i : Nat} (hlow : msg.length ≤ i) (hhigh : i < readSize) :
    (received msg)[i]? = some 0 := by
  rw [received, List.getElem?_append_right hlow, List.getElem?_replicate, if_pos (by omega)]

end Received

/-- What becomes of an entry whose fields are right. -/
theorem parseProcessEntry_received {msg : List Byte} (h : EntryFields host (received msg)) :
    parseProcessEntry host (received msg) =
      match (received msg)[(entrySize host (received msg)).toNat - 1]? with
      | none => .error .outOfBounds
      | some last =>
        if last = 0 then
          .ok (BitVec.ofNat 16 (field host (received msg) 10 2), cString ((received msg).drop 12))
        else .error .rejected := by
  have hsize := h.size
  rw [parseProcessEntry_fields h]
  cases hlast : (received msg)[(entrySize host (received msg)).toNat - 1]? with
  | none => rfl
  | some last =>
    dsimp only
    rw [inBounds_some, ok_bind]
    by_cases hzero : last = 0
    · have hmem : 0 ∈ (received msg).drop 12 := zero_mem_drop (by omega) (hzero ▸ hlast)
      rw [refuseIf_neg (not_not_intro hzero), if_pos hzero, ok_bind, sizeofProcessEntry,
        cStringAt_natCast, if_pos hmem]
      rfl
    · rw [refuseIf_pos hzero, if_neg hzero]
      rfl

/-- The decoder stays inside what was read if and only if an entry whose fields are right is no
longer than the buffer, and has a NUL of its own where it is longer than the message. -/
theorem decodesInside_iff (host : Endian) (msg : List Byte) (hlow : 12 ≤ msg.length)
    (hhigh : msg.length ≤ 4096) :
    DecodesInside host msg ↔
      (EntryFields host (received msg) → (entrySize host (received msg)).toNat ≤ 4096 ∧
        (msg.length < (entrySize host (received msg)).toNat → 0 ∈ msg.drop 12)) := by
  have hlength : (received msg).length = 4096 := length_received hhigh
  by_cases hfields : EntryFields host (received msg)
  swap
  · have hrefused := parseProcessEntry_refused hfields
    refine iff_of_true ⟨?_, fun pid filename hok => ?_⟩ fun h => absurd h hfields
    · rw [hrefused]
      exact staysInside_rejected
    · rw [hrefused] at hok
      cases hok
  have hsize := hfields.size
  have hparse := parseProcessEntry_received hfields
  rw [forall_prop_of_true hfields]
  by_cases hbuffer : (entrySize host (received msg)).toNat ≤ 4096
  swap
  · rw [List.getElem?_eq_none (by omega)] at hparse
    refine iff_of_false (fun h => ?_) fun h => hbuffer h.1
    have hinside := h.inside
    rw [hparse] at hinside
    exact not_staysInside hinside
  rw [and_iff_right hbuffer]
  by_cases hlast : (received msg)[(entrySize host (received msg)).toNat - 1]? = some 0
  · rw [hlast] at hparse
    dsimp only at hparse
    rw [if_pos rfl] at hparse
    have hentry := length_cString_drop_le (by omega) hlast
    constructor
    · intro h hcut
      have hread := (h.terminated _ _ hparse).2
      rw [sizeofProcessEntry] at hread
      exact (length_cString_received hlow (by rw [readSize]; omega)).mp hread
    · intro hnul
      refine ⟨by rw [hparse]; exact staysInside_ok _, fun pid filename hok => ?_⟩
      rw [hparse, Except.ok.injEq, Prod.mk.injEq] at hok
      obtain ⟨-, rfl⟩ := hok
      rw [sizeofProcessEntry]
      refine ⟨by omega, ?_⟩
      rcases Nat.lt_or_ge msg.length (entrySize host (received msg)).toNat with hcut | hwhole
      · exact (length_cString_received hlow (by rw [readSize]; omega)).mpr (hnul hcut)
      · omega
  · have hrejected : parseProcessEntry host (received msg) = .error .rejected := by
      rw [hparse, List.getElem?_eq_getElem (by omega)]
      rw [List.getElem?_eq_getElem (by omega), Option.some_inj] at hlast
      exact if_neg hlast
    refine iff_of_true ⟨?_, fun pid filename hok => ?_⟩ fun hcut => ?_
    · rw [hrejected]
      exact staysInside_rejected
    · rw [hrejected] at hok
      cases hok
    · -- behind the message the buffer holds zeroes
      exact absurd (getElem?_received_behind (by omega) (by rw [readSize]; omega)) hlast

/-- An entry of 12 bytes that claims to be as long as 16 bits allow. -/
def longestEntry : List Byte :=
  [0x12, 0x78, 0x81, 0x76, 1, 0, 0, 0, 0xff, 0xff, 1, 0]

theorem decodesInside_emptyName : DecodesInside .little
    [0x12, 0x78, 0x81, 0x76, 1, 0, 0, 0, 13, 0, 1, 0, 0] :=
  (decodesInside_iff .little _ (by decide) (by decide)).mpr fun _ => ⟨by decide, by decide⟩

/-- The end of the longest entry is looked for behind the buffer. -/
theorem not_decodesInside_longestEntry : ¬DecodesInside .little longestEntry := by
  intro h
  have hfields : EntryFields .little (received longestEntry) := ⟨by decide, by decide, by decide⟩
  have hparse := parseProcessEntry_received hfields
  have hlength : (received longestEntry).length = 4096 := length_received (by decide)
  have hsize : (entrySize .little (received longestEntry)).toNat = 65535 := by decide
  rw [hsize, List.getElem?_eq_none (by omega)] at hparse
  have hinside := h.inside
  rw [hparse] at hinside
  exact not_staysInside hinside

end Kcov.SystemMode
