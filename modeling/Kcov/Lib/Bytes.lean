import Mathlib.Data.List.Basic
import Mathlib.Data.List.TakeWhile
import Mathlib.Tactic.Ring

/-! Byte strings: the two byte orders of fixed-width integers, NUL-terminated strings, and
buffers whose reads and writes fail outside their bounds. -/

namespace Bytes

abbrev Byte := BitVec 8

/-- The bytes of a literal whose characters are all ASCII. -/
def ascii (s : String) : List Byte := s.toList.map fun c => BitVec.ofNat 8 c.toNat

/-! ### Byte orders -/

/-- The order of the bytes of an integer in memory. -/
inductive Endian where
  | little
  | big
  deriving DecidableEq, Repr

/-- The `n` low bytes of `v`, the least significant first. -/
def littleBytes : Nat → Nat → List Byte
  | 0, _ => []
  | n + 1, v => BitVec.ofNat 8 v :: littleBytes n (v / 256)

/-- The number whose bytes are `bs`, the least significant first. -/
def littleValue : List Byte → Nat
  | [] => 0
  | b :: bs => b.toNat + 256 * littleValue bs

/-- The `n` low bytes of `v` in the order `e`. -/
def Endian.encode (e : Endian) (n v : Nat) : List Byte :=
  match e with
  | .little => littleBytes n v
  | .big => (littleBytes n v).reverse

/-- The number whose bytes in the order `e` are `bs`. -/
def Endian.decode (e : Endian) (bs : List Byte) : Nat :=
  match e with
  | .little => littleValue bs
  | .big => littleValue bs.reverse

@[simp] theorem length_littleBytes (n v : Nat) : (littleBytes n v).length = n := by
  induction n generalizing v with
  | zero => rfl
  | succ n ih => simp [littleBytes, ih]

theorem littleValue_littleBytes (n v : Nat) : littleValue (littleBytes n v) = v % 256 ^ n := by
  induction n generalizing v with
  | zero => simp [littleBytes, littleValue, Nat.mod_one]
  | succ n ih =>
    rw [littleBytes, littleValue, ih, pow_succ', Nat.mod_mul]
    simp

theorem littleValue_lt (bs : List Byte) : littleValue bs < 256 ^ bs.length := by
  induction bs with
  | nil => simp [littleValue]
  | cons b bs ih =>
    have hb := b.isLt
    rw [littleValue, List.length_cons, pow_succ']
    omega

@[simp] theorem Endian.length_encode (e : Endian) (n v : Nat) : (e.encode n v).length = n := by
  cases e <;> simp [Endian.encode]

theorem Endian.decode_encode (e : Endian) (n v : Nat) : e.decode (e.encode n v) = v % 256 ^ n := by
  cases e <;> simp [Endian.encode, Endian.decode, littleValue_littleBytes]

/-! ### NUL-terminated strings -/

/-- The string that a pointer to `bs` denotes: the bytes before the first NUL. -/
def cString (bs : List Byte) : List Byte := bs.takeWhile (· ≠ 0)

theorem zero_notMem_cString (bs : List Byte) : 0 ∉ cString bs := by
  intro h
  simpa using List.mem_takeWhile_imp h

theorem length_cString (bs : List Byte) : (cString bs).length ≤ bs.length :=
  (List.takeWhile_prefix _).length_le

theorem cString_eq_self {bs : List Byte} (h : 0 ∉ bs) : cString bs = bs := by
  rw [cString, List.takeWhile_eq_self_iff]
  intro b hb
  simpa using fun hz : b = 0 => h (hz ▸ hb)

theorem cString_append_zero {bs : List Byte} (h : 0 ∉ bs) (rest : List Byte) :
    cString (bs ++ 0 :: rest) = bs := by
  rw [cString, List.takeWhile_append_of_pos]
  · simp
  · intro b hb
    simpa using fun hz : b = 0 => h (hz ▸ hb)

theorem cString_concat_zero (bs : List Byte) : cString (bs ++ [0]) = cString bs := by
  unfold cString
  induction bs with
  | nil => rfl
  | cons b bs ih =>
    rw [List.cons_append, List.takeWhile_cons, List.takeWhile_cons, ih]

theorem cString_append_of_mem {bs : List Byte} (h : 0 ∈ bs) (rest : List Byte) :
    cString (bs ++ rest) = cString bs := by
  unfold cString
  induction bs with
  | nil => simp at h
  | cons b bs ih =>
    rw [List.cons_append, List.takeWhile_cons, List.takeWhile_cons]
    split
    next hb =>
      have hne : (0 : Byte) ≠ b := fun hz => by simp [← hz] at hb
      rw [ih ((List.mem_cons.mp h).resolve_left hne)]
    next => rfl

theorem length_cString_le {bs : List Byte} {i : Nat} (h : bs[i]? = some 0) :
    (cString bs).length ≤ i := by
  induction bs generalizing i with
  | nil => simp at h
  | cons b bs ih =>
    cases i with
    | zero =>
      have hb : b = 0 := by simpa using h
      simp [cString, hb]
    | succ i =>
      have hrest := ih (by simpa using h)
      by_cases hb : b = 0
      · simp [cString, hb]
      · have hcons : cString (b :: bs) = b :: cString bs :=
          List.takeWhile_cons_of_pos (by simpa using hb)
        rw [hcons, List.length_cons]
        omega

/-! ### Buffers -/

/-- The `n` bytes from offset `off` on, when they lie inside the buffer. -/
def read (buf : List Byte) (off n : Nat) : Option (List Byte) :=
  if off + n ≤ buf.length then some ((buf.drop off).take n) else none

/-- `data` copied to offset `off`, when it fits inside the buffer. -/
def write (buf : List Byte) (off : Nat) (data : List Byte) : Option (List Byte) :=
  if off + data.length ≤ buf.length then
    some (buf.take off ++ data ++ buf.drop (off + data.length))
  else none

theorem read_eq_some {buf : List Byte} {off n : Nat} {out : List Byte} :
    read buf off n = some out ↔ off + n ≤ buf.length ∧ out = (buf.drop off).take n := by
  unfold read
  split <;> simp_all [eq_comm]

theorem write_eq_some {buf data out : List Byte} {off : Nat} :
    write buf off data = some out ↔ off + data.length ≤ buf.length ∧
      out = buf.take off ++ data ++ buf.drop (off + data.length) := by
  unfold write
  split <;> simp_all [eq_comm]

theorem length_write {buf data out : List Byte} {off : Nat} (h : write buf off data = some out) :
    out.length = buf.length := by
  obtain ⟨hfit, rfl⟩ := write_eq_some.mp h
  simp only [List.length_append, List.length_take, List.length_drop]
  omega

/-- Writes one after the other, each with its offset. -/
def writeAll (buf : List Byte) (ws : List (Nat × List Byte)) : Option (List Byte) :=
  ws.foldlM (fun buf w => write buf w.1 w.2) buf

/-- A sequence of writes succeeds exactly if each of them fits. -/
theorem writeAll_isSome {buf : List Byte} {ws : List (Nat × List Byte)} :
    (writeAll buf ws).isSome ↔ ∀ w ∈ ws, w.1 + w.2.length ≤ buf.length := by
  induction ws generalizing buf with
  | nil => simp [writeAll]
  | cons w ws ih =>
    rw [writeAll, List.foldlM_cons, List.forall_mem_cons]
    cases hw : write buf w.1 w.2 with
    | none =>
      have hnot : ¬w.1 + w.2.length ≤ buf.length := fun h => by
        rw [write, if_pos h] at hw
        cases hw
      simp [hnot]
    | some out =>
      rw [Option.bind_eq_bind, Option.bind_some, ← writeAll, ih, length_write hw]
      exact (and_iff_right (write_eq_some.mp hw).1).symm

/-- A write changes the bytes it covers and no others. -/
theorem getElem?_write {buf data out : List Byte} {off : Nat} (h : write buf off data = some out)
    (i : Nat) :
    out[i]? = if off ≤ i ∧ i < off + data.length then data[i - off]? else buf[i]? := by
  obtain ⟨hfit, rfl⟩ := write_eq_some.mp h
  have htake : (buf.take off).length = off := by simp; omega
  rcases Nat.lt_or_ge i off with hlow | hlow
  · rw [if_neg (by omega), List.append_assoc, List.getElem?_append_left (by omega),
      List.getElem?_take_of_lt hlow]
  rcases Nat.lt_or_ge i (off + data.length) with hmid | hhigh
  · rw [if_pos ⟨hlow, hmid⟩, List.append_assoc, List.getElem?_append_right (by omega), htake,
      List.getElem?_append_left (by omega)]
  · rw [if_neg (by omega), List.getElem?_append_right (by simp; omega), List.getElem?_drop]
    congr 1
    simp only [List.length_append, htake]
    omega

theorem drop_take_write {buf data out : List Byte} {off : Nat}
    (h : write buf off data = some out) : (out.drop off).take data.length = data := by
  obtain ⟨hfit, rfl⟩ := write_eq_some.mp h
  have htake : (buf.take off).length = off := by simp; omega
  rw [List.append_assoc, List.drop_left' htake, List.take_left' rfl]

theorem take_drop_congr {a b : List Byte} {off n : Nat}
    (h : ∀ j, off ≤ j → j < off + n → a[j]? = b[j]?) : (a.drop off).take n = (b.drop off).take n := by
  apply List.ext_getElem?
  intro j
  rw [List.getElem?_take, List.getElem?_take]
  split
  next hj => rw [List.getElem?_drop, List.getElem?_drop, h _ (by omega) (by omega)]
  next => rfl

/-- The bytes `bs` stand at offset `off`. -/
def StandsAt (buf : List Byte) (off : Nat) (bs : List Byte) : Prop :=
  (buf.drop off).take bs.length = bs

section StandsAt

variable {buf out bs data : List Byte} {off p : Nat}

theorem standsAt_write (h : write buf off data = some out) : StandsAt out off data :=
  drop_take_write h

theorem standsAt_append {a b : List Byte} :
    StandsAt buf off (a ++ b) ↔ StandsAt buf off a ∧ StandsAt buf (off + a.length) b := by
  have hsplit : (buf.drop off).take (a.length + b.length) =
      (buf.drop off).take a.length ++ (buf.drop (off + a.length)).take b.length := by
    rw [List.take_add, List.drop_drop]
  unfold StandsAt
  rw [List.length_append, hsplit]
  constructor
  · intro h
    have hlen : ((buf.drop off).take a.length).length ≤ a.length := List.length_take_le _ _
    have hlen' : ((buf.drop (off + a.length)).take b.length).length ≤ b.length :=
      List.length_take_le _ _
    have hsum := congrArg List.length h
    rw [List.length_append, List.length_append] at hsum
    exact List.append_inj h (by omega)
  · rintro ⟨ha, hb⟩
    rw [ha, hb]

theorem StandsAt.read (h : StandsAt buf off bs) (hle : off + bs.length ≤ buf.length) :
    read buf off bs.length = some bs := by
  rw [read_eq_some]
  exact ⟨hle, h.symm⟩

/-- A write elsewhere leaves the bytes where they are. -/
theorem StandsAt.write (hbs : StandsAt buf p bs) (h : write buf off data = some out)
    (hdisjoint : p + bs.length ≤ off ∨ off + data.length ≤ p) : StandsAt out p bs := by
  have hsame : (out.drop p).take bs.length = (buf.drop p).take bs.length :=
    take_drop_congr fun j hlow hhigh => by rw [getElem?_write h, if_neg (by omega)]
  exact hsame.trans hbs

/-- A string with its terminator is read as it is. -/
theorem StandsAt.cString_drop (h : StandsAt buf off (bs ++ [0])) (hbs : 0 ∉ bs) :
    0 ∈ buf.drop off ∧ cString (buf.drop off) = bs := by
  have hdrop : buf.drop off = bs ++ 0 :: (buf.drop off).drop (bs ++ [0]).length := by
    have hsplit := List.take_append_drop (bs ++ [0]).length (buf.drop off)
    unfold StandsAt at h
    rw [h, List.append_assoc] at hsplit
    exact hsplit.symm
  rw [hdrop, cString_append_zero hbs]
  exact ⟨by simp, rfl⟩

end StandsAt

/-- `n` zero bytes. -/
abbrev zeros (n : Nat) : List Byte := List.replicate n 0

/-- A write into the zeroed tail of a buffer, `gap` bytes after its start. -/
theorem write_zeros {front data : List Byte} {off n : Nat} (gap rest : Nat)
    (hoff : off = front.length + gap) (hn : n = gap + data.length + rest) :
    write (front ++ zeros n) off data = some (front ++ zeros gap ++ data ++ zeros rest) := by
  subst hoff hn
  rw [write_eq_some]
  refine ⟨by simp; omega, ?_⟩
  have htake : (front ++ zeros (gap + data.length + rest)).take (front.length + gap) =
      front ++ zeros gap := by
    rw [List.take_append, List.take_of_length_le (by omega), Nat.add_sub_cancel_left,
      List.take_replicate, Nat.min_eq_left (by omega)]
  have hdrop : (front ++ zeros (gap + data.length + rest)).drop
      (front.length + gap + data.length) = zeros rest := by
    rw [List.drop_append, List.drop_of_length_le (by omega), List.nil_append, List.drop_replicate]
    congr 1
    omega
  rw [htake, hdrop]

theorem write_zeros_string {front s : List Byte} {off n : Nat} (gap rest : Nat)
    (hoff : off = front.length + gap) (hn : n = gap + s.length + rest) (hrest : 0 < rest) :
    write (front ++ zeros n) off (s ++ [0]) = some (front ++ zeros gap ++ s ++ zeros rest) := by
  obtain ⟨k, rfl⟩ : ∃ k, rest = k + 1 := ⟨rest - 1, by omega⟩
  rw [write_zeros gap k hoff (by simp; omega)]
  simp [List.replicate_succ]

theorem write_zeros_zeros {front : List Byte} {off k n : Nat} (hlow : front.length ≤ off)
    (hhigh : off + k ≤ front.length + n) :
    write (front ++ zeros n) off (zeros k) = some (front ++ zeros n) := by
  rw [write_zeros (off - front.length) (n - (off - front.length) - k) (by omega)
    (by simp; omega)]
  simp only [List.append_assoc, List.replicate_append_replicate]
  congr 3
  omega

/-! ### Accesses through a pointer

A pointer into a buffer is an offset that may lie before its start. -/

/-- The byte at offset `i`. -/
def byteAt (buf : List Byte) (i : Int) : Option Byte :=
  if 0 ≤ i then buf[i.toNat]? else none

/-- The `n` bytes from offset `off` on. -/
def bytesAt (buf : List Byte) (off : Int) (n : Nat) : Option (List Byte) :=
  if 0 ≤ off then read buf off.toNat n else none

/-- The NUL-terminated string at offset `off`; its terminator must lie inside the buffer. -/
def cStringAt (buf : List Byte) (off : Int) : Option (List Byte) :=
  if 0 ≤ off ∧ 0 ∈ buf.drop off.toNat then some (cString (buf.drop off.toNat)) else none

@[simp] theorem byteAt_natCast (buf : List Byte) (i : Nat) : byteAt buf i = buf[i]? := by
  simp [byteAt]

@[simp] theorem bytesAt_natCast (buf : List Byte) (off n : Nat) :
    bytesAt buf off n = read buf off n := by
  simp [bytesAt]

theorem bytesAt_isSome {buf : List Byte} {off : Int} {n : Nat} :
    (bytesAt buf off n).isSome ↔ 0 ≤ off ∧ off + n ≤ buf.length := by
  unfold bytesAt read
  split
  · split
    · simp
      omega
    · simp
      omega
  next h => simp [h]

theorem length_bytesAt {buf out : List Byte} {off : Int} {n : Nat}
    (h : bytesAt buf off n = some out) : out.length = n := by
  unfold bytesAt at h
  split at h
  · obtain ⟨hle, rfl⟩ := read_eq_some.mp h
    rw [List.length_take, List.length_drop]
    omega
  · cases h

theorem cStringAt_natCast (buf : List Byte) (off : Nat) :
    cStringAt buf off = if 0 ∈ buf.drop off then some (cString (buf.drop off)) else none := by
  simp [cStringAt]

theorem cStringAt_nonneg {buf s : List Byte} {off : Int} (h : cStringAt buf off = some s) :
    0 ≤ off := by
  unfold cStringAt at h
  exact (Option.ite_none_right_eq_some.mp h).1.1

theorem cStringAt_isSome {buf : List Byte} {off i : Int} (hoff : 0 ≤ off) (hi : off ≤ i)
    (hzero : byteAt buf i = some 0) : (cStringAt buf off).isSome := by
  obtain ⟨k, rfl⟩ := Int.eq_ofNat_of_zero_le hoff
  obtain ⟨n, rfl⟩ := Int.eq_ofNat_of_zero_le (hoff.trans hi)
  rw [byteAt_natCast] at hzero
  have hmem : 0 ∈ buf.drop k := by
    refine List.mem_of_getElem? (i := n - k) ?_
    rw [List.getElem?_drop, ← hzero]
    congr 1
    omega
  rw [cStringAt_natCast, if_pos hmem]
  rfl

theorem length_of_cStringAt {buf s : List Byte} {off : Int} {i : Nat}
    (h : cStringAt buf off = some s) (hzero : byteAt buf (off + i) = some 0) : s.length ≤ i := by
  unfold cStringAt at h
  split at h
  · rename_i hoff
    cases h
    obtain ⟨k, rfl⟩ := Int.eq_ofNat_of_zero_le hoff.1
    rw [← Int.natCast_add, byteAt_natCast] at hzero
    apply length_cString_le
    rw [Int.toNat_natCast, List.getElem?_drop]
    exact hzero
  · cases h

/-! ### Longer buffers

An access that is inside a buffer is the same with more bytes behind them. -/

section Longer

variable {buf data out s : List Byte} {off n : Nat}

theorem read_longer (h : read buf off n = some out) (rest : List Byte) :
    read (buf ++ rest) off n = some out := by
  obtain ⟨hle, rfl⟩ := read_eq_some.mp h
  rw [read_eq_some, List.length_append, List.drop_append_of_le_length (by omega),
    List.take_append_of_le_length (by rw [List.length_drop]; omega)]
  exact ⟨by omega, rfl⟩

theorem write_longer (h : write buf off data = some out) (rest : List Byte) :
    write (buf ++ rest) off data = some (out ++ rest) := by
  obtain ⟨hle, rfl⟩ := write_eq_some.mp h
  rw [write_eq_some, List.length_append, List.take_append_of_le_length (by omega),
    List.drop_append_of_le_length hle, List.append_assoc _ _ rest]
  exact ⟨by omega, rfl⟩

theorem cStringAt_longer {off : Int} (h : cStringAt buf off = some s) (rest : List Byte) :
    cStringAt (buf ++ rest) off = some s := by
  unfold cStringAt at h ⊢
  obtain ⟨⟨hoff, hmem⟩, hs⟩ := Option.ite_none_right_eq_some.mp h
  have hle : off.toNat ≤ buf.length := by
    have hpos := List.length_pos_of_mem hmem
    rw [List.length_drop] at hpos
    omega
  rw [List.drop_append_of_le_length hle, if_pos ⟨hoff, List.mem_append_left _ hmem⟩,
    cString_append_of_mem hmem, hs]

end Longer

theorem read_append {front part rest : List Byte} {off n : Nat} (hoff : off = front.length)
    (hn : n = part.length) : read (front ++ (part ++ rest)) off n = some part := by
  subst hoff hn
  rw [read_eq_some, List.drop_left, List.take_left]
  exact ⟨by simp, rfl⟩

theorem write_append {front old new rest : List Byte} {off : Nat} (hoff : off = front.length)
    (hlen : new.length = old.length) :
    write (front ++ (old ++ rest)) off new = some (front ++ (new ++ rest)) := by
  subst hoff
  rw [write_eq_some, hlen, List.take_left, ← List.append_assoc front old rest,
    List.drop_left' (by simp), List.append_assoc front old rest]
  exact ⟨by simp, (List.append_assoc _ _ _).symm⟩

section Chunks

variable {α : Type} {f : α → List Byte} {k : Nat}

theorem length_flatMap_of_length (hf : ∀ x, (f x).length = k) (l : List α) :
    (l.flatMap f).length = k * l.length := by
  induction l with
  | nil => rfl
  | cons x l ih =>
    rw [List.flatMap_cons, List.length_append, hf, ih, List.length_cons]
    ring

theorem read_flatMap (hf : ∀ x, (f x).length = k) {front rest : List Byte} {off i : Nat}
    (l : List α) (hoff : off = front.length + k * i) (hi : i < l.length) :
    read (front ++ (l.flatMap f ++ rest)) off k = some (f l[i]) := by
  have hsplit : l.flatMap f = (l.take i).flatMap f ++ (f l[i] ++ (l.drop (i + 1)).flatMap f) := by
    rw [← List.flatMap_cons, ← List.flatMap_append, List.getElem_cons_drop,
      List.take_append_drop]
  have hlen := length_flatMap_of_length hf (l.take i)
  rw [List.length_take, Nat.min_eq_left (by omega)] at hlen
  rw [hsplit, List.append_assoc, ← List.append_assoc front, List.append_assoc (f l[i])]
  exact read_append (by rw [List.length_append, hlen, hoff]) (hf _).symm

end Chunks

/-- Reading a string that is padded with at least one zero. -/
theorem cStringAt_append {front s rest : List Byte} {off k : Nat} (hoff : off = front.length)
    (hs : 0 ∉ s) (hk : 0 < k) :
    cStringAt (front ++ (s ++ (zeros k ++ rest))) off = some s := by
  subst hoff
  obtain ⟨k, rfl⟩ : ∃ j, k = j + 1 := ⟨k - 1, by omega⟩
  have hzeros : zeros (k + 1) ++ rest = 0 :: (zeros k ++ rest) := rfl
  rw [cStringAt_natCast, List.drop_left, hzeros, cString_append_zero hs, if_pos (by simp)]

theorem StandsAt.cStringAt {buf bs : List Byte} {off : Nat} (h : StandsAt buf off (bs ++ [0]))
    (hbs : 0 ∉ bs) : cStringAt buf off = some bs := by
  obtain ⟨hmem, heq⟩ := h.cString_drop hbs
  rw [cStringAt_natCast, if_pos hmem, heq]

theorem getElem?_zeros {front rest : List Byte} {i k : Nat} (hlow : front.length ≤ i)
    (hhigh : i < front.length + k) : (front ++ (zeros k ++ rest))[i]? = some 0 := by
  rw [List.getElem?_append_right hlow, List.getElem?_append_left (by simp; omega),
    List.getElem?_replicate, if_pos (by omega)]

end Bytes
