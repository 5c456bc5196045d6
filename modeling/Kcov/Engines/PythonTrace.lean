import Kcov.Engines.Python

/-! The file names in the trace of the python helper, which are packed with the number of their
characters and read as bytes. -/

namespace Kcov.Python

open Bytes

/-! ### The helper -/

/-- `bytes(file, "utf-8")`. -/
def utf8 (file : List Char) : List Byte :=
  file.flatMap fun c => (String.utf8EncodeChar c).map UInt8.toBitVec

/-- The field `%ds` of `struct.pack`: the string is cut off or filled with zeroes. -/
def packString (n : Nat) (s : List Byte) : List Byte := s.take n ++ zeros (n - s.length)

/-- `report_trace_real` of Python 3, with a size that fits in 32 bits. -/
def reportTraceReal (file : List Char) (line : BitVec 32) : List Byte :=
  let size := file.length + 1 + 8 + 4 + 4
  Endian.big.encode 8 coverageMagic.toNat ++ Endian.big.encode 4 size ++
    Endian.big.encode 4 line.toNat ++ (packString file.length (utf8 file) ++ [0])

/-- A line that was executed. The file name has no NUL and fits in the buffer of `checkEvents`. -/
structure TraceLine where
  file : List Char
  line : BitVec 32
  noNul : Char.ofNat 0 ∉ file
  short : (utf8 file).length < 8000

/-! ### The engine -/

/-- Up to `n` calls of `readCoverageDatum`, until one of them returns NULL. -/
def readCoverageData (ahead : Nat → Nat × Nat) : Nat → Stream → List (List Byte × BitVec 32)
  | 0, _ => []
  | n + 1, f =>
    if f.eof then []
    else
      match readCoverageDatum f (ahead n) with
      | .ok (some (some p, f)) =>
        match p.filename with
        | some filename => (filename, p.line) :: readCoverageData ahead n f
        | none => []
      | _ => []

/-- The FIFO when the helper has written its lines and closed it. -/
def traced (ts : List TraceLine) : Stream where
  buffer := []
  pipe := ts.flatMap fun t => reportTraceReal t.file t.line
  closed := true
  eof := false

/-- The engine reads the lines that the helper wrote, and then finds the end of the file. -/
def RoundTrips (ts : List TraceLine) : Prop :=
  ∀ ahead n, ts.length < n →
    readCoverageData ahead n (traced ts) = ts.map fun t => (utf8 t.file, t.line)

/-! ### UTF-8 -/

section Utf8

variable {file : List Char}

theorem length_utf8 : (utf8 file).length = (file.map Char.utf8Size).sum := by
  simp [utf8, List.length_flatMap]

theorem length_le_utf8 (file : List Char) : file.length ≤ (utf8 file).length := by
  rw [length_utf8]
  induction file with
  | nil => exact le_rfl
  | cons c file ih =>
    have hc := c.utf8Size_pos
    rw [List.length_cons, List.map_cons, List.sum_cons]
    omega

/-- A string has as many bytes as characters if and only if all of them are ASCII characters. -/
theorem length_utf8_le_iff : (utf8 file).length ≤ file.length ↔ ∀ c ∈ file, c.toNat < 128 := by
  rw [length_utf8]
  induction file with
  | nil => simp
  | cons c file ih =>
    have hc := c.utf8Size_pos
    have hrest := length_utf8 ▸ length_le_utf8 file
    have hone : c.utf8Size = 1 ↔ c.toNat < 128 := by
      rw [Char.utf8Size_eq_one_iff, UInt32.le_iff_toNat_le]
      exact Nat.lt_succ_iff.symm
    rw [List.forall_mem_cons, ← ih, ← hone, List.length_cons, List.map_cons, List.sum_cons]
    omega

/-- The bytes of a character are zero only for NUL. -/
theorem utf8EncodeChar_ne_zero {c : Char} (hc : c ≠ Char.ofNat 0) {b : UInt8}
    (hb : b ∈ String.utf8EncodeChar c) : b.toNat ≠ 0 := by
  have hval : c.val.toNat ≠ 0 := by
    intro hzero
    apply hc
    rw [← c.ofNat_toNat]
    exact congrArg Char.ofNat hzero
  unfold String.utf8EncodeChar at hb
  dsimp only at hb
  -- One byte is the character itself, and the bytes of longer ones have their first bit set.
  split at hb
  next hone =>
    rw [List.mem_singleton.mp hb, UInt8.toNat_ofNat']
    omega
  next =>
    obtain ⟨k, hlow, hhigh, rfl⟩ : ∃ k, 128 ≤ k ∧ k < 256 ∧ b = UInt8.ofNat k := by
      split at hb
      · simp only [List.mem_cons, List.not_mem_nil, or_false] at hb
        rcases hb with rfl | rfl <;> exact ⟨_, by omega, by omega, rfl⟩
      split at hb
      · simp only [List.mem_cons, List.not_mem_nil, or_false] at hb
        rcases hb with rfl | rfl | rfl <;> exact ⟨_, by omega, by omega, rfl⟩
      · simp only [List.mem_cons, List.not_mem_nil, or_false] at hb
        rcases hb with rfl | rfl | rfl | rfl <;> exact ⟨_, by omega, by omega, rfl⟩
    rw [UInt8.toNat_ofNat']
    omega

theorem zero_notMem_utf8 (h : Char.ofNat 0 ∉ file) : 0 ∉ utf8 file := by
  intro hmem
  obtain ⟨c, hc, hzero⟩ := List.mem_flatMap.mp hmem
  obtain ⟨b, hb, hbits⟩ := List.mem_map.mp hzero
  have hne : c ≠ Char.ofNat 0 := fun heq => h (heq ▸ hc)
  exact utf8EncodeChar_ne_zero hne hb (congrArg BitVec.toNat hbits)

end Utf8

/-! ### Reading the lines -/

section Read

/-- The file name that is packed. -/
def TraceLine.packed (t : TraceLine) : List Byte := (utf8 t.file).take t.file.length

variable (t : TraceLine)

theorem TraceLine.packString_eq : packString t.file.length (utf8 t.file) = t.packed := by
  have hle := length_le_utf8 t.file
  rw [packString, Nat.sub_eq_zero_of_le hle]
  exact List.append_nil _

theorem TraceLine.length_packed : t.packed.length = t.file.length :=
  List.length_take_of_le (length_le_utf8 t.file)

/-- What is written is a datum, whose file name is cut off after as many bytes as it has
characters. -/
def TraceLine.datum : Datum where
  filename := t.packed
  line := t.line
  fits := by
    have hle := length_le_utf8 t.file
    have hshort := t.short
    rw [t.length_packed]
    omega

theorem TraceLine.reportTraceReal_eq : reportTraceReal t.file t.line = t.datum.encode := by
  rw [reportTraceReal, t.packString_eq, Datum.encode, Datum.size]
  simp only [datum, t.length_packed]

theorem TraceLine.datum_size : t.datum.size < bufSize := by
  have hle := length_le_utf8 t.file
  have hshort := t.short
  rw [Datum.size, datum, t.length_packed, bufSize]
  omega

theorem TraceLine.cString_packed : cString t.packed = t.packed :=
  cString_eq_self fun h => zero_notMem_utf8 t.noNul (List.mem_of_mem_take h)

/-- The lines stay apart, whatever their names are. -/
theorem readCoverageData_eq (ahead : Nat → Nat × Nat) {ts : List TraceLine} {f : Stream}
    (hpending : f.pending = ts.flatMap fun t => reportTraceReal t.file t.line)
    (hclosed : f.closed = true) (heof : f.eof = false) {n : Nat} (hn : ts.length < n) :
    readCoverageData ahead n f = ts.map fun t => (t.packed, t.line) := by
  induction ts generalizing f n with
  | nil =>
    obtain ⟨n, rfl⟩ := Nat.exists_eq_succ_of_ne_zero (Nat.ne_of_gt hn)
    obtain ⟨f', hread, -⟩ := readCoverageDatum_end hpending hclosed (ahead n)
    rw [readCoverageData, heof, hread]
    rfl
  | cons t ts ih =>
    obtain ⟨n, rfl⟩ := Nat.exists_eq_succ_of_ne_zero (Nat.ne_of_gt (Nat.zero_lt_of_lt hn))
    rw [List.flatMap_cons, t.reportTraceReal_eq] at hpending
    obtain ⟨f', hread, hpending', hclosed', heof'⟩ :=
      readCoverageDatum_encode hpending t.datum_size (ahead n)
    have hrest := ih hpending' (hclosed'.trans hclosed) (heof'.trans heof) (Nat.lt_of_succ_lt_succ hn)
    rw [readCoverageData, heof, hread]
    simp only [Bool.false_eq_true, if_false, filename_encode, hrest, List.map_cons]
    simp only [TraceLine.datum, t.cString_packed]

end Read

/-- The lines come back if and only if all their file names are written in ASCII. -/
theorem round_trips_iff (ts : List TraceLine) :
    RoundTrips ts ↔ ∀ t ∈ ts, ∀ c ∈ t.file, c.toNat < 128 := by
  have hread : ∀ ahead n, ts.length < n →
      readCoverageData ahead n (traced ts) = ts.map fun t => (t.packed, t.line) :=
    fun ahead n hn => readCoverageData_eq ahead rfl rfl rfl hn
  have hname : ∀ t : TraceLine, t.packed = utf8 t.file ↔ ∀ c ∈ t.file, c.toNat < 128 := by
    intro t
    rw [← length_utf8_le_iff]
    constructor
    · intro heq
      rw [← heq, t.length_packed]
    · exact fun hle => List.take_of_length_le hle
  have hmap : (ts.map fun t => (t.packed, t.line)) = (ts.map fun t => (utf8 t.file, t.line)) ↔
      ∀ t ∈ ts, ∀ c ∈ t.file, c.toNat < 128 := by
    rw [List.map_inj_left]
    refine forall₂_congr fun t _ => ?_
    rw [← hname t, Prod.mk.injEq]
    exact and_iff_left rfl
  rw [← hmap]
  constructor
  · intro h
    rw [← hread (fun _ => (0, 0)) _ (Nat.lt_succ_self _)]
    exact h _ _ (Nat.lt_succ_self _)
  · intro h ahead n hn
    rw [hread ahead n hn, h]

/-- A line of the file `é.py`. -/
def accented : TraceLine where
  file := Char.ofNat 0xe9 :: ['.', 'p', 'y']
  line := 1
  noNul := by decide
  short := by decide

/-- The name `é.py` loses its last byte. -/
theorem not_round_trips_accented : ¬RoundTrips [accented] := by
  intro h
  have hread : readCoverageData (fun _ => (0, 0)) 2 (traced [accented]) =
      [accented].map fun t => (t.packed, t.line) :=
    readCoverageData_eq _ rfl rfl rfl (by decide)
  rw [h (fun _ => (0, 0)) 2 (by decide)] at hread
  exact absurd hread (by decide)

end Kcov.Python
