import Kcov.Lib.Bytes

/-! Machine words as bytes of a memory: loading and storing a word, and replacing a field of it by
shifting and masking. -/

namespace Bytes

/-- The contents of a memory by address. -/
abbrev Memory := Nat → Byte

/-- The byte at the offset `j` of a word of `n` bytes in memory. -/
def byteOf (e : Endian) (n : Nat) (v : BitVec (8 * n)) (j : Nat) : Byte :=
  match e with
  | .little => v.extractLsb' (8 * j) 8
  | .big => v.extractLsb' (8 * (n - 1 - j)) 8

def loadWord (e : Endian) (n : Nat) (mem : Memory) (a : Nat) : BitVec (8 * n) :=
  BitVec.ofNat (8 * n) (e.decode ((List.range n).map fun j => mem (a + j)))

def storeWord (e : Endian) (n : Nat) (mem : Memory) (a : Nat) (v : BitVec (8 * n)) : Memory :=
  fun x => if a ≤ x ∧ x < a + n then byteOf e n v (x - a) else mem x

/-- The memory with the `k` bytes from `a` on taken from `f`. -/
def overwrite (mem : Memory) (a k : Nat) (f : Nat → Byte) : Memory :=
  fun x => if a ≤ x ∧ x < a + k then f (x - a) else mem x

/-! ### Loading -/

theorem littleValue_div (bs : List Byte) {j : Nat} (hj : j < bs.length) :
    bs[j]? = some (BitVec.ofNat 8 (littleValue bs / 256 ^ j)) := by
  induction bs generalizing j with
  | nil => simp at hj
  | cons b bs ih =>
    have hb := b.isLt
    cases j with
    | zero =>
      refine congrArg some (BitVec.eq_of_toNat_eq ?_)
      simp only [littleValue, pow_zero, Nat.div_one, BitVec.toNat_ofNat]
      omega
    | succ j =>
      rw [List.length_cons] at hj
      have hdiv : (b.toNat + 256 * littleValue bs) / 256 = littleValue bs := by omega
      rw [littleValue, pow_succ', ← Nat.div_div_eq_div_mul, hdiv, List.getElem?_cons_succ]
      exact ih (by omega)

theorem extractLsb'_ofNat {n v : Nat} (hv : v < 256 ^ n) (j : Nat) :
    (BitVec.ofNat (8 * n) v).extractLsb' (8 * j) 8 = BitVec.ofNat 8 (v / 256 ^ j) := by
  have hpow : ∀ i, 2 ^ (8 * i) = 256 ^ i := fun i => pow_mul 2 8 i
  apply BitVec.eq_of_toNat_eq
  rw [BitVec.extractLsb'_toNat, BitVec.toNat_ofNat, BitVec.toNat_ofNat, hpow, Nat.mod_eq_of_lt hv,
    Nat.shiftRight_eq_div_pow, hpow]

theorem extractLsb'_littleValue {bs : List Byte} {n j : Nat} (hn : bs.length = n) (hj : j < n) :
    bs[j]? = some ((BitVec.ofNat (8 * n) (littleValue bs)).extractLsb' (8 * j) 8) := by
  rw [littleValue_div bs (by omega), extractLsb'_ofNat (hn ▸ littleValue_lt bs)]

theorem getElem?_littleBytes {n j : Nat} (v : Nat) (hj : j < n) :
    (littleBytes n v)[j]? = some (BitVec.ofNat 8 (v / 256 ^ j)) := by
  induction n generalizing v j with
  | zero => omega
  | succ n ih =>
    cases j with
    | zero => simp [littleBytes]
    | succ j =>
      rw [littleBytes, List.getElem?_cons_succ, ih (v / 256) (by omega), Nat.div_div_eq_div_mul,
        pow_succ']

theorem byteOf_loadWord (e : Endian) {n j : Nat} (mem : Memory) (a : Nat) (hj : j < n) :
    byteOf e n (loadWord e n mem a) j = mem (a + j) := by
  have hlen : ((List.range n).map fun j => mem (a + j)).length = n := by simp
  apply Option.some.inj
  cases e with
  | little =>
    rw [byteOf, loadWord, Endian.decode, ← extractLsb'_littleValue hlen hj]
    simp [hj]
  | big =>
    rw [byteOf, loadWord, Endian.decode,
      ← extractLsb'_littleValue (by rw [List.length_reverse, hlen]) (by omega),
      List.getElem?_reverse (by rw [hlen]; omega), hlen, show n - 1 - (n - 1 - j) = j by omega]
    simp [hj]

/-! ### Fields of a word -/

/-- Masking a field out and or-ing a value in changes the bits of the field only. -/
theorem getLsbD_replaceField {w : Nat} (x v : BitVec w) (s k i : Nat) (hv : v.toNat < 2 ^ k)
    (hi : i < w) :
    ((x &&& ~~~(BitVec.ofNat w (2 ^ k - 1) <<< s)) ||| (v <<< s)).getLsbD i =
      if s ≤ i ∧ i < s + k then v.getLsbD (i - s) else x.getLsbD i := by
  have hhigh : s + k ≤ i → v.getLsbD (i - s) = false := by
    intro h
    rw [← BitVec.testBit_toNat]
    exact Nat.testBit_lt_two_pow (hv.trans_le (Nat.pow_le_pow_right (by omega) (by omega)))
  simp only [BitVec.getLsbD_or, BitVec.getLsbD_and, BitVec.getLsbD_not, BitVec.getLsbD_shiftLeft,
    BitVec.getLsbD_ofNat, Nat.testBit_two_pow_sub_one, hi, decide_true, Bool.true_and]
  by_cases hlow : i < s
  · simp [hlow]
  · by_cases hin : i < s + k
    · have h1 : i - s < k := by omega
      have h2 : i - s < w := by omega
      simp [hlow, hin, h1, h2, show s ≤ i by omega]
    · have h1 : ¬ i - s < k := by omega
      simp [hlow, hin, h1, hhigh (by omega)]

/-- In little-endian order, a field of whole bytes is a range of bytes. -/
theorem byteOf_replaceField {n : Nat} (x v : BitVec (8 * n)) (o k : Nat)
    (hv : v.toNat < 2 ^ (8 * k)) {j : Nat} (hj : j < n) :
    byteOf .little n
        ((x &&& ~~~(BitVec.ofNat (8 * n) (2 ^ (8 * k) - 1) <<< (8 * o))) ||| (v <<< (8 * o))) j =
      if o ≤ j ∧ j < o + k then byteOf .little n v (j - o) else byteOf .little n x j := by
  apply BitVec.eq_of_getLsbD_eq
  intro i hi
  have hbit := getLsbD_replaceField x v (8 * o) (8 * k) (8 * j + i) hv (by omega)
  simp only [byteOf, BitVec.getLsbD_extractLsb', hi, decide_true, Bool.true_and, hbit]
  by_cases hin : o ≤ j ∧ j < o + k
  · rw [if_pos hin, if_pos (by omega)]
    simp only [BitVec.getLsbD_extractLsb', hi, decide_true, Bool.true_and]
    congr 1
    omega
  · rw [if_neg hin, if_neg (by omega)]
    simp only [BitVec.getLsbD_extractLsb', hi, decide_true, Bool.true_and]

/-! ### Storing -/

/-- Storing a word whose bytes are those of the memory, but for a range of them, overwrites the
range. -/
theorem storeWord_eq_overwrite (e : Endian) {n o k : Nat} (mem : Memory) (a : Nat)
    (v : BitVec (8 * n)) (f : Nat → Byte) (hk : o + k ≤ n)
    (hv : ∀ j < n, byteOf e n v j = if o ≤ j ∧ j < o + k then f (j - o) else mem (a + j)) :
    storeWord e n mem a v = overwrite mem (a + o) k f := by
  funext x
  simp only [storeWord, overwrite]
  by_cases hx : a ≤ x ∧ x < a + n
  · rw [if_pos hx, hv (x - a) (by omega)]
    by_cases hin : a + o ≤ x ∧ x < a + o + k
    · rw [if_pos hin, if_pos (by omega), Nat.sub_sub]
    · rw [if_neg hin, if_neg (by omega), Nat.add_sub_cancel' hx.1]
  · rw [if_neg hx, if_neg (by omega)]

end Bytes
