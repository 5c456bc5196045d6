import Mathlib.Data.List.Basic
import Mathlib.Data.Bool.Basic

/-! Cyclic redundancy checks in the reflected form: a register of any width that shifts towards its
low end, fed with a message bit by bit or, through a table, symbol by symbol. -/

namespace Crc

variable {w k : Nat} (poly : BitVec w)

/-- One bit of the message: `poly` is added where it differs from the bit that leaves the
register. -/
def bitStep (crc : BitVec w) (b : Bool) : BitVec w :=
  if crc.getLsbD 0 ^^ b then (crc >>> 1) ^^^ poly else crc >>> 1

/-- The register after a message. -/
def run (crc : BitVec w) (message : List Bool) : BitVec w := message.foldl (bitStep poly) crc

/-- The lowest `n` bits of a symbol, lowest first. -/
def bits (n : Nat) (x : BitVec k) : List Bool := (List.range n).map x.getLsbD

/-- What the symbol `x` leaves behind in an empty register. -/
def entry (x : BitVec k) : BitVec w := run poly 0 (bits k x)

/-- One symbol of the message, with the entries in a table. -/
def tableStep (table : BitVec k → BitVec w) (crc : BitVec w) (x : BitVec k) : BitVec w :=
  table ((crc ^^^ x.setWidth w).setWidth k) ^^^ (crc >>> k)

theorem bits_succ (n : Nat) (x : BitVec k) : bits (n + 1) x = x.getLsbD 0 :: bits n (x >>> 1) := by
  rw [bits, List.range_succ_eq_map, List.map_cons, List.map_map, bits]
  congr 1
  apply List.map_congr_left
  intro i _
  rw [Function.comp_apply, BitVec.getLsbD_ushiftRight, Nat.succ_eq_one_add]

theorem bits_setWidth {n m : Nat} (h : n ≤ m) (x : BitVec k) :
    bits n (x.setWidth m) = bits n x := by
  apply List.map_congr_left
  intro i hi
  have hi' : i < m := Nat.lt_of_lt_of_le (List.mem_range.mp hi) h
  simp [hi']

variable {poly} {crc : BitVec w}

theorem run_append (a b : List Bool) : run poly crc (a ++ b) = run poly (run poly crc a) b :=
  List.foldl_append

theorem bitStep_eq (b : Bool) :
    bitStep poly crc b = (crc >>> 1) ^^^ bitStep poly 0 (crc.getLsbD 0 ^^ b) := by
  have hzero : ∀ b, bitStep poly 0 b = if b then poly else 0 := by
    intro b
    cases b <;> simp [bitStep]
  rw [hzero, bitStep]
  split
  · rfl
  · exact BitVec.xor_zero.symm

/-- The register counts as a part of the message that comes first, and what of it is not shifted
out is added at the end. -/
theorem run_bits (n : Nat) (crc x : BitVec w) :
    run poly crc (bits n x) = run poly 0 (bits n (crc ^^^ x)) ^^^ (crc >>> n) := by
  induction n generalizing crc x with
  | zero => simp [bits, run]
  | succ n ih =>
    have hcons : ∀ c y : BitVec w, run poly c (bits (n + 1) y) =
        run poly (bitStep poly c (y.getLsbD 0)) (bits n (y >>> 1)) := by
      intro c y
      rw [bits_succ]
      rfl
    rw [hcons, hcons, ih, ih (bitStep poly 0 _), bitStep_eq, BitVec.getLsbD_xor]
    -- The two registers differ by `crc >>> 1`, which comes back from the rest of the message.
    generalize bitStep poly 0 (crc.getLsbD 0 ^^ x.getLsbD 0) = register
    have hbits : (crc >>> 1) ^^^ register ^^^ (x >>> 1) = register ^^^ ((crc ^^^ x) >>> 1) := by
      rw [BitVec.ushiftRight_xor_distrib]
      ac_rfl
    rw [hbits, BitVec.ushiftRight_xor_distrib (crc >>> 1), Nat.add_comm n 1, BitVec.shiftRight_add]
    ac_rfl

/-- A table of the right entries does a symbol at once. -/
theorem tableStep_eq {table : BitVec k → BitVec w} (hk : k ≤ w) (ht : ∀ x, table x = entry poly x)
    (x : BitVec k) : tableStep table crc x = run poly crc (bits k x) := by
  rw [tableStep, ht, entry, bits_setWidth (Nat.le_refl k), ← run_bits, bits_setWidth hk]

theorem foldl_tableStep {table : BitVec k → BitVec w} (hk : k ≤ w)
    (ht : ∀ x, table x = entry poly x) (message : List (BitVec k)) :
    message.foldl (tableStep table) crc = run poly crc (message.flatMap (bits k)) := by
  induction message generalizing crc with
  | nil => rfl
  | cons x message ih =>
    rw [List.foldl_cons, List.flatMap_cons, run_append, ih, tableStep_eq hk ht]

end Crc
