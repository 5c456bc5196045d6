import Kcov.Lib.Bytes

/-! Percent-encoding: bytes outside a set are written as a percent sign and two digits, and read back. -/

namespace Percent

open Bytes

def mark : Byte := 0x25

/-- An upper-case hexadecimal digit. -/
def digit (d : Nat) : Byte := BitVec.ofNat 8 (if d < 10 then 0x30 + d else 0x41 + (d - 10))

/-- The value of a hexadecimal digit of either case. -/
def value (b : Byte) : Option Nat :=
  if 0x30 ≤ b ∧ b ≤ 0x39 then some (b.toNat - 0x30)
  else if 0x41 ≤ b ∧ b ≤ 0x46 then some (b.toNat - 0x41 + 10)
  else if 0x61 ≤ b ∧ b ≤ 0x66 then some (b.toNat - 0x61 + 10)
  else none

/-- The bytes of which `plain` does not hold are encoded. -/
def encode (plain : Byte → Bool) (s : List Byte) : List Byte :=
  s.flatMap fun b => if plain b then [b] else [mark, digit (b.toNat / 16), digit (b.toNat % 16)]

/-- A percent sign without two digits behind it stands for itself. -/
def decode : List Byte → List Byte
  | b :: c :: d :: s =>
    match if b = mark then (value c).bind fun hi => (value d).map fun lo => 16 * hi + lo else none with
    | some n => BitVec.ofNat 8 n :: decode s
    | none => b :: decode (c :: d :: s)
  | s => s

section Decode

variable {plain : Byte → Bool} {b : Byte} {s : List Byte}

theorem value_digit {d : Nat} (hd : d < 16) : value (digit d) = some d := by
  have hall : ∀ d : Fin 16, value (digit d.val) = some d.val := by decide
  exact hall ⟨d, hd⟩

theorem decode_cons (hb : b ≠ mark) (s : List Byte) : decode (b :: s) = b :: decode s := by
  match s with
  | [] => rfl
  | [c] => rfl
  | c :: d :: s => rw [decode, if_neg hb]

/-- What was encoded is read back, whatever comes behind it. -/
theorem decode_encode (hmark : plain mark = false) (s rest : List Byte) :
    decode (encode plain s ++ rest) = s ++ decode rest := by
  induction s with
  | nil => rfl
  | cons b s ih =>
    rw [encode, List.flatMap_cons, ← encode, List.append_assoc]
    cases hb : plain b with
    | true =>
      have hne : b ≠ mark := by
        rintro rfl
        rw [hmark] at hb
        cases hb
      rw [if_pos rfl, List.singleton_append, decode_cons hne, ih, List.cons_append]
    | false =>
      have hlt := b.isLt
      have hhi : value (digit (b.toNat / 16)) = some (b.toNat / 16) := value_digit (by omega)
      have hlo : value (digit (b.toNat % 16)) = some (b.toNat % 16) := value_digit (by omega)
      have hsum : BitVec.ofNat 8 (16 * (b.toNat / 16) + b.toNat % 16) = b := by
        rw [Nat.div_add_mod, BitVec.ofNat_toNat, BitVec.setWidth_eq]
      rw [if_neg Bool.false_ne_true]
      simp only [List.cons_append, List.nil_append, decode, if_true, hhi, hlo, Option.bind_some,
        Option.map_some, hsum, ih]

end Decode

end Percent
