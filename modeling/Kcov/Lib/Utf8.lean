import Kcov.Lib.Bytes

/-! UTF-8: the bytes of code points, and the code points of bytes. -/

namespace Utf8

open Bytes

/-- A code point that is no surrogate. -/
def IsScalar (c : Nat) : Prop := c < 0xd800 ∨ (0xe000 ≤ c ∧ c < 0x110000)

instance : DecidablePred IsScalar := fun _ => inferInstanceAs (Decidable (_ ∨ _))

/-- The bytes of a code point. -/
def encode (c : Nat) : List Byte :=
  if c < 0x80 then [BitVec.ofNat 8 c]
  else if c < 0x800 then [BitVec.ofNat 8 (0xc0 + c / 64), BitVec.ofNat 8 (0x80 + c % 64)]
  else if c < 0x10000 then
    [BitVec.ofNat 8 (0xe0 + c / 4096), BitVec.ofNat 8 (0x80 + c / 64 % 64),
      BitVec.ofNat 8 (0x80 + c % 64)]
  else
    [BitVec.ofNat 8 (0xf0 + c / 262144), BitVec.ofNat 8 (0x80 + c / 4096 % 64),
      BitVec.ofNat 8 (0x80 + c / 64 % 64), BitVec.ofNat 8 (0x80 + c % 64)]

def IsText (s : List Byte) : Prop := ∃ cs : List Nat, (∀ c ∈ cs, IsScalar c) ∧ s = cs.flatMap encode

/-- The code points from inside one of them: so many bytes of it are missing, and with those in front
it has the value `v`. It must not be less than `least`, for which fewer bytes are enough. -/
def decodeFrom : Nat → Nat → Nat → List Byte → Option (List Nat)
  | 0, _, _, [] => some []
  | _ + 1, _, _, [] => none
  | 0, _, _, b :: s =>
    if b.toNat < 0x80 then (decodeFrom 0 0 0 s).map (b.toNat :: ·)
    else if b.toNat < 0xc0 then none
    else if b.toNat < 0xe0 then decodeFrom 1 0x80 (b.toNat - 0xc0) s
    else if b.toNat < 0xf0 then decodeFrom 2 0x800 (b.toNat - 0xe0) s
    else if b.toNat < 0xf8 then decodeFrom 3 0x10000 (b.toNat - 0xf0) s
    else none
  | missing + 1, least, v, b :: s =>
    if b.toNat < 0x80 ∨ 0xc0 ≤ b.toNat then none
    else
      let v := 64 * v + (b.toNat - 0x80)
      if missing ≠ 0 then decodeFrom missing least v s
      else if least ≤ v ∧ IsScalar v then (decodeFrom 0 0 0 s).map (v :: ·)
      else none

def codePoints (s : List Byte) : Option (List Nat) := decodeFrom 0 0 0 s

/-- The value of a digit in a base of at most 16. -/
def digitOf (base : Nat) (b : Byte) : Option Nat :=
  let n := b.toNat
  let v := if n < 0x30 then 16 else if n ≤ 0x39 then n - 0x30
    else if 0x41 ≤ n ∧ n ≤ 0x46 then n - 0x37
    else if 0x61 ≤ n ∧ n ≤ 0x66 then n - 0x57 else 16
  if v < base then some v else none

section Decoding

variable {missing least v w c : Nat} {b : Byte} {s : List Byte}

theorem decodeFrom_zero : decodeFrom 0 least v (b :: s) =
    if b.toNat < 0x80 then (decodeFrom 0 0 0 s).map (b.toNat :: ·)
    else if b.toNat < 0xc0 then none
    else if b.toNat < 0xe0 then decodeFrom 1 0x80 (b.toNat - 0xc0) s
    else if b.toNat < 0xf0 then decodeFrom 2 0x800 (b.toNat - 0xe0) s
    else if b.toNat < 0xf8 then decodeFrom 3 0x10000 (b.toNat - 0xf0) s
    else none := rfl

theorem decodeFrom_succ : decodeFrom (missing + 1) least v (b :: s) =
    if b.toNat < 0x80 ∨ 0xc0 ≤ b.toNat then none
    else if missing ≠ 0 then decodeFrom missing least (64 * v + (b.toNat - 0x80)) s
    else if least ≤ 64 * v + (b.toNat - 0x80) ∧ IsScalar (64 * v + (b.toNat - 0x80)) then
      (decodeFrom 0 0 0 s).map ((64 * v + (b.toNat - 0x80)) :: ·)
    else none := rfl

theorem toNat_ofNat_lt (h : c < 256) : (BitVec.ofNat 8 c).toNat = c := by
  rw [BitVec.toNat_ofNat, Nat.mod_eq_of_lt h]

theorem decodeFrom_next (hw : w < 64) :
    decodeFrom (missing + 2) least v (BitVec.ofNat 8 (0x80 + w) :: s) =
      decodeFrom (missing + 1) least (64 * v + w) s := by
  rw [decodeFrom_succ, toNat_ofNat_lt (by omega), if_neg (by omega), if_pos (by omega),
    Nat.add_sub_cancel_left]

theorem decodeFrom_last (hw : w < 64) (hc : 64 * v + w = c) (hleast : least ≤ c)
    (hscalar : IsScalar c) :
    decodeFrom 1 least v (BitVec.ofNat 8 (0x80 + w) :: s) = (codePoints s).map (c :: ·) := by
  rw [decodeFrom_succ, toNat_ofNat_lt (by omega), if_neg (by omega), if_neg (by omega),
    Nat.add_sub_cancel_left, hc, if_pos ⟨hleast, hscalar⟩, codePoints]

theorem codePoints_append (hc : IsScalar c) :
    codePoints (encode c ++ s) = (codePoints s).map (c :: ·) := by
  have hlt : c < 0x110000 := by
    rcases hc with hc | hc <;> omega
  rw [encode]
  split
  next h =>
    rw [List.singleton_append, codePoints, decodeFrom_zero, toNat_ofNat_lt (by omega), if_pos h]
    rfl
  next h =>
    split
    next h2 =>
      rw [List.cons_append, codePoints, decodeFrom_zero, toNat_ofNat_lt (by omega),
        if_neg (by omega), if_neg (by omega), if_pos (by omega), Nat.add_sub_cancel_left,
        List.singleton_append, decodeFrom_last (by omega) (by omega) (by omega) hc]
    next h2 =>
      split
      next h3 =>
        rw [List.cons_append, codePoints, decodeFrom_zero, toNat_ofNat_lt (by omega),
          if_neg (by omega), if_neg (by omega), if_neg (by omega), if_pos (by omega),
          Nat.add_sub_cancel_left, List.cons_append, decodeFrom_next (by omega),
          List.singleton_append, decodeFrom_last (by omega) (by omega) (by omega) hc]
      next h3 =>
        rw [List.cons_append, codePoints, decodeFrom_zero, toNat_ofNat_lt (by omega),
          if_neg (by omega), if_neg (by omega), if_neg (by omega), if_neg (by omega),
          if_pos (by omega), Nat.add_sub_cancel_left, List.cons_append, decodeFrom_next (by omega),
          List.cons_append, decodeFrom_next (by omega), List.singleton_append,
          decodeFrom_last (by omega) (by omega) (by omega) hc]

theorem codePoints_flatMap {cs : List Nat} (h : ∀ c ∈ cs, IsScalar c) :
    codePoints (cs.flatMap encode) = some cs := by
  induction cs with
  | nil => rfl
  | cons c cs ih =>
    rw [List.flatMap_cons, codePoints_append (h c List.mem_cons_self),
      ih fun d hd => h d (List.mem_cons_of_mem c hd)]
    rfl

theorem IsText.isSome_codePoints (h : IsText s) : (codePoints s).isSome = true := by
  obtain ⟨cs, hcs, rfl⟩ := h
  rw [codePoints_flatMap hcs]
  rfl

theorem codePoints_ascii (h : ∀ b ∈ s, b.toNat < 0x80) :
    codePoints s = some (s.map (·.toNat)) := by
  induction s with
  | nil => rfl
  | cons b s ih =>
    have hrest : decodeFrom 0 0 0 s = some (s.map (·.toNat)) :=
      ih fun c hc => h c (List.mem_cons_of_mem b hc)
    rw [codePoints, decodeFrom_zero, if_pos (h b List.mem_cons_self), hrest]
    rfl

/-- A text that goes on with a byte of ASCII is decoded in two parts. -/
theorem decodeFrom_append {b : Byte} (hb : b.toNat < 0x80) (missing least v : Nat) (s t : List Byte) :
    decodeFrom missing least v (s ++ b :: t) =
      (decodeFrom missing least v s).bind fun cs => (codePoints (b :: t)).map (cs ++ ·) := by
  induction s generalizing missing least v with
  | nil => cases missing <;> simp [decodeFrom, codePoints, hb, Function.comp_def]
  | cons c s ih =>
    rw [List.cons_append]
    cases missing with
    | zero =>
      simp only [decodeFrom_zero, ih]
      split
      · cases decodeFrom 0 0 0 s <;> simp [Function.comp_def]
      · repeat' split
        all_goals rfl
    | succ missing =>
      simp only [decodeFrom_succ, ih]
      split
      · rfl
      split
      · rfl
      split
      · cases decodeFrom 0 0 0 s <;> simp [Function.comp_def]
      · rfl

/-- Bytes of ASCII may be replaced by others. -/
theorem decodeFrom_map {f : Byte → Byte} (hlow : ∀ b : Byte, b.toNat < 0x80 → (f b).toNat < 0x80)
    (hhigh : ∀ b : Byte, 0x80 ≤ b.toNat → f b = b) {missing least : Nat}
    (hleast : missing = 0 ∨ 0x80 ≤ least) (v : Nat) (s : List Byte) :
    decodeFrom missing least v (s.map f) = (decodeFrom missing least v s).map
      (List.map fun c => if c < 0x80 then (f (BitVec.ofNat 8 c)).toNat else c) := by
  induction s generalizing missing least v with
  | nil => cases missing <;> rfl
  | cons b s ih =>
    rw [List.map_cons]
    cases missing with
    | zero =>
      by_cases hb : b.toNat < 0x80
      · rw [decodeFrom_zero, decodeFrom_zero, if_pos hb, if_pos (hlow b hb),
          ih (Or.inl rfl), Option.map_map, Option.map_map]
        congr 1
        funext cs
        simp [hb]
      · rw [hhigh b (Nat.le_of_not_lt hb), decodeFrom_zero, decodeFrom_zero, if_neg hb, if_neg hb,
          ih (Or.inr (Nat.le_refl _)), ih (Or.inr (by decide)), ih (Or.inr (by decide))]
        repeat' split
        all_goals rfl
    | succ missing =>
      have hle : 0x80 ≤ least := hleast.resolve_left (Nat.succ_ne_zero missing)
      by_cases hb : b.toNat < 0x80
      · rw [decodeFrom_succ, decodeFrom_succ, if_pos (Or.inl hb), if_pos (Or.inl (hlow b hb))]
        rfl
      · rw [hhigh b (Nat.le_of_not_lt hb), decodeFrom_succ, decodeFrom_succ]
        simp only [ih (Or.inl rfl), ih (Or.inr hle)]
        split
        · rfl
        split
        · rfl
        split
        next hc =>
          generalize 64 * v + (b.toNat - 0x80) = c at hc
          have hge : ¬c < 0x80 := by omega
          rw [Option.map_map, Option.map_map]
          congr 1
          funext cs
          simp [hge]
        next => rfl

theorem length_encode_le (c : Nat) : (encode c).length ≤ 4 := by
  unfold encode
  grind

end Decoding

end Utf8
