import Kcov.Utils

/-! Numbers in texts, whose base `stoull` takes from the text. -/

namespace Kcov

open Bytes

def isDigitOf (base : Nat) (b : Byte) : Bool := (hexValue b).any (· < base)

def numberOf (base : Nat) (digits : Text) : Nat :=
  digits.foldl (fun v b => base * v + (hexValue b).getD 0) 0

/-- The base that a text is written in, and the text behind its `0x`. -/
def numberBase (s : Text) : Nat × Text :=
  if skipBase s ≠ s then (16, skipBase s)
  else if s.head? = some 0x30 then (8, s)
  else (10, s)

/-- `stoull` with base 0: the number, and the rest of the text. -/
def stoull (str : Text) : Option (BitVec 64 × Text) :=
  let str := str.dropWhile isSpace
  let (base, s) := numberBase (skipSign str)
  let digits := s.takeWhile (isDigitOf base)
  let n := numberOf base digits
  -- without digits the argument is invalid, and a larger number is out of range
  if digits = [] ∨ 2 ^ 64 ≤ n then none
  else
    let value := BitVec.ofNat 64 n
    some (if str.head? = some 0x2d then -value else value, s.dropWhile (isDigitOf base))

/-- `string_is_integer` for base 0. -/
def stringIsIntegerAnyBase (str : Text) : Bool := (stoull str).any fun (_, rest) => rest.isEmpty

/-- `string_to_integer` for base 0, which throws where there is no number. -/
def stringToInteger (str : Text) : Option (BitVec 64) := (stoull str).map Prod.fst

/-- `fmt("%llu", n)`. -/
def decimal (n : Nat) : Text := (Nat.toDigits 10 n).map fun c => BitVec.ofNat 8 c.toNat

/-- `fmt("%u", v)`. -/
def printUnsigned (v : BitVec 32) : Text := decimal v.toNat

/-- `fmt("%d", v)`. -/
def printSigned (v : BitVec 32) : Text :=
  if v.msb then 0x2d :: decimal (-v).toNat else decimal v.toNat

section Decimal

theorem decimal_of_lt {n : Nat} (h : n < 10) : decimal n = [hexDigit n] := by
  rw [decimal, Nat.toDigits_of_lt_base h, List.map_singleton, hexDigit, if_pos h,
    Nat.toNat_digitChar_of_lt_ten h]

theorem decimal_snoc {n : Nat} (h : 10 ≤ n) :
    decimal n = decimal (n / 10) ++ [hexDigit (n % 10)] := by
  have hdigit : n % 10 < 10 := Nat.mod_lt n (by decide)
  rw [← decimal_of_lt hdigit, decimal, decimal, decimal, Nat.toDigits_of_base_le (by decide) h,
    Nat.toDigits_of_lt_base hdigit, List.map_append]

theorem decimal_ne_nil (n : Nat) : decimal n ≠ [] := by
  simp [decimal]

theorem digit_of_mem_decimal {n : Nat} {b : Byte} (h : b ∈ decimal n) : 0x30 ≤ b ∧ b ≤ 0x39 := by
  have hdigit : ∀ d : Fin 10, (0x30 : Byte) ≤ hexDigit d.val ∧ hexDigit d.val ≤ 0x39 := by decide
  induction n using Nat.strongRecOn with
  | ind n ih =>
    by_cases hn : n < 10
    · rw [decimal_of_lt hn, List.mem_singleton] at h
      exact h ▸ hdigit ⟨n, hn⟩
    · rw [decimal_snoc (Nat.le_of_not_lt hn), List.mem_append, List.mem_singleton] at h
      rcases h with h | rfl
      · exact ih (n / 10) (by omega) h
      · exact hdigit ⟨n % 10, Nat.mod_lt n (by decide)⟩

theorem numberOf_decimal (n : Nat) : numberOf 10 (decimal n) = n := by
  have hvalue : ∀ d < 10, hexValue (hexDigit d) = some d :=
    fun d hd => hexValue_hexDigit (hd.trans (by decide))
  induction n using Nat.strongRecOn with
  | ind n ih =>
    by_cases hn : n < 10
    · rw [decimal_of_lt hn, numberOf, List.foldl_cons, List.foldl_nil, hvalue n hn]
      exact Nat.zero_add n
    · have hrest := ih (n / 10) (by omega)
      rw [numberOf] at hrest
      rw [decimal_snoc (Nat.le_of_not_lt hn), numberOf, List.foldl_append, hrest, List.foldl_cons,
        List.foldl_nil, hvalue _ (Nat.mod_lt n (by decide)), Option.getD_some, Nat.div_add_mod]

/-- Only zero starts with a zero. -/
theorem head_decimal {n : Nat} (h : 0 < n) : (decimal n).head? ≠ some 0x30 := by
  have hdigit : ∀ d : Fin 10, d.val ≠ 0 → hexDigit d.val ≠ 0x30 := by decide
  induction n using Nat.strongRecOn with
  | ind n ih =>
    by_cases hn : n < 10
    · rw [decimal_of_lt hn, List.head?_cons, ne_eq, Option.some.injEq]
      exact hdigit ⟨n, hn⟩ h.ne'
    · rw [decimal_snoc (Nat.le_of_not_lt hn), List.head?_append_of_ne_nil _ (decimal_ne_nil _)]
      exact ih (n / 10) (by omega) (by omega)

theorem numberBase_decimal {n : Nat} (h : 0 < n) : numberBase (decimal n) = (10, decimal n) := by
  have hzero := head_decimal h
  have hbase : skipBase (decimal n) = decimal n := by
    unfold skipBase
    split
    · next b x d s heq =>
      rw [heq, List.head?_cons, ne_eq, Option.some.injEq] at hzero
      exact (if_neg fun h => hzero h.1).trans heq.symm
    · rfl
  rw [numberBase, if_neg (not_not_intro hbase), if_neg hzero]

theorem stoull_decimal {n : Nat} (h : n < 2 ^ 64) :
    stoull (decimal n) = some (BitVec.ofNat 64 n, []) := by
  rcases Nat.eq_zero_or_pos n with rfl | hpos
  · decide
  have hdigit : ∀ b : Byte, 0x30 ≤ b → b ≤ 0x39 →
      isSpace b = false ∧ ¬(b = 0x2b ∨ b = 0x2d) ∧ isDigitOf 10 b = true := by
    decide
  obtain ⟨b, s, hs⟩ := List.exists_cons_of_ne_nil (decimal_ne_nil n)
  have hb : b ∈ decimal n := hs ▸ List.mem_cons_self
  obtain ⟨hspace, hsign, -⟩ := hdigit b (digit_of_mem_decimal hb).1 (digit_of_mem_decimal hb).2
  have hdigits : ∀ c ∈ decimal n, isDigitOf 10 c = true :=
    fun c hc => (hdigit c (digit_of_mem_decimal hc).1 (digit_of_mem_decimal hc).2).2.2
  have hdrop : (decimal n).dropWhile isSpace = decimal n := by
    rw [hs]
    exact List.dropWhile_cons_of_neg (by simp [hspace])
  have hskip : skipSign (decimal n) = decimal n := by
    rw [hs]
    exact if_neg hsign
  have hhead : (decimal n).head? ≠ some 0x2d := by
    rw [hs, List.head?_cons, ne_eq, Option.some.injEq]
    exact fun heq => hsign (Or.inr heq)
  have htake : (decimal n).takeWhile (isDigitOf 10) = decimal n :=
    List.takeWhile_eq_self_iff.mpr hdigits
  have hrest : (decimal n).dropWhile (isDigitOf 10) = [] := List.dropWhile_eq_nil_iff.mpr hdigits
  have hrange : ¬(decimal n = [] ∨ 2 ^ 64 ≤ n) := by
    rintro (hnil | hlarge)
    · exact decimal_ne_nil n hnil
    · exact absurd h (Nat.not_lt.mpr hlarge)
  rw [stoull, hdrop, hskip, numberBase_decimal hpos]
  simp only [htake, hrest, numberOf_decimal, if_neg hrange, if_neg hhead]

theorem stringIsIntegerAnyBase_decimal {n : Nat} (h : n < 2 ^ 64) :
    stringIsIntegerAnyBase (decimal n) = true := by
  rw [stringIsIntegerAnyBase, stoull_decimal h]
  rfl

theorem stringToInteger_decimal {n : Nat} (h : n < 2 ^ 64) :
    stringToInteger (decimal n) = some (BitVec.ofNat 64 n) := by
  rw [stringToInteger, stoull_decimal h]
  rfl

end Decimal

end Kcov
