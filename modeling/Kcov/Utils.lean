import Kcov.Lib.Bytes
import Mathlib.Data.List.Infix

/-! String helpers shared by the configuration, the filters, the merge parser and the system mode. -/

namespace Kcov

open Bytes

/-- `std::string`: the bytes of a text or of a path. -/
abbrev Text := List Byte

def comma : Byte := 0x2c
def space : Byte := 0x20
def colon : Byte := 0x3a
def slash : Byte := 0x2f

/-- What the file system and the libraries outside the program answer: `get_real_path`,
`file_exists`, `read_file`, `hash_block` and `std::hash`. -/
structure Host where
  realPath : Text → Text
  fileExists : Text → Bool
  readFile : Text → Option (List Byte)
  hashBlock : List Byte → BitVec 32
  stringHash : Text → BitVec 64

/-- A host without files, on which every path is its own real path. -/
def Host.bare : Host where
  realPath path := path
  fileExists _ := false
  readFile _ := none
  hashBlock _ := 0
  stringHash _ := 0

/-- `split`: the items that `std::getline` with the delimiter `d` returns one after the other. -/
def splitString (d : Byte) : Text → List Text
  | [] => []
  | b :: s =>
    if b = d then [] :: splitString d s
    else
      match splitString d s with
      | [] => [[b]]
      | item :: items => (b :: item) :: items

/-- `s.find(pattern) != std::string::npos`. -/
def finds (s pattern : Text) : Bool := decide (pattern <:+: s)

/-- `split_path`: the directory with its last slash, and the name behind it. -/
def splitPath (path : Text) : Text × Text :=
  let name := (path.reverse.takeWhile (· ≠ slash)).reverse
  (path.take (path.length - name.length), name)

/-! ### Splitting -/

section Splitting

variable {d : Byte} {s : Text}

theorem splitString_item {item : Text} (h : d ∉ item) :
    splitString d (item ++ d :: s) = item :: splitString d s := by
  induction item with
  | nil => simp [splitString]
  | cons b item ih =>
    rw [List.mem_cons, not_or] at h
    rw [List.cons_append, splitString, if_neg (Ne.symm h.1), ih h.2]

/-- Items that are each followed by the delimiter come back as they were. -/
theorem splitString_flatMap {items : List Text} (h : ∀ item ∈ items, d ∉ item) :
    splitString d (items.flatMap (· ++ [d])) = items := by
  induction items with
  | nil => rfl
  | cons item items ih =>
    rw [List.flatMap_cons, List.append_assoc, List.singleton_append,
      splitString_item (h item List.mem_cons_self),
      ih fun i hi => h i (List.mem_cons_of_mem item hi)]

/-- There are as many items as delimiters in a text that ends with one. -/
theorem length_splitString_snoc : (splitString d (s ++ [d])).length = (s ++ [d]).count d := by
  induction s with
  | nil => simp [splitString]
  | cons b s ih =>
    rw [List.cons_append, splitString, List.count_cons]
    by_cases hb : b = d
    · simp [hb, ih]
    · rw [if_neg hb]
      cases hsplit : splitString d (s ++ [d]) with
      | nil =>
        rw [hsplit] at ih
        simp at ih
      | cons item items =>
        rw [hsplit] at ih
        simpa [hb] using ih

/-- Items that are each followed by the delimiter split into more parts if one contains it. -/
theorem length_splitString_flatMap {items : List Text} :
    (splitString d (items.flatMap (· ++ [d]))).length =
      items.length + (items.map (·.count d)).sum := by
  have hcount : ∀ items : List Text, (items.flatMap (· ++ [d])).count d =
      items.length + (items.map (·.count d)).sum := by
    intro items
    induction items with
    | nil => rfl
    | cons item items ih =>
      simp only [List.flatMap_cons, List.count_append, ih, List.count_singleton_self,
        List.length_cons, List.map_cons, List.sum_cons]
      omega
  rw [← hcount]
  cases items using List.reverseRecOn with
  | nil => rfl
  | append_singleton items item =>
    rw [List.flatMap_append, List.flatMap_singleton, ← List.append_assoc]
    exact length_splitString_snoc

end Splitting

/-! ### Hexadecimal numbers -/

/-- The value of a hexadecimal digit of either case. -/
def hexValue (b : Byte) : Option Nat :=
  if 0x30 ≤ b ∧ b ≤ 0x39 then some (b.toNat - 0x30)
  else if 0x61 ≤ b ∧ b ≤ 0x66 then some (b.toNat - 0x61 + 10)
  else if 0x41 ≤ b ∧ b ≤ 0x46 then some (b.toNat - 0x41 + 10)
  else none

def isHexDigit (b : Byte) : Bool := (hexValue b).isSome

def hexNumber (digits : Text) : Nat := digits.foldl (fun v b => 16 * v + (hexValue b).getD 0) 0

/-- `std::isspace` in the C locale. -/
def isSpace (b : Byte) : Bool := b = space || (0x09 ≤ b && b ≤ 0x0d)

/-- The sign that `stoull` takes before the digits. -/
def skipSign : Text → Text
  | b :: s => if b = 0x2b ∨ b = 0x2d then s else b :: s
  | [] => []

/-- The `0x` that `stoull` takes before a digit. -/
def skipBase : Text → Text
  | b :: x :: d :: s =>
    if b = 0x30 ∧ (x = 0x78 ∨ x = 0x58) ∧ isHexDigit d then d :: s else b :: x :: d :: s
  | s => s

/-- `string_is_integer` for base 16: `stoull` takes the whole text. -/
def stringIsInteger (str : Text) : Bool :=
  let s := skipBase (skipSign (str.dropWhile isSpace))
  let digits := s.takeWhile isHexDigit
  -- without digits the argument is invalid, and a larger number is out of range
  digits ≠ [] && digits.length = s.length && hexNumber digits < 2 ^ 64

def hexDigit (d : Nat) : Byte := BitVec.ofNat 8 (if d < 10 then 0x30 + d else 0x61 + (d - 10))

/-- The `n` low digits of `v`. -/
def hexDigits : Nat → Nat → Text
  | 0, _ => []
  | n + 1, v => hexDigits n (v / 16) ++ [hexDigit (v % 16)]

/-- `fmt("%08x", v)`. -/
def hexName (v : BitVec 32) : Text := hexDigits 8 v.toNat

section Hex

theorem hexValue_hexDigit {d : Nat} (hd : d < 16) : hexValue (hexDigit d) = some d := by
  have hall : ∀ d : Fin 16, hexValue (hexDigit d) = some d.val := by decide
  exact hall ⟨d, hd⟩

theorem length_hexDigits (n v : Nat) : (hexDigits n v).length = n := by
  induction n generalizing v with
  | zero => rfl
  | succ n ih => rw [hexDigits, List.length_append, ih, List.length_singleton]

theorem isHexDigit_of_mem {n v : Nat} {b : Byte} (h : b ∈ hexDigits n v) : isHexDigit b = true := by
  induction n generalizing v with
  | zero => cases h
  | succ n ih =>
    rcases List.mem_append.mp h with h | h
    · exact ih h
    · rw [List.mem_singleton.mp h, isHexDigit, hexValue_hexDigit (Nat.mod_lt v (by decide))]
      rfl

theorem hexNumber_hexDigits (n v : Nat) : hexNumber (hexDigits n v) = v % 16 ^ n := by
  induction n generalizing v with
  | zero => simp [hexDigits, hexNumber, Nat.mod_one]
  | succ n ih =>
    have hstep : hexNumber (hexDigits n (v / 16) ++ [hexDigit (v % 16)]) =
        16 * hexNumber (hexDigits n (v / 16)) + v % 16 := by
      rw [hexNumber, List.foldl_append, ← hexNumber, List.foldl_cons, List.foldl_nil,
        hexValue_hexDigit (Nat.mod_lt v (by decide)), Option.getD_some]
    rw [hexDigits, hstep, ih, pow_succ', Nat.mod_mul, Nat.add_comm]

theorem hexName_inj {v w : BitVec 32} (h : hexName v = hexName w) : v = w := by
  have hnum := congrArg hexNumber h
  rw [hexName, hexName, hexNumber_hexDigits, hexNumber_hexDigits] at hnum
  have hv := v.isLt
  have hw := w.isLt
  exact BitVec.eq_of_toNat_eq (by omega)

/-- A number that is written with digits only is read whole. -/
theorem stringIsInteger_digits {s : Text} (hne : s ≠ []) (hs : ∀ b ∈ s, isHexDigit b = true)
    (hnum : hexNumber s < 2 ^ 64) : stringIsInteger s = true := by
  have hdigit : ∀ b : Byte, isHexDigit b = true →
      isSpace b = false ∧ ¬(b = 0x2b ∨ b = 0x2d) ∧ ¬(b = 0x78 ∨ b = 0x58) := by
    decide
  have hspace : s.dropWhile isSpace = s := by
    cases s with
    | nil => rfl
    | cons b s =>
      exact List.dropWhile_cons_of_neg (by simp [(hdigit b (hs b List.mem_cons_self)).1])
  have hsign : skipSign s = s := by
    cases s with
    | nil => rfl
    | cons b s => exact if_neg (hdigit b (hs b List.mem_cons_self)).2.1
  have hbase : skipBase s = s := by
    match s with
    | [] => rfl
    | [b] => rfl
    | [b, x] => rfl
    | b :: x :: d :: rest =>
      apply if_neg
      intro h
      exact (hdigit x (hs x (by simp))).2.2 h.2.1
  have htake : s.takeWhile isHexDigit = s := List.takeWhile_eq_self_iff.mpr hs
  rw [stringIsInteger, hspace, hsign, hbase, htake]
  simpa [hne] using hnum

theorem stringIsInteger_hexName (v : BitVec 32) : stringIsInteger (hexName v) = true := by
  refine stringIsInteger_digits ?_ (fun b hb => isHexDigit_of_mem hb) ?_
  · exact List.ne_nil_of_length_pos (by rw [hexName, length_hexDigits]; decide)
  · rw [hexName, hexNumber_hexDigits]
    omega

end Hex

end Kcov
