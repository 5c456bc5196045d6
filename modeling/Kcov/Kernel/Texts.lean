import Kcov.Engines.Engine
import Kcov.Kernel.KprobeCoverage
import Mathlib.Data.Nat.Log

/-! The texts that kcov and the kernel module exchange: the lines of `control`, which kcov writes and
the module takes apart, and those of `show`, which the module prints and kcov reads. -/

namespace Kcov.Kernel

open Bytes

def newline : Byte := 0x0a

/-- `0x` -/
def hexMark : Text := ascii "0x"

/-! ### Writing to `control` -/

/-- `KernelEngine`, but for its files: the addresses that have been registered. `m_module` is never
set. -/
abbrev Addresses : Type := List (BitVec 64)

/-- `registerBreakpoint`, and what it writes to `control`. -/
def registerBreakpoint (addresses : Addresses) (addr : BitVec 64) : Addresses × Text :=
  -- Don't register the same BP twice
  if addresses.contains addr then (addresses, [])
  else
    (addresses ++ [addr],
      hexMark ++ hexDigits (Nat.log 16 addr.toNat + 1) addr.toNat ++ [newline])

def isLineEnd (b : Byte) : Bool := b = 0x0d || b = newline

/-- The tokens of `strsep`, but for the last one, which no delimiter ends. -/
def strsep : Text → List Text
  | [] => []
  | b :: s =>
    if isLineEnd b then [] :: strsep s
    else
      match strsep s with
      | [] => []
      | token :: tokens => (b :: token) :: tokens

/-- The `0x` that `simple_strtoul` skips, also where no digit follows. -/
def skipHexMark : Text → Text
  | b :: x :: s => if b = 0x30 ∧ (x = 0x78 ∨ x = 0x58) then s else b :: x :: s
  | s => s

/-- `simple_strtoul` for base 16: the number modulo the size of a word, and the rest of the text. -/
def simpleStrtoul (cp : Text) : BitVec 64 × Text :=
  let s := skipHexMark cp
  (BitVec.ofNat 64 (hexNumber (s.takeWhile isHexDigit)), s.dropWhile isHexDigit)

/-- The module and the address of a line of `control`, if it has an address. -/
def probeOf (line : Text) : Option (Option Text × BitVec 64) :=
  let (module, addr) :=
    if line.contains colon then
      (some (line.takeWhile (· ≠ colon)), (line.dropWhile (· ≠ colon)).drop 1)
    else (none, line)
  let (value, endp) := simpleStrtoul addr
  if endp.length = addr.length ∨ endp ≠ [] then none else some (module, value)

/-- The loop of `kpc_control_write`, where `registers` is whether `register_kprobe` succeeds for the
entry with that number. -/
def controlLines (registers : Nat → Bool) : State → List Text → State
  | s, [] => s
  | s, line :: lines =>
    if line = [] then s
    else if line = ascii "clear" then s.clear
    else
      match probeOf line with
      | none => controlLines registers s lines
      | some (module, addr) =>
        controlLines registers (s.addProbe module addr (registers s.next)) lines

def pageSize : Nat := 4096

/-- `kpc_control_write` -/
def controlWrite (registers : Nat → Bool) (s : State) (userBuf : Text) : State :=
  if pageSize < userBuf.length then s else controlLines registers s (strsep (cString userBuf))

/-! ### Reading from `show` -/

/-- What `kpc_seq_show` prints, if the name is in the table. -/
def showLine : Option (Option Text) × BitVec 64 → Option Text
  | (none, _) => none
  | (some module, addr) =>
    some ((module.map fun name => name ++ [colon]).getD [] ++ hexMark ++
      hexDigits 16 addr.toNat ++ [newline])

/-- `fgets` with a buffer of `size` bytes, where a line or as much as fits can be read. -/
def fgets (size : Nat) (stream : Text) : Option (Text × Text) :=
  let line := stream.takeWhile (· ≠ newline)
  if line.length < size - 1 then
    if line.length < stream.length then
      some (stream.take (line.length + 1), stream.drop (line.length + 1))
    else none
  else some (stream.take (size - 1), stream.drop (size - 1))

/-- `string_to_integer` for base 16 and a text that `string_is_integer`. -/
def stringToHex (str : Text) : BitVec 64 :=
  let str := str.dropWhile isSpace
  let value := BitVec.ofNat 64 (hexNumber ((skipBase (skipSign str)).takeWhile isHexDigit))
  if str.head? = some 0x2d then -value else value

/-- `parseOneLine`, and the event that the listener gets. -/
def parseOneLine (line : Text) : Option (EngineEvent (BitVec 64)) :=
  let addr := if line.contains colon then (line.dropWhile (· ≠ colon)).drop 1 else line
  -- Invalid?
  if stringIsInteger addr then some ⟨.breakpoint, 0, stringToHex addr⟩ else none

def bufSize : Nat := 256

/-- `continueExecution`, which waits where no line can be read: the event and what is left to read.
There is no result where the end of an empty string is cut off. -/
def continueExecution (stream : Text) : Option (Option (EngineEvent (BitVec 64)) × Text) :=
  match fgets (bufSize - 1) stream with
  | none => some (none, stream)
  | some (buf, stream) =>
    -- Remove the \n
    if cString buf = [] then none else some (parseOneLine (cString buf).dropLast, stream)

/-! ### What is written is read -/

section Written

variable {addr : BitVec 64} {s : State}

theorem length_log (addr : BitVec 64) : addr.toNat < 16 ^ (Nat.log 16 addr.toNat + 1) :=
  Nat.lt_pow_succ_log_self (by decide) _

theorem hexDigit_plain : ∀ b : Byte, isHexDigit b = true →
    b ≠ 0 ∧ b ≠ colon ∧ b ≠ newline ∧ isLineEnd b = false := by
  decide

/-- The bytes of a number in hexadecimal. -/
theorem plain_of_mem {n v : Nat} {b : Byte} (h : b ∈ hexMark ++ hexDigits n v) :
    b ≠ 0 ∧ b ≠ colon ∧ b ≠ newline ∧ isLineEnd b = false := by
  have hmark : ∀ b ∈ hexMark, b ≠ 0 ∧ b ≠ colon ∧ b ≠ newline ∧ isLineEnd b = false := by decide
  rcases List.mem_append.mp h with h | h
  · exact hmark b h
  · exact hexDigit_plain b (isHexDigit_of_mem h)

theorem strsep_append {token : Text} (h : ∀ b ∈ token, isLineEnd b = false) (rest : Text) :
    strsep (token ++ newline :: rest) = token :: strsep rest := by
  induction token with
  | nil => exact if_pos rfl
  | cons b token ih =>
    obtain ⟨hb, htoken⟩ := List.forall_mem_cons.mp h
    rw [List.cons_append, strsep, ih htoken, hb]
    rfl

theorem simpleStrtoul_hex {n v : Nat} :
    simpleStrtoul (hexMark ++ hexDigits n v) = (BitVec.ofNat 64 (v % 16 ^ n), []) := by
  have hskip : skipHexMark (hexMark ++ hexDigits n v) = hexDigits n v := rfl
  have htake : (hexDigits n v).takeWhile isHexDigit = hexDigits n v :=
    List.takeWhile_eq_self_iff.mpr fun b hb => isHexDigit_of_mem hb
  have hdrop : (hexDigits n v).dropWhile isHexDigit = [] :=
    List.dropWhile_eq_nil_iff.mpr fun b hb => isHexDigit_of_mem hb
  rw [simpleStrtoul, hskip, htake, hdrop, hexNumber_hexDigits]

/-- The line that kcov writes asks for a probe of the kernel at the address. -/
theorem controlWrite_registerBreakpoint {addresses : Addresses} (haddr : addr ∉ addresses)
    (registers : Nat → Bool) (s : State) :
    controlWrite registers s (registerBreakpoint addresses addr).2 =
      s.addProbe none addr (registers s.next) := by
  set number := hexMark ++ hexDigits (Nat.log 16 addr.toNat + 1) addr.toNat with hnumber
  have hplain : ∀ b ∈ number, b ≠ 0 ∧ b ≠ colon ∧ b ≠ newline ∧ isLineEnd b = false :=
    fun b hb => plain_of_mem hb
  have htext : (registerBreakpoint addresses addr).2 = number ++ [newline] := by
    rw [registerBreakpoint, if_neg (by simpa using haddr)]
  have hlen : number.length ≤ 2 + 16 := by
    rw [hnumber, List.length_append, length_hexDigits]
    have hlog : Nat.log 16 addr.toNat < 16 := Nat.log_lt_of_lt_pow' (by decide) addr.isLt
    have hmark : hexMark.length = 2 := rfl
    omega
  have hstring : cString (number ++ [newline]) = number ++ [newline] := by
    refine List.takeWhile_eq_self_iff.mpr fun b hb => ?_
    rcases List.mem_append.mp hb with hb | hb
    · exact decide_eq_true (hplain b hb).1
    · rw [List.mem_singleton.mp hb]
      rfl
  have hcolon : number.contains colon = false := by
    rw [List.contains_eq_mem, decide_eq_false_iff_not]
    exact fun hmem => (hplain _ hmem).2.1 rfl
  have hprobe : probeOf number = some (none, addr) := by
    rw [probeOf, hcolon]
    simp only [Bool.false_eq_true, if_false]
    rw [hnumber, simpleStrtoul_hex, Nat.mod_eq_of_lt (length_log addr), BitVec.ofNat_toNat,
      BitVec.setWidth_eq]
    simp [hexMark, ascii]
  rw [htext, controlWrite, List.length_append, List.length_singleton,
    if_neg (by rw [pageSize]; omega), hstring, strsep_append (fun b hb => (hplain b hb).2.2.2), strsep,
    controlLines, if_neg (by simp [hnumber, hexMark, ascii]), if_neg (by simp [hnumber, hexMark, ascii]),
    hprobe]
  rfl

theorem stringToHex_hex {n v : Nat} (hn : 0 < n) (hv : v < 16 ^ n) (hword : v < 2 ^ 64) :
    stringIsInteger (hexMark ++ hexDigits n v) = true ∧
      stringToHex (hexMark ++ hexDigits n v) = BitVec.ofNat 64 v := by
  obtain ⟨d, digits, hdigits⟩ : ∃ d digits, hexDigits n v = d :: digits :=
    List.exists_cons_of_length_pos (by rwa [length_hexDigits])
  have hbase : skipBase (hexMark ++ hexDigits n v) = hexDigits n v := by
    have hd : isHexDigit d = true := isHexDigit_of_mem (n := n) (v := v) (by simp [hdigits])
    rw [hdigits]
    exact if_pos ⟨rfl, Or.inl rfl, hd⟩
  have htake : (hexDigits n v).takeWhile isHexDigit = hexDigits n v :=
    List.takeWhile_eq_self_iff.mpr fun b hb => isHexDigit_of_mem hb
  have hspace : (hexMark ++ hexDigits n v).dropWhile isSpace = hexMark ++ hexDigits n v := rfl
  have hsign : skipSign (hexMark ++ hexDigits n v) = hexMark ++ hexDigits n v := rfl
  have hnumber : hexNumber (hexDigits n v) = v := by
    rw [hexNumber_hexDigits, Nat.mod_eq_of_lt hv]
  constructor
  · rw [stringIsInteger, hspace, hsign, hbase, htake, hnumber]
    simpa [hdigits] using hword
  · rw [stringToHex, hspace, hsign, hbase, htake, hnumber]
    exact if_neg (by simp [hexMark, ascii])

/-- A line of the kernel that is shown is the event for its address. -/
theorem continueExecution_showLine {line : Text} (h : showLine (some none, addr) = some line)
    (rest : Text) :
    continueExecution (line ++ rest) = some (some ⟨.breakpoint, 0, addr⟩, rest) := by
  set number := hexMark ++ hexDigits 16 addr.toNat with hnumber
  have hline : line = number ++ [newline] := by
    rw [showLine, Option.some.injEq] at h
    exact h.symm
  have hplain : ∀ b ∈ number, b ≠ 0 ∧ b ≠ colon ∧ b ≠ newline ∧ isLineEnd b = false :=
    fun b hb => plain_of_mem hb
  have hlen : number.length = 18 := by
    rw [hnumber, List.length_append, length_hexDigits]
    rfl
  have htake : (line ++ rest).takeWhile (· ≠ newline) = number := by
    rw [hline, List.append_assoc, List.takeWhile_append_of_pos
      (fun b hb => decide_eq_true (hplain b hb).2.2.1)]
    simp
  have hfgets : fgets (bufSize - 1) (line ++ rest) = some (line, rest) := by
    rw [fgets, htake, hlen, if_pos (by decide),
      if_pos (by rw [hline]; simp only [List.length_append, hlen, List.length_singleton]; omega)]
    have hlength : line.length = 18 + 1 := by rw [hline, List.length_append, hlen]; rfl
    rw [List.take_left' hlength, List.drop_left' hlength]
  have hstring : cString line = number ++ [newline] := by
    rw [hline]
    refine List.takeWhile_eq_self_iff.mpr fun b hb => ?_
    rcases List.mem_append.mp hb with hb | hb
    · exact decide_eq_true (hplain b hb).1
    · rw [List.mem_singleton.mp hb]
      rfl
  have hcolon : number.contains colon = false := by
    rw [List.contains_eq_mem, decide_eq_false_iff_not]
    exact fun hmem => (hplain _ hmem).2.1 rfl
  obtain ⟨hinteger, hvalue⟩ :=
    stringToHex_hex (n := 16) (v := addr.toNat) (by decide) (by exact addr.isLt) addr.isLt
  rw [← hnumber, BitVec.ofNat_toNat, BitVec.setWidth_eq] at hvalue
  rw [← hnumber] at hinteger
  rw [continueExecution, hfgets]
  dsimp only
  rw [if_neg (by rw [hstring]; simp), hstring, List.dropLast_concat, parseOneLine, hcolon]
  simp only [Bool.false_eq_true, if_false]
  rw [if_pos hinteger, hvalue]

end Written

end Kcov.Kernel
