import Kcov.Lib.Json
import Kcov.Strings
import Mathlib.Data.List.Nodup

/-! The two loops of `escape_json`, and what a JSON parser makes of their output. -/

namespace Kcov

open Bytes

namespace EscapeJson

/-- The first loop. -/
def nEscapes (str : Text) : Nat :=
  str.foldl (fun n b => escapeChars.foldl (fun n c => if b = c then n + 1 else n) n) 0

/-- `out` and `cur`. -/
structure Output where
  out : Text
  cur : BitVec 32
  deriving DecidableEq, Repr

/-- `out[cur] = b`, or `none` where that is outside. -/
def Output.put (o : Output) (b : Byte) : Option Output :=
  (write o.out o.cur.toNat [b]).map fun out => { o with out }

def Output.next (o : Output) : Output := { o with cur := o.cur + 1 }

/-- A round of the inner loop for the character `b`. -/
def quoteIf (b : Byte) (o : Output) (c : Byte) : Option Output :=
  if b = c then do
    let o ← o.put reverseSolidus
    o.next.put b
  else some o

/-- The body of the second loop. -/
def escape (o : Output) (b : Byte) : Option Output := do
  let o ← o.put b
  if b = tab then
    let o ← o.put reverseSolidus
    let o ← o.next.put 0x74
    return o.next
  let o ← escapeChars.foldlM (quoteIf b) o
  return o.next

/-- The second loop. -/
def fill (str : Text) : Option Output :=
  str.foldlM escape { out := zeros (str.length + nEscapes str), cur := 0 }

end EscapeJson

/-- `escape_json` with its loops, or `none` where they write outside `out`. -/
def escapeJsonFilled (str : Text) : Option Text :=
  if EscapeJson.nEscapes str = 0 then some str else (EscapeJson.fill str).map (·.out)

namespace EscapeJson

/-! ### Filling the output -/

section Filling

variable {cur : BitVec 32} {front rest str chars : Text} {b x y : Byte}

theorem put_eq (hcur : cur.toNat = front.length) (b : Byte) :
    Output.put { out := front ++ x :: rest, cur } b = some { out := front ++ b :: rest, cur } := by
  have hwrite : write (front ++ x :: rest) cur.toNat [b] = some (front ++ b :: rest) := by
    rw [write_eq_some, hcur]
    exact ⟨by simp, by simp⟩
  rw [Output.put, hwrite]
  rfl

/-- Two characters, one after the other. -/
theorem put_put (hcur : cur.toNat = front.length) (hlen : front.length + 1 < 2 ^ 32) (b c : Byte) :
    ((Output.put { out := front ++ x :: y :: rest, cur } b).bind fun o => o.next.put c) =
      some { out := front ++ b :: c :: rest, cur := cur + 1 } := by
  have hnext : (cur + 1).toNat = (front ++ [b]).length := by
    rw [BitVec.toNat_add, hcur, List.length_append]
    exact Nat.mod_eq_of_lt hlen
  rw [put_eq hcur, Option.bind_some, Output.next, List.append_cons front b, put_eq hnext,
    ← List.append_cons front b]

theorem foldlM_quoteIf_of_notMem {o : Output} (h : b ∉ chars) :
    chars.foldlM (quoteIf b) o = some o := by
  induction chars with
  | nil => rfl
  | cons c chars ih =>
    rw [List.mem_cons, not_or] at h
    rw [List.foldlM_cons, quoteIf, if_neg h.1]
    exact ih h.2

theorem foldlM_quoteIf (hnodup : chars.Nodup) (h : b ∈ chars) (hcur : cur.toNat = front.length)
    (hlen : front.length + 1 < 2 ^ 32) :
    chars.foldlM (quoteIf b) { out := front ++ x :: y :: rest, cur } =
      some { out := front ++ reverseSolidus :: b :: rest, cur := cur + 1 } := by
  obtain ⟨s, t, rfl⟩ := List.append_of_mem h
  have hs : b ∉ s := fun hb => (List.nodup_append.mp hnodup).2.2 b hb b List.mem_cons_self rfl
  have ht : b ∉ t := (List.nodup_cons.mp (List.nodup_append.mp hnodup).2.1).1
  rw [List.foldlM_append, foldlM_quoteIf_of_notMem hs, Option.bind_eq_bind, Option.bind_some,
    List.foldlM_cons, quoteIf, if_pos rfl, Option.bind_eq_bind, put_put hcur hlen, Option.bind_some,
    foldlM_quoteIf_of_notMem ht]

theorem escapeChar_of_notMem (h : b ∉ escapeChars) : escapeChar b = [b] := by
  have htab : b ≠ tab := fun htab => h (htab ▸ by decide)
  rw [escapeChar, if_neg htab, if_neg (by simpa using h)]

theorem length_escapeChar (b : Byte) : (escapeChar b).length = 1 + escapeChars.count b := by
  rw [escapeChar]
  split
  next htab =>
    rw [htab]
    rfl
  next =>
    have hnodup : escapeChars.Nodup := by decide
    split
    next hb => rw [List.count_eq_one_of_mem hnodup (by simpa using hb)]; rfl
    next hb => rw [List.count_eq_zero_of_not_mem (by simpa using hb)]; rfl

theorem foldl_count (b : Byte) (n : Nat) :
    chars.foldl (fun n c => if b = c then n + 1 else n) n = n + chars.count b := by
  induction chars generalizing n with
  | nil => rfl
  | cons c chars ih =>
    rw [List.foldl_cons, ih, List.count_cons]
    by_cases hc : b = c
    · simp [hc, Nat.add_assoc, Nat.add_comm]
    · simp [hc, Ne.symm hc]

/-- The length that is reserved is that of the output. -/
theorem length_escapeJson (str : Text) : (escapeJson str).length = str.length + nEscapes str := by
  have hsum : ∀ n, str.length + str.foldl (fun n b =>
      escapeChars.foldl (fun n c => if b = c then n + 1 else n) n) n =
      n + (escapeJson str).length := by
    induction str with
    | nil => exact fun n => Nat.add_comm 0 n
    | cons b str ih =>
      intro n
      have hn := ih (n + escapeChars.count b)
      rw [List.foldl_cons, foldl_count, List.length_cons, escapeJson, List.flatMap_cons,
        List.length_append, length_escapeChar, ← escapeJson]
      omega
  have hzero := hsum 0
  rw [nEscapes]
  omega

/-- The body of the loop puts a character down with its escape, and is behind both. -/
theorem escape_eq (hcur : cur.toNat = front.length)
    (hroom : (escapeChar b).length ≤ rest.length)
    (hlen : front.length + (escapeChar b).length < 2 ^ 32) :
    escape { out := front ++ rest, cur } b = some {
      out := front ++ escapeChar b ++ rest.drop (escapeChar b).length
      cur := cur + BitVec.ofNat 32 (escapeChar b).length } := by
  have hadd : cur + 1 + 1 = cur + BitVec.ofNat 32 2 := BitVec.add_assoc _ _ _
  rcases rest with _ | ⟨x, rest⟩
  · rw [length_escapeChar, List.length_nil] at hroom
    omega
  rw [escape, put_eq hcur, Option.bind_eq_bind, Option.bind_some]
  by_cases hmem : b ∈ escapeChars
  · have htwo : (escapeChar b).length = 2 := by
      rw [length_escapeChar, List.count_eq_one_of_mem (by decide) hmem]
    rw [htwo] at hroom hlen ⊢
    rcases rest with _ | ⟨y, rest⟩
    · rw [List.length_singleton] at hroom
      omega
    by_cases htab : b = tab
    · have hputs : ((Output.put { out := front ++ b :: y :: rest, cur } reverseSolidus).bind
          fun o => o.next.put 0x74) =
          some { out := front ++ reverseSolidus :: 0x74 :: rest, cur := cur + 1 } :=
        put_put hcur (by omega) reverseSolidus 0x74
      have hchar : escapeChar b = [reverseSolidus, 0x74] := by
        rw [htab]
        rfl
      rw [if_pos htab, ← Option.bind_assoc, hputs, hchar, ← hadd, List.append_assoc]
      rfl
    · rw [if_neg htab]
      have hchar : escapeChar b = [reverseSolidus, b] := by
        rw [escapeChar, if_neg htab, if_pos (by simpa using hmem)]
      rw [foldlM_quoteIf (by decide) hmem hcur (by omega), hchar, ← hadd, List.append_assoc]
      rfl
  · have htab : b ≠ tab := fun htab => hmem (htab ▸ by decide)
    rw [if_neg htab, foldlM_quoteIf_of_notMem hmem, escapeChar_of_notMem hmem, List.append_assoc]
    rfl

theorem foldlM_escape (hcur : cur.toNat = front.length)
    (hroom : (escapeJson str).length ≤ rest.length)
    (hlen : front.length + (escapeJson str).length < 2 ^ 32) :
    str.foldlM escape { out := front ++ rest, cur } = some {
      out := front ++ escapeJson str ++ rest.drop (escapeJson str).length
      cur := cur + BitVec.ofNat 32 (escapeJson str).length } := by
  induction str generalizing front rest cur with
  | nil => simp [escapeJson]
  | cons b str ih =>
    have hsplit : escapeJson (b :: str) = escapeChar b ++ escapeJson str := List.flatMap_cons
    rw [hsplit, List.length_append] at hroom hlen ⊢
    have hnext : (cur + BitVec.ofNat 32 (escapeChar b).length).toNat =
        (front ++ escapeChar b).length := by
      rw [BitVec.toNat_add, BitVec.toNat_ofNat, hcur, List.length_append, Nat.add_mod_mod]
      exact Nat.mod_eq_of_lt (by omega)
    rw [List.foldlM_cons, escape_eq hcur (by omega) (by omega), Option.bind_eq_bind,
      Option.bind_some, ih hnext (by rw [List.length_drop]; omega)
        (by rw [List.length_append]; omega), List.drop_drop, BitVec.add_assoc, ← BitVec.ofNat_add,
      List.append_assoc front]

theorem length_escapeJson_le (str : Text) : (escapeJson str).length ≤ 2 * str.length := by
  induction str with
  | nil => exact Nat.le_refl _
  | cons b str ih =>
    have hone := List.nodup_iff_count_le_one.mp (by decide : escapeChars.Nodup) b
    rw [escapeJson, List.flatMap_cons, List.length_append, ← escapeJson, length_escapeChar,
      List.length_cons]
    omega

/-- The second loop fills exactly the length that the first one reserves. -/
theorem fill_eq (hlen : str.length < 2 ^ 31) : fill str = some {
    out := escapeJson str, cur := BitVec.ofNat 32 (escapeJson str).length } := by
  have hle := length_escapeJson_le str
  rw [fill, ← length_escapeJson, ← List.nil_append (zeros _),
    foldlM_escape rfl (by rw [List.length_replicate]) (by rw [List.length_nil]; omega),
    List.drop_eq_nil_of_le (by rw [List.length_replicate])]
  simp

/-- Without characters to escape the output is the text itself. -/
theorem escapeJson_eq_self (h : nEscapes str = 0) : escapeJson str = str := by
  induction str with
  | nil => rfl
  | cons b str ih =>
    have hlen := length_escapeJson (b :: str)
    have hrest := length_escapeJson str
    rw [h, escapeJson, List.flatMap_cons, List.length_append, ← escapeJson, length_escapeChar,
      List.length_cons] at hlen
    have hb : b ∉ escapeChars := List.count_eq_zero.mp (by omega)
    rw [escapeJson, List.flatMap_cons, ← escapeJson, ih (by omega), escapeChar_of_notMem hb]
    rfl

/-- The loops compute the text with the escapes of its characters. -/
theorem filled_eq (hlen : str.length < 2 ^ 31) : escapeJsonFilled str = some (escapeJson str) := by
  rw [escapeJsonFilled]
  split
  next h => rw [escapeJson_eq_self h]
  next => rw [fill_eq hlen, Option.map_some]

end Filling

/-! ### Reading the output -/

/-- A character that comes back: no single quote, which JSON does not escape, and no control
character but the tab. -/
def IsReadable (b : Byte) : Prop := b ≠ singleQuote ∧ (0x20 ≤ b.toNat ∨ b = tab)

instance : DecidablePred IsReadable := fun _ => inferInstanceAs (Decidable (_ ∧ _))

instance (str : Text) : Decidable (∀ b ∈ str, IsReadable b) :=
  decidable_of_iff (str.all (IsReadable ·) = true) (by simp)

section Reading

variable {b : Byte} {str : Text}

theorem feed_escapeChar (h : IsReadable b) (v : Text) :
    Json.lexer.feed (.string v) (escapeChar b) = some (.string (v ++ [b]), []) := by
  by_cases hmem : b ∈ escapeChars
  · simp only [escapeChars, List.mem_cons, List.not_mem_nil, or_false] at hmem
    rcases hmem with rfl | rfl | rfl | rfl | rfl
    · rfl
    · rfl
    · rfl
    · exact absurd h (by decide)
    · exact absurd h (by decide)
  · rw [escapeChar_of_notMem hmem]
    refine Json.feed_plain (fun c hc => ?_) v
    rw [List.mem_singleton.mp hc]
    refine Json.isPlain_iff.mpr ⟨h.2.resolve_right fun htab => hmem (htab ▸ by decide), ?_, ?_⟩
    · exact fun hquote => hmem (hquote ▸ by decide)
    · exact fun hslash => hmem (hslash ▸ by decide)

/-- JSON knows no escape of a single quote or of a carriage return, and the other control characters
are not escaped. -/
theorem tokens_escapeChar (h : ¬IsReadable b) (v s : Text) :
    Json.lexer.tokens (.string v) (escapeChar b ++ s) = none := by
  by_cases hmem : b ∈ escapeChars
  · simp only [escapeChars, List.mem_cons, List.not_mem_nil, or_false] at hmem
    rcases hmem with rfl | rfl | rfl | rfl | rfl
    · exact absurd (by decide) h
    · exact absurd (by decide) h
    · exact absurd (by decide) h
    · rfl
    · rfl
  · rw [escapeChar_of_notMem hmem, List.singleton_append]
    refine Json.tokens_control ?_ v s
    by_contra hlow
    exact h ⟨fun hquote => hmem (hquote ▸ by decide), Or.inl (by omega)⟩

/-- In a string the output is read as the text, or not at all. -/
theorem tokens_escapeJson (str v s : Text) :
    Json.lexer.tokens (.string v) (escapeJson str ++ s) =
      if ∀ b ∈ str, IsReadable b then Json.lexer.tokens (.string (v ++ str)) s else none := by
  induction str generalizing v with
  | nil => simp [escapeJson]
  | cons b str ih =>
    rw [escapeJson, List.flatMap_cons, ← escapeJson, List.append_assoc]
    by_cases hb : IsReadable b
    · rw [Lexer.tokens_append (feed_escapeChar hb v), ih, List.append_assoc]
      simp [hb]
    · rw [tokens_escapeChar hb, if_neg fun h => hb (h b List.mem_cons_self)]

/-- Behind an opening quote: the output for a text, and a literal part with the closing quote. -/
theorem prints_escaped {q q' : Json.Mode} {t : Text} {out out' : List Json.Token} {P : Prop}
    (ht : Json.lexer.Prints q t out (.string []) P) (u literal : Text)
    (hquote : literal.head? = some Json.quote)
    (hrest : Json.lexer.feed .between literal.tail = some (q', out')) :
    Json.lexer.Prints q (t ++ escapeJson u ++ literal) (out ++ .string u :: out') q'
      (P ∧ (∀ b ∈ u, IsReadable b) ∧ (Utf8.codePoints u).isSome = true) := by
  obtain ⟨rest, rfl⟩ := List.head?_eq_some_iff.mp hquote
  rw [List.tail_cons] at hrest
  rw [List.append_assoc]
  refine ht.append fun s ts => ?_
  rw [List.append_assoc, List.cons_append, tokens_escapeJson, List.nil_append, Json.tokens_quote,
    List.cons_append, Lexer.tokens_append hrest]
  by_cases hreadable : ∀ b ∈ u, IsReadable b
  · by_cases htext : (Utf8.codePoints u).isSome = true
    · rw [if_pos hreadable, if_pos htext, Option.map_map, Option.map_eq_some_iff]
      constructor
      · rintro ⟨rest', hrest', heq⟩
        injection heq with _ heq
        rw [← List.append_cancel_left heq]
        exact ⟨⟨hreadable, htext⟩, hrest'⟩
      · exact fun h => ⟨ts, h.2, rfl⟩
    · simp [htext]
  · simp [hreadable]

theorem zero_notMem_escapeJson {str : Text} (h : 0 ∉ str) : 0 ∉ escapeJson str := by
  intro hzero
  obtain ⟨b, hb, hchar⟩ := List.mem_flatMap.mp hzero
  by_cases hmem : b ∈ escapeChars
  · have hall : ∀ b ∈ escapeChars, 0 ∉ escapeChar b := by
      decide
    exact hall b hmem hchar
  · rw [escapeChar_of_notMem hmem, List.mem_singleton] at hchar
    exact h (hchar ▸ hb)

end Reading

end EscapeJson

/-- What `escape_json` is for: its output between quotes is a JSON string with the value of the text,
and the second loop ends where the first has reserved. -/
structure Undone (str : Text) : Prop where
  decoded : ∃ out ∈ escapeJsonFilled str,
    Json.read (doubleQuote :: out ++ [doubleQuote]) = some [.string str]
  filled : ∃ o ∈ EscapeJson.fill str, o.cur.toNat = str.length + EscapeJson.nEscapes str

instance (str : Text) : Decidable (Undone str) :=
  decidable_of_iff (_ ∧ _) ⟨fun h => ⟨h.1, h.2⟩, fun h => ⟨h.decoded, h.filled⟩⟩

/-- Text in UTF-8 comes back exactly if it has no single quote and no control character but the
tab. -/
theorem undone_iff {str : Text} (htext : Utf8.IsText str) (hlen : str.length < 2 ^ 31) :
    Undone str ↔ ∀ b ∈ str, EscapeJson.IsReadable b := by
  have hread : Json.read (doubleQuote :: escapeJson str ++ [doubleQuote]) =
      if ∀ b ∈ str, EscapeJson.IsReadable b then some [.string str] else none := by
    have hstart : Json.lexer.tokens .between (doubleQuote :: escapeJson str ++ [doubleQuote]) =
        Json.lexer.tokens (.string []) (escapeJson str ++ [Json.quote]) := Option.map_id'
    rw [Json.read, hstart, EscapeJson.tokens_escapeJson, List.nil_append, Json.tokens_quote,
      if_pos htext.isSome_codePoints]
    split <;> rfl
  constructor
  · rintro ⟨⟨out, hout, hdecoded⟩, -⟩
    rw [EscapeJson.filled_eq hlen] at hout
    cases hout
    by_contra hnot
    rw [hread, if_neg hnot] at hdecoded
    cases hdecoded
  · intro h
    refine ⟨⟨escapeJson str, EscapeJson.filled_eq hlen, ?_⟩, _, EscapeJson.fill_eq hlen, ?_⟩
    · rw [hread, if_pos h]
    · have hle := EscapeJson.length_escapeJson_le str
      rw [BitVec.toNat_ofNat, EscapeJson.length_escapeJson, Nat.mod_eq_of_lt]
      rw [← EscapeJson.length_escapeJson]
      omega

/-- Double quotes, backslashes, tabs and text beyond ASCII. -/
theorem undone_quoted : Undone (ascii "a=\"\\x\"\t" ++ Utf8.encode 0xe9) :=
  (undone_iff ⟨[0x61, 0x3d, 0x22, 0x5c, 0x78, 0x22, 0x09, 0xe9], by decide, by decide⟩
    (by decide)).mpr (by decide)

/-- A carriage return, which stays behind its backslash. -/
theorem not_undone_carriageReturn : ¬Undone (ascii "a\rb") := by
  decide

end Kcov
