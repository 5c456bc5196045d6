import Kcov.Lib.Lexer
import Kcov.Lib.Utf8

/-! JSON as a streaming parser reads it: the tokens of a text, and the sequences of tokens that are
well-formed. -/

namespace Json

open Bytes Utf8

/-- Strings are decoded. Numbers and the names `true`, `false` and `null` stay as they are written. -/
inductive Token where
  | beginObject
  | endObject
  | beginArray
  | endArray
  | colon
  | comma
  | string (value : List Byte)
  | word (text : List Byte)
  deriving DecidableEq, Repr

def quote : Byte := 0x22
def backslash : Byte := 0x5c

def isSpace (b : Byte) : Bool := b = 0x20 || b = 0x09 || b = 0x0a || b = 0x0d

def isDigit (b : Byte) : Bool := (digitOf 10 b).isSome

def punctuation (b : Byte) : Option Token :=
  if b = 0x7b then some .beginObject
  else if b = 0x7d then some .endObject
  else if b = 0x5b then some .beginArray
  else if b = 0x5d then some .endArray
  else if b = 0x3a then some .colon
  else if b = 0x2c then some .comma
  else none

/-! ### Numbers and names -/

/-- The characters of numbers and of names. -/
def isWordByte (b : Byte) : Bool :=
  isDigit b || b = 0x2b || b = 0x2d || b = 0x2e || (0x41 ≤ b.toNat && b.toNat ≤ 0x5a) ||
    (0x61 ≤ b.toNat && b.toNat ≤ 0x7a)

def isDigits (s : List Byte) : Bool := s ≠ [] && s.all isDigit

/-- Nothing, or an exponent. -/
def isExponent : List Byte → Bool
  | [] => true
  | e :: s =>
    let digits := match s with
      | [] => []
      | sign :: rest => if sign = 0x2b ∨ sign = 0x2d then rest else sign :: rest
    (e = 0x65 || e = 0x45) && isDigits digits

/-- What may follow the integer part of a number. -/
def isFraction : List Byte → Bool
  | [] => true
  | b :: s =>
    if b = 0x2e then
      isDigits (s.takeWhile isDigit) && isExponent (s.dropWhile isDigit)
    else isExponent (b :: s)

def isUnsigned : List Byte → Bool
  | [] => false
  | b :: s =>
    if b = 0x30 then isFraction s
    else isDigit b && isFraction (s.dropWhile isDigit)

def isNumber : List Byte → Bool
  | [] => false
  | b :: s => if b = 0x2d then isUnsigned s else isUnsigned (b :: s)

def isWord (s : List Byte) : Bool :=
  s = ascii "true" || s = ascii "false" || s = ascii "null" || isNumber s

theorem isUnsigned_digits {b : Byte} {s : List Byte} (h : ∀ c ∈ b :: s, isDigit c = true)
    (hzero : b = 0x30 → s = []) : isUnsigned (b :: s) = true := by
  rw [isUnsigned]
  split
  next hb =>
    rw [hzero hb]
    rfl
  next =>
    have hrest : s.dropWhile isDigit = [] :=
      List.dropWhile_eq_nil_iff.mpr fun c hc => h c (List.mem_cons_of_mem b hc)
    rw [h b List.mem_cons_self, hrest]
    rfl

/-! ### The lexer -/

/-- Where a text is cut: between tokens, in a number or a name, in a string, or in one of its
escapes. -/
inductive Mode where
  | between
  | word (text : List Byte)
  | string (value : List Byte)
  | escape (value : List Byte)
  /-- In the digits of an escape, behind the high surrogate `high` if there is one. -/
  | unicode (value : List Byte) (high : Option Nat) (missing unit : Nat)
  | low (value : List Byte) (high : Nat)
  | lowEscape (value : List Byte) (high : Nat)
  deriving DecidableEq, Repr

def start (b : Byte) : Option (Mode × List Token) :=
  if isSpace b then some (.between, [])
  else if b = quote then some (.string [], [])
  else if isWordByte b then some (.word [b], [])
  else (punctuation b).map fun t => (.between, [t])

def escaped (b : Byte) : Option Byte :=
  if b = quote ∨ b = backslash ∨ b = 0x2f then some b
  else if b = 0x62 then some 0x08
  else if b = 0x66 then some 0x0c
  else if b = 0x6e then some 0x0a
  else if b = 0x72 then some 0x0d
  else if b = 0x74 then some 0x09
  else none

/-- Behind the last digit of an escape. Surrogates must come in pairs. -/
def unitEnd (value : List Byte) (high : Option Nat) (unit : Nat) : Option Mode :=
  match high with
  | none =>
    if 0xd800 ≤ unit ∧ unit < 0xdc00 then some (.low value unit)
    else if 0xdc00 ≤ unit ∧ unit < 0xe000 then none
    else some (.string (value ++ encode unit))
  | some high =>
    if 0xdc00 ≤ unit ∧ unit < 0xe000 then
      some (.string (value ++ encode (0x10000 + (high - 0xd800) * 1024 + (unit - 0xdc00))))
    else none

def step : Mode → Byte → Option (Mode × List Token)
  | .between, b => start b
  | .word w, b =>
    if isWordByte b then some (.word (w ++ [b]), [])
    else if isWord w then (start b).map fun r => (r.1, .word w :: r.2)
    else none
  | .string v, b =>
    if b = quote then
      if (codePoints v).isSome then some (.between, [.string v]) else none
    else if b = backslash then some (.escape v, [])
    else if b.toNat < 0x20 then none
    else some (.string (v ++ [b]), [])
  | .escape v, b =>
    if b = 0x75 then some (.unicode v none 4 0, [])
    else (escaped b).map fun c => (.string (v ++ [c]), [])
  | .unicode v high missing unit, b =>
    (digitOf 16 b).bind fun d =>
      if missing ≤ 1 then (unitEnd v high (16 * unit + d)).map fun m => (m, [])
      else some (.unicode v high (missing - 1) (16 * unit + d), [])
  | .low v high, b => if b = backslash then some (.lowEscape v high, []) else none
  | .lowEscape v high, b => if b = 0x75 then some (.unicode v (some high) 4 0, []) else none

def finish : Mode → Option (List Token)
  | .between => some []
  | .word w => if isWord w then some [.word w] else none
  | _ => none

def lexer : Lexer Mode Byte Token := ⟨step, finish⟩

/-! ### Texts that stand for themselves -/

def isPlain (b : Byte) : Bool := 0x20 ≤ b.toNat && b ≠ quote && b ≠ backslash

/-- A text that is read as itself between quotes. -/
structure Verbatim (s : List Byte) : Prop where
  plain : ∀ b ∈ s, isPlain b = true
  text : (codePoints s).isSome = true

instance (s : List Byte) : Decidable (Verbatim s) :=
  decidable_of_iff (s.all isPlain = true ∧ (codePoints s).isSome = true)
    ⟨fun h => ⟨List.all_eq_true.mp h.1, h.2⟩, fun h => ⟨List.all_eq_true.mpr h.plain, h.text⟩⟩

/-- Behind a quote that does not end a string, this ends it or is an error. -/
def EndsString (tail : List Byte) : Prop :=
  ∃ b ∈ (tail.dropWhile isPlain).head?,
    b.toNat < 0x20 ∨ (b = quote ∧ tail.takeWhile isPlain ≠ [])

instance : DecidablePred EndsString := fun _ => inferInstanceAs (Decidable (∃ _ ∈ _, _))

namespace Mode

def inString : Mode → Bool
  | .between | .word _ => false
  | _ => true

/-- A bound of the length of the string if it ended now. It grows by one with every character at
most, and not with the first one of an escape. -/
def size : Mode → Nat
  | .string v | .escape v => v.length
  | .unicode v none missing _ => v.length + (4 - missing)
  | .unicode v (some _) _ _ | .low v _ | .lowEscape v _ => v.length + 4
  | .between | .word _ => 0

end Mode

section Strings

variable {m m' : Mode} {b : Byte} {out ts : List Token} {u v w s tail D : List Byte}

theorem isPlain_iff : isPlain b = true ↔ 0x20 ≤ b.toNat ∧ b ≠ quote ∧ b ≠ backslash := by
  simp [isPlain, and_assoc]

theorem step_plain (hb : isPlain b = true) (v : List Byte) :
    step (.string v) b = some (.string (v ++ [b]), []) := by
  obtain ⟨hlow, hquote, hslash⟩ := isPlain_iff.mp hb
  rw [step, if_neg hquote, if_neg hslash, if_neg (by omega)]

theorem step_control (hb : b.toNat < 0x20) (v : List Byte) : step (.string v) b = none := by
  rw [step, if_neg, if_neg, if_pos hb]
  · rintro rfl
    revert hb
    decide
  · rintro rfl
    revert hb
    decide

theorem step_quote (v : List Byte) : step (.string v) quote =
    if (codePoints v).isSome then some (.between, [.string v]) else none := by
  rw [step, if_pos rfl]

theorem step_backslash (v : List Byte) : step (.string v) backslash = some (.escape v, []) := by
  rw [step, if_neg (by decide), if_pos rfl]

theorem unitEnd_size {high : Option Nat} {unit : Nat} (h : unitEnd v high unit = some m) :
    m.inString = true ∧ m.size ≤ v.length + 4 ∧ ∀ w, m ≠ .escape w := by
  have hlen := length_encode_le
  unfold unitEnd at h
  split at h
  · split at h
    · cases h
      exact ⟨rfl, Nat.le_refl _, fun w hw => by cases hw⟩
    split at h
    · cases h
    · cases h
      exact ⟨rfl, by simpa [Mode.size] using hlen unit, fun w hw => by cases hw⟩
  · split at h
    · cases h
      exact ⟨rfl, by simpa [Mode.size] using hlen _, fun w hw => by cases hw⟩
    · cases h

/-- A step inside a string ends it, or stays inside. -/
theorem step_inString (hm : m.inString = true) (h : step m b = some (m', out)) :
    (∃ v, m = .string v ∧ b = quote ∧ out = [.string v]) ∨
      (out = [] ∧ m'.inString = true ∧ m'.size ≤ m.size + 1 ∧
        ∀ v, m' = .escape v → b = backslash) := by
  cases m with
  | between => cases hm
  | word w => cases hm
  | string v =>
    rw [step] at h
    split at h
    next hb =>
      left
      split at h
      · cases h
        exact ⟨v, rfl, hb, rfl⟩
      · cases h
    next =>
      right
      split at h
      next hb =>
        cases h
        exact ⟨rfl, rfl, Nat.le_succ _, fun _ _ => hb⟩
      next =>
        split at h
        · cases h
        · cases h
          exact ⟨rfl, rfl, by simp [Mode.size], fun w hw => by cases hw⟩
  | escape v =>
    right
    rw [step] at h
    split at h
    · cases h
      exact ⟨rfl, rfl, by simp [Mode.size], fun w hw => by cases hw⟩
    · obtain ⟨c, -, hc⟩ := Option.map_eq_some_iff.mp h
      cases hc
      exact ⟨rfl, rfl, by simp [Mode.size], fun w hw => by cases hw⟩
  | unicode v high missing unit =>
    right
    rw [step, Option.bind_eq_some_iff] at h
    obtain ⟨d, -, h⟩ := h
    split at h
    next hlast =>
      obtain ⟨m, hend, hm'⟩ := Option.map_eq_some_iff.mp h
      cases hm'
      obtain ⟨hin, hsize, hescape⟩ := unitEnd_size hend
      refine ⟨rfl, hin, ?_, fun w hw => absurd hw (hescape w)⟩
      cases high with
      | none =>
        show m'.size ≤ v.length + (4 - missing) + 1
        omega
      | some high =>
        show m'.size ≤ v.length + 4 + 1
        omega
    next hmore =>
      cases h
      refine ⟨rfl, rfl, ?_, fun w hw => by cases hw⟩
      cases high with
      | none =>
        show v.length + (4 - (missing - 1)) ≤ v.length + (4 - missing) + 1
        omega
      | some high => exact Nat.le_succ _
  | low v high =>
    right
    rw [step] at h
    split at h
    · cases h
      exact ⟨rfl, rfl, Nat.le_succ _, fun w hw => by cases hw⟩
    · cases h
  | lowEscape v high =>
    right
    rw [step] at h
    split at h
    · cases h
      exact ⟨rfl, rfl, Nat.le_succ _, fun w hw => by cases hw⟩
    · cases h

/-- A quote inside of an escape is an escaped quote. -/
theorem step_inString_quote (hm : m.inString = true) (h : step m quote = some (m', out)) :
    (∃ v, m = .string v ∧ out = [.string v]) ∨ ∃ v, m = .escape v ∧ m' = .string (v ++ [quote]) ∧
      out = [] := by
  rcases step_inString hm h with ⟨v, rfl, -, rfl⟩ | ⟨rfl, -, -, -⟩
  · exact Or.inl ⟨v, rfl, rfl⟩
  · cases m with
    | between => cases hm
    | word w => cases hm
    | string v =>
      rw [step_quote] at h
      split at h <;> cases h
    | escape v =>
      cases h
      exact Or.inr ⟨v, rfl, rfl, rfl⟩
    | unicode v high missing unit => cases h
    | low v high => cases h
    | lowEscape v high => cases h

/-- The string that ends behind `u` is no longer than what was read, or the quote behind `u` is
escaped and the string goes on. -/
theorem string_size (hm : m.inString = true)
    (h : lexer.tokens m (u ++ quote :: s) = some (.string D :: ts)) :
    D.length ≤ m.size + u.length ∨
      ((u = [] ∧ ∃ v, m = .escape v) ∨ u.getLast? = some backslash) ∧
        ∃ v ts', lexer.tokens (.string v) s = some (.string D :: ts') := by
  induction u generalizing m with
  | nil =>
    rw [List.nil_append, Lexer.tokens, Option.bind_eq_some_iff] at h
    obtain ⟨⟨m', out⟩, hstep, hrest⟩ := h
    obtain ⟨rest, htokens, heq⟩ := Option.map_eq_some_iff.mp hrest
    rcases step_inString_quote hm hstep with ⟨v, rfl, rfl⟩ | ⟨v, rfl, rfl, rfl⟩
    · cases heq
      exact Or.inl (Nat.le_refl _)
    · right
      dsimp only at heq htokens
      rw [List.nil_append] at heq
      exact ⟨Or.inl ⟨rfl, v, rfl⟩, v ++ [quote], ts, heq ▸ htokens⟩
  | cons b u ih =>
    rw [List.cons_append, Lexer.tokens, Option.bind_eq_some_iff] at h
    obtain ⟨⟨m', out⟩, hstep, hrest⟩ := h
    obtain ⟨rest, htokens, heq⟩ := Option.map_eq_some_iff.mp hrest
    rcases step_inString hm hstep with ⟨v, rfl, -, rfl⟩ | ⟨rfl, hin, hsize, hescape⟩
    · cases heq
      exact Or.inl (Nat.le_add_right _ _)
    · dsimp only at heq htokens
      rw [List.nil_append] at heq
      rcases ih hin (heq ▸ htokens) with hle | ⟨hlast, hbeyond⟩
      · left
        rw [List.length_cons]
        omega
      · right
        refine ⟨Or.inr ?_, hbeyond⟩
        rcases hlast with ⟨rfl, v, rfl⟩ | hlast
        · rw [hescape v rfl]
          rfl
        · rw [List.getLast?_cons, hlast]
          rfl

theorem feed_plain (h : ∀ b ∈ u, isPlain b = true) (v : List Byte) :
    lexer.feed (.string v) u = some (.string (v ++ u), []) := by
  induction u generalizing v with
  | nil => rw [Lexer.feed, List.append_nil]
  | cons b u ih =>
    have hb : lexer.step (.string v) b = some (.string (v ++ [b]), []) :=
      step_plain (h b List.mem_cons_self) v
    rw [Lexer.feed, hb, Option.bind_some, ih (fun c hc => h c (List.mem_cons_of_mem b hc)),
      List.append_assoc]
    rfl

theorem tokens_plain (h : ∀ b ∈ u, isPlain b = true) (v s : List Byte) :
    lexer.tokens (.string v) (u ++ s) = lexer.tokens (.string (v ++ u)) s := by
  rw [Lexer.tokens_append (feed_plain h v)]
  exact Option.map_id'

theorem tokens_quote (v s : List Byte) : lexer.tokens (.string v) (quote :: s) =
    if (codePoints v).isSome then (lexer.tokens .between s).map (.string v :: ·) else none := by
  rw [Lexer.tokens, show lexer.step (.string v) quote = _ from step_quote v]
  split <;> rfl

theorem tokens_backslash (v s : List Byte) :
    lexer.tokens (.string v) (backslash :: s) = lexer.tokens (.escape v) s := by
  rw [Lexer.tokens, show lexer.step (.string v) backslash = _ from step_backslash v]
  exact Option.map_id'

theorem tokens_control (hb : b.toNat < 0x20) (v s : List Byte) :
    lexer.tokens (.string v) (b :: s) = none := by
  rw [Lexer.tokens, show lexer.step (.string v) b = none from step_control hb v]
  rfl

/-- A string that is ended in this way does not end with a backslash. -/
theorem EndsString.last (htail : EndsString tail)
    (h : lexer.tokens (.string v) (tail ++ s) = some (.string D :: ts)) :
    D.getLast? ≠ some backslash := by
  obtain ⟨b, hhead, hb⟩ := htail
  have hp : ∀ c ∈ tail.takeWhile isPlain, isPlain c = true := fun c hc => List.mem_takeWhile_imp hc
  obtain ⟨rest, hrest⟩ := List.head?_eq_some_iff.mp hhead
  rw [← List.takeWhile_append_dropWhile (p := isPlain) (l := tail), hrest] at h
  generalize tail.takeWhile isPlain = p at h hp hb
  rw [List.append_assoc, List.cons_append, tokens_plain hp] at h
  rcases hb with hb | ⟨rfl, hne⟩
  · rw [tokens_control hb] at h
    cases h
  · rw [tokens_quote] at h
    split at h
    · obtain ⟨rest, -, heq⟩ := Option.map_eq_some_iff.mp h
      cases heq
      rw [List.getLast?_append_of_ne_nil _ hne]
      intro hlast
      have hplain := hp backslash (List.mem_of_getLast? hlast)
      revert hplain
      decide
    · cases h

/-- A text that is read as itself has no characters with a meaning of their own. -/
theorem plain_of_tokens (htail : EndsString tail)
    (h : lexer.tokens (.string v) (u ++ quote :: (tail ++ s)) = some (.string (v ++ u) :: ts)) :
    ∀ b ∈ u, isPlain b = true := by
  induction u generalizing v with
  | nil => simp
  | cons b u ih =>
    rw [List.cons_append] at h
    by_cases hb : isPlain b = true
    · rw [show b :: (u ++ quote :: (tail ++ s)) = [b] ++ (u ++ quote :: (tail ++ s)) from rfl,
        tokens_plain (by simpa using hb), List.append_cons v b u] at h
      exact List.forall_mem_cons.mpr ⟨hb, ih h⟩
    exfalso
    by_cases hlow : b.toNat < 0x20
    · rw [tokens_control hlow] at h
      cases h
    by_cases hquote : b = quote
    · rw [hquote, tokens_quote] at h
      split at h
      · obtain ⟨rest, -, heq⟩ := Option.map_eq_some_iff.mp h
        have hlen : v.length = (v ++ quote :: u).length := by
          injection heq with heq _
          injection heq with heq
          exact congrArg List.length heq
        rw [List.length_append, List.length_cons] at hlen
        omega
      · cases h
    obtain rfl : b = backslash := by
      by_contra hslash
      exact hb (isPlain_iff.mpr ⟨by omega, hquote, hslash⟩)
    rw [tokens_backslash] at h
    rcases string_size rfl h with hle | ⟨hlast, w, ts', hbeyond⟩
    · rw [List.length_append, List.length_cons, Mode.size] at hle
      omega
    · refine htail.last hbeyond ?_
      rw [List.getLast?_append_of_ne_nil _ (List.cons_ne_nil _ _)]
      rcases hlast with ⟨rfl, -⟩ | hlast
      · rfl
      · rw [List.getLast?_cons, hlast]
        rfl

/-- A text between quotes is read as itself exactly if it is verbatim. -/
theorem prints_string {q : Mode} (htail : EndsString tail)
    (hfeed : lexer.feed .between tail = some (q, out)) (u : List Byte) :
    lexer.Prints (.string []) (u ++ quote :: tail) (.string u :: out) q (Verbatim u) := by
  have hread : ∀ s, (∀ b ∈ u, isPlain b = true) →
      lexer.tokens (.string []) (u ++ quote :: (tail ++ s)) =
        if (codePoints u).isSome then
          (lexer.tokens q s).map fun ts => .string u :: (out ++ ts)
        else none := by
    intro s hplain
    rw [tokens_plain hplain, List.nil_append, tokens_quote, Lexer.tokens_append hfeed,
      Option.map_map]
    rfl
  intro s ts
  rw [List.append_assoc, List.cons_append, List.cons_append]
  constructor
  · intro h
    have hplain := plain_of_tokens htail h
    rw [hread s hplain] at h
    split at h
    next htext =>
      obtain ⟨rest, hrest, heq⟩ := Option.map_eq_some_iff.mp h
      injection heq with _ heq
      rw [← List.append_cancel_left heq]
      exact ⟨⟨hplain, htext⟩, hrest⟩
    next => cases h
  · rintro ⟨hverbatim, hrest⟩
    rw [hread s hverbatim.plain, if_pos hverbatim.text, hrest]
    rfl

/-! #### Parts of a text -/

variable {q q' : Mode} {t w : List Byte} {out' : List Token} {P : Prop}

/-- Behind an opening quote: any text, and a literal part with the closing quote. -/
theorem prints_name (ht : lexer.Prints q t out (.string []) P) (u literal : List Byte)
    (hquote : literal.head? = some quote) (hends : EndsString literal.tail)
    (hrest : lexer.feed .between literal.tail = some (q', out')) :
    lexer.Prints q (t ++ u ++ literal) (out ++ .string u :: out') q' (P ∧ Verbatim u) := by
  obtain ⟨rest, rfl⟩ := List.head?_eq_some_iff.mp hquote
  rw [List.append_assoc]
  exact ht.append (prints_string hends hrest u)

/-- Behind an opening quote: a verbatim text, and a literal part with the closing quote. -/
theorem prints_verbatim (ht : lexer.Prints q t out (.string []) P) (hu : Verbatim u)
    (literal : List Byte) (hquote : literal.head? = some quote)
    (hrest : lexer.feed .between literal.tail = some (q', out')) :
    lexer.Prints q (t ++ u ++ literal) (out ++ .string u :: out') q' P := by
  obtain ⟨rest, rfl⟩ := List.head?_eq_some_iff.mp hquote
  have hstring : lexer.feed (.string u) (quote :: rest) = some (q', .string u :: out') := by
    rw [Lexer.feed, show lexer.step (.string u) quote = _ from step_quote u, if_pos hu.text,
      Option.bind_some]
    rw [List.tail_cons] at hrest
    rw [hrest]
    rfl
  have hfeed := Lexer.feed_append (feed_plain hu.plain []) hstring
  rw [List.append_assoc]
  exact ht.before hfeed

/-- A number or a name, and a literal part that ends it. -/
theorem prints_word (ht : lexer.Prints q t out .between P) (hne : w ≠ [])
    (hbytes : ∀ b ∈ w, isWordByte b = true) (hw : isWord w = true) (literal : List Byte)
    (hends : ∃ b ∈ literal.head?, isWordByte b = false)
    (hrest : lexer.feed .between literal = some (q', out')) :
    lexer.Prints q (t ++ w ++ literal) (out ++ .word w :: out') q' P := by
  have hstart : ∀ b, isWordByte b = true → lexer.step .between b = some (.word [b], []) := by
    intro b hb
    have hall : ∀ b : Byte, isWordByte b = true → isSpace b = false ∧ b ≠ quote := by
      decide
    show start b = _
    rw [start, (hall b hb).1, if_neg Bool.false_ne_true, if_neg (hall b hb).2, if_pos hb]
  have hmore : ∀ w v : List Byte, (∀ b ∈ w, isWordByte b = true) →
      lexer.feed (.word v) w = some (.word (v ++ w), []) := by
    intro w
    induction w with
    | nil => exact fun v _ => by rw [List.append_nil]; rfl
    | cons b w ih =>
      intro v hw
      have hstep : lexer.step (.word v) b = some (.word (v ++ [b]), []) :=
        if_pos (hw b List.mem_cons_self)
      rw [Lexer.feed, hstep, Option.bind_some, ih _ fun c hc => hw c (List.mem_cons_of_mem b hc),
        List.append_assoc]
      rfl
  have hread : lexer.feed .between w = some (.word w, []) := by
    obtain ⟨b, w, rfl⟩ := List.exists_cons_of_ne_nil hne
    rw [Lexer.feed, hstart b (hbytes b List.mem_cons_self), Option.bind_some,
      hmore w [b] fun c hc => hbytes c (List.mem_cons_of_mem b hc)]
    rfl
  obtain ⟨b, hhead, hb⟩ := hends
  obtain ⟨rest, rfl⟩ := List.head?_eq_some_iff.mp hhead
  have hend : lexer.feed (.word w) (b :: rest) = some (q', .word w :: out') := by
    have hstep : lexer.step (.word w) b = (start b).map fun r => (r.1, .word w :: r.2) := by
      show step (.word w) b = _
      rw [step, if_neg (by rw [hb]; exact Bool.false_ne_true), if_pos hw]
    have hbetween : lexer.step .between b = start b := rfl
    rw [Lexer.feed, hbetween] at hrest
    rw [Lexer.feed, hstep]
    obtain ⟨r, hr, hmap⟩ := Option.bind_eq_some_iff.mp hrest
    obtain ⟨r', hr', heq⟩ := Option.map_eq_some_iff.mp hmap
    cases heq
    rw [hr, Option.map_some, Option.bind_some, hr']
    rfl
  have hfeed := Lexer.feed_append hread hend
  rw [List.append_assoc]
  exact ht.before hfeed

end Strings

/-! ### The grammar -/

/-- What may come next: a value, or the end of an empty array; a name, or the end of an empty object;
a colon; or what follows a value. -/
inductive Expects where
  | value
  | element
  | name
  | member
  | colon
  | done
  deriving DecidableEq, Repr

inductive Nesting where
  | object
  | array
  deriving DecidableEq, Repr

/-- The objects and arrays that are open, the innermost first. -/
structure Place where
  nesting : List Nesting
  expects : Expects
  deriving DecidableEq, Repr

def beginValue (nesting : List Nesting) : Token → Option Place
  | .string _ | .word _ => some ⟨nesting, .done⟩
  | .beginObject => some ⟨.object :: nesting, .member⟩
  | .beginArray => some ⟨.array :: nesting, .element⟩
  | _ => none

def Place.step : Place → Token → Option Place
  | ⟨nesting, .value⟩, t => beginValue nesting t
  | ⟨.array :: nesting, .element⟩, .endArray => some ⟨nesting, .done⟩
  | ⟨nesting, .element⟩, t => beginValue nesting t
  | ⟨nesting, .name⟩, .string _ => some ⟨nesting, .colon⟩
  | ⟨nesting, .member⟩, .string _ => some ⟨nesting, .colon⟩
  | ⟨.object :: nesting, .member⟩, .endObject => some ⟨nesting, .done⟩
  | ⟨nesting, .colon⟩, .colon => some ⟨nesting, .value⟩
  | ⟨.object :: nesting, .done⟩, .comma => some ⟨.object :: nesting, .name⟩
  | ⟨.object :: nesting, .done⟩, .endObject => some ⟨nesting, .done⟩
  | ⟨.array :: nesting, .done⟩, .comma => some ⟨.array :: nesting, .value⟩
  | ⟨.array :: nesting, .done⟩, .endArray => some ⟨nesting, .done⟩
  | _, _ => none

/-- The tokens of exactly one value. -/
def WellFormed (ts : List Token) : Prop := ts.foldlM Place.step ⟨[], .value⟩ = some ⟨[], .done⟩

instance : DecidablePred WellFormed := fun _ => inferInstanceAs (Decidable (_ = _))

/-- Values of an array or members of an object, up to the token that closes it. -/
theorem foldlM_separated {kind : Nesting} {nesting : List Nesting} {first next : Expects}
    {close : Token} {xs : List (List Token)}
    (hcomma : Place.step ⟨kind :: nesting, .done⟩ .comma = some ⟨kind :: nesting, next⟩)
    (hclose : ∀ e, e = first ∨ e = .done →
      Place.step ⟨kind :: nesting, e⟩ close = some ⟨nesting, .done⟩)
    (h : ∀ x ∈ xs, ∀ e, e = first ∨ e = next →
      x.foldlM Place.step ⟨kind :: nesting, e⟩ = some ⟨kind :: nesting, .done⟩) :
    (Lexer.separated [.comma] true xs ++ [close]).foldlM Place.step ⟨kind :: nesting, first⟩ =
      some ⟨nesting, .done⟩ := by
  have hrest : ∀ xs : List (List Token), (∀ x ∈ xs, ∀ e, e = first ∨ e = next →
      x.foldlM Place.step ⟨kind :: nesting, e⟩ = some ⟨kind :: nesting, .done⟩) →
      (Lexer.separated [.comma] false xs ++ [close]).foldlM Place.step ⟨kind :: nesting, .done⟩ =
        some ⟨nesting, .done⟩ := by
    intro xs
    induction xs with
    | nil =>
      intro _
      rw [Lexer.separated, List.nil_append, List.foldlM_cons, hclose .done (Or.inr rfl)]
      rfl
    | cons x xs ih =>
      intro h
      rw [Lexer.separated, if_neg Bool.false_ne_true, List.append_assoc, List.append_assoc,
        List.singleton_append, List.foldlM_cons, hcomma, Option.bind_eq_bind, Option.bind_some,
        List.foldlM_append, h x List.mem_cons_self next (Or.inr rfl)]
      exact ih fun y hy => h y (List.mem_cons_of_mem x hy)
  cases xs with
  | nil =>
    rw [Lexer.separated, List.nil_append, List.foldlM_cons, hclose first (Or.inl rfl)]
    rfl
  | cons x xs =>
    rw [Lexer.separated, if_pos rfl, List.nil_append, List.append_assoc, List.foldlM_append,
      h x List.mem_cons_self first (Or.inl rfl)]
    exact hrest xs fun y hy => h y (List.mem_cons_of_mem x hy)

/-- The tokens of a JSON text. -/
def read (s : List Byte) : Option (List Token) :=
  (lexer.tokens .between s).filter fun ts => decide (WellFormed ts)

theorem read_eq_some {s : List Byte} {ts : List Token} (h : WellFormed ts) :
    read s = some ts ↔ lexer.tokens .between s = some ts := by
  rw [read, Option.filter_eq_some_iff]
  simp [h]

end Json
