import Kcov.Lib.Lexer
import Kcov.Lib.Utf8
import Mathlib.Data.List.Infix

/-! XML as a streaming parser reads it: the tokens of a document, and the sequences of tokens that are
well-formed. A document type declaration may name an external subset, but has none of its own, and no
other entities are known than the predefined ones. White space that a parser replaces by other white
space is not read: carriage returns, and tabs and line feeds in the values of attributes. -/

namespace Xml

open Bytes Utf8

/-- What stands between two tags, comments and so on is one token, also when it is empty. `other` is
a comment or a processing instruction. -/
inductive Token where
  | declaration
  | doctype
  | start (tag : List Byte)
  | attribute (name value : List Byte)
  | close (tag : List Byte)
  | text (value : List Byte)
  | cdata (value : List Byte)
  | other
  deriving DecidableEq, Repr

def quote : Byte := 0x22
def apostrophe : Byte := 0x27
def lessThan : Byte := 0x3c
def greaterThan : Byte := 0x3e
def ampersand : Byte := 0x26
def bracket : Byte := 0x5d

def isSpace (b : Byte) : Bool := b = 0x20 || b = 0x09 || b = 0x0a

/-! ### Characters and names -/

def inRanges (ranges : List (Nat × Nat)) (c : Nat) : Bool := ranges.any fun r => r.1 ≤ c && c ≤ r.2

def charRanges : List (Nat × Nat) :=
  [(0x9, 0xa), (0xd, 0xd), (0x20, 0xd7ff), (0xe000, 0xfffd), (0x10000, 0x10ffff)]

/-- Text in UTF-8 without the code points that are no characters. -/
def isLegal (s : List Byte) : Bool := (codePoints s).any fun cs => cs.all (inRanges charRanges)

def nameStartRanges : List (Nat × Nat) :=
  [(0x3a, 0x3a), (0x41, 0x5a), (0x5f, 0x5f), (0x61, 0x7a), (0xc0, 0xd6), (0xd8, 0xf6),
    (0xf8, 0x2ff), (0x370, 0x37d), (0x37f, 0x1fff), (0x200c, 0x200d), (0x2070, 0x218f),
    (0x2c00, 0x2fef), (0x3001, 0xd7ff), (0xf900, 0xfdcf), (0xfdf0, 0xfffd), (0x10000, 0xeffff)]

def nameRanges : List (Nat × Nat) :=
  nameStartRanges ++ [(0x2d, 0x2e), (0x30, 0x39), (0xb7, 0xb7), (0x300, 0x36f), (0x203f, 0x2040)]

def isName (s : List Byte) : Bool :=
  (codePoints s).any fun
    | [] => false
    | c :: cs => inRanges nameStartRanges c && cs.all (inRanges nameRanges)

/-- A byte that can be part of a name. -/
def isNameByte (b : Byte) : Bool := 0x80 ≤ b.toNat || inRanges nameRanges b.toNat

/-! ### References -/

def isReferenceByte (b : Byte) : Bool := b = 0x23 || inRanges nameRanges b.toNat

def number (base : Nat) (digits : List Byte) : Option Nat :=
  if digits = [] then none
  else digits.foldlM (fun n b => (digitOf base b).map (base * n + ·)) 0

def character (n : Nat) : Option (List Byte) :=
  if inRanges charRanges n then some (encode n) else none

/-- What stands for `&name;`. -/
def reference (name : List Byte) : Option (List Byte) :=
  if name = ascii "lt" then some [lessThan]
  else if name = ascii "gt" then some [greaterThan]
  else if name = ascii "amp" then some [ampersand]
  else if name = ascii "quot" then some [quote]
  else if name = ascii "apos" then some [apostrophe]
  else
    match name with
    | [] => none
    | hash :: digits =>
      if hash ≠ 0x23 then none
      else
        match digits with
        | [] => none
        | x :: hex =>
          if x = 0x78 then (number 16 hex).bind character else (number 10 digits).bind character

/-- In the name of a reference: what stands for it behind the `;`, or a longer part of it. -/
def referenceStep (name : List Byte) (b : Byte) : Option (List Byte ⊕ List Byte) :=
  if b = 0x3b then (reference name).map .inl
  else if isReferenceByte b then some (.inr (name ++ [b]))
  else none

/-! ### Declarations

The rest of a text behind one of its parts. -/

def afterSpace : List Byte → Option (List Byte)
  | [] => none
  | b :: s => if isSpace b then some (s.dropWhile isSpace) else none

def afterName (s : List Byte) : Option (List Byte) :=
  if isName (s.takeWhile isNameByte) then some (s.dropWhile isNameByte) else none

def afterKeyword (word s : List Byte) : Option (List Byte) :=
  if word <+: s then some (s.drop word.length) else none

def afterLiteral : List Byte → Option (List Byte)
  | [] => none
  | q :: s =>
    if q = quote ∨ q = apostrophe then
      match s.dropWhile (· ≠ q) with
      | [] => none
      | _ :: rest => some rest
    else none

/-- The text between `<!DOCTYPE` and `>`. -/
def isDoctype (s : List Byte) : Bool :=
  let behind := (afterSpace s).bind afterName
  let system := ((behind.bind afterSpace).bind (afterKeyword (ascii "SYSTEM"))).bind afterSpace
  let identified := (((behind.bind afterSpace).bind (afterKeyword (ascii "PUBLIC"))).bind
    afterSpace).bind afterLiteral
  let literal := ((system.orElse fun _ => identified.bind afterSpace).bind afterLiteral)
  (literal.orElse fun _ => behind).any (·.all isSpace)

/-- The text between `<?` and `?>` at the beginning of a document, if it is a version alone. -/
def isDeclaration (s : List Byte) : Bool :=
  let version := ((afterKeyword (ascii "xml") s).bind afterSpace).bind
    (afterKeyword (ascii "version"))
  let number := (version.bind fun s => afterKeyword (ascii "=") (s.dropWhile isSpace)).map
    (·.dropWhile isSpace)
  (number.bind afterLiteral).any (·.all isSpace) &&
    number.any fun s => s.tail.take 3 = ascii "1.0" || s.tail.take 3 = ascii "1.1"

/-! ### The lexer -/

/-- Where a text is cut. -/
inductive Mode where
  /-- Between tags, behind `brackets` closing brackets. -/
  | text (value : List Byte) (brackets : Nat)
  | textReference (value name : List Byte)
  | markup
  | opening (tag : List Byte)
  /-- Behind white space in a tag. -/
  | inTag (tag : List Byte)
  | afterValue (tag : List Byte)
  | attribute (tag name : List Byte)
  | beforeEquals (tag name : List Byte)
  | beforeValue (tag name : List Byte)
  | value (tag name : List Byte) (delimiter : Byte) (value : List Byte)
  | valueReference (tag name : List Byte) (delimiter : Byte) (value reference : List Byte)
  | emptyEnd (tag : List Byte)
  | closing (tag : List Byte)
  | closeEnd (tag : List Byte)
  | bang (word : List Byte)
  | comment (text : List Byte) (dashes : Nat)
  | cdata (value : List Byte) (brackets : Nat)
  | doctype (text : List Byte) (delimiter : Option Byte)
  | instruction (text : List Byte)
  deriving DecidableEq, Repr

/-- Behind the name of a tag or the value of an attribute. -/
def tagStep (tag : List Byte) (b : Byte) : Option Mode :=
  if isSpace b then some (.inTag tag)
  else if b = greaterThan then some (.text [] 0)
  else if b = 0x2f then some (.emptyEnd tag)
  else none

/-- Behind `<!`. -/
def bangStep (word : List Byte) : Option Mode :=
  if word = ascii "--" then some (.comment [] 0)
  else if word = ascii "[CDATA[" then some (.cdata [] 0)
  else if word = ascii "DOCTYPE" then some (.doctype [] none)
  else if word = ascii "-" ∨ word <+: ascii "[CDATA[" ∨ word <+: ascii "DOCTYPE" then
    some (.bang word)
  else none

/-- A processing instruction with the text `s`. -/
def instructionEnd (s : List Byte) : Option Token :=
  let target := s.takeWhile isNameByte
  if target = ascii "xml" then
    if isDeclaration s then some .declaration else none
  else if isLegal s && isName target && target.map (· ||| 0x20) ≠ ascii "xml" &&
    (s.dropWhile isNameByte).head?.all isSpace then some .other
  else none

def markupStep : Mode → Byte → Option (Mode × List Token)
  | .text v n, b =>
    if b = lessThan then if isLegal v then some (.markup, [.text v]) else none
    else if b = ampersand then some (.textReference v [], [])
    else if b = greaterThan ∧ 2 ≤ n then none
    else some (.text (v ++ [b]) (if b = bracket then n + 1 else 0), [])
  | .textReference v r, b =>
    (referenceStep r b).map
      (Sum.elim (fun c => (.text (v ++ c) 0, [])) fun r => (.textReference v r, []))
  | .markup, b =>
    if b = 0x2f then some (.closing [], [])
    else if b = 0x21 then some (.bang [], [])
    else if b = 0x3f then some (.instruction [], [])
    else if isNameByte b then some (.opening [b], [])
    else none
  | .opening tag, b =>
    if isNameByte b then some (.opening (tag ++ [b]), [])
    else if isName tag then (tagStep tag b).map fun m => (m, [.start tag])
    else none
  | .inTag tag, b =>
    if isNameByte b then some (.attribute tag [b], [])
    else (tagStep tag b).map fun m => (m, [])
  | .afterValue tag, b => (tagStep tag b).map fun m => (m, [])
  | .attribute tag name, b =>
    if isNameByte b then some (.attribute tag (name ++ [b]), [])
    else if !isName name then none
    else if isSpace b then some (.beforeEquals tag name, [])
    else if b = 0x3d then some (.beforeValue tag name, [])
    else none
  | .beforeEquals tag name, b =>
    if isSpace b then some (.beforeEquals tag name, [])
    else if b = 0x3d then some (.beforeValue tag name, [])
    else none
  | .beforeValue tag name, b =>
    if isSpace b then some (.beforeValue tag name, [])
    else if b = quote ∨ b = apostrophe then some (.value tag name b [], [])
    else none
  | .value tag name q v, b =>
    if b = q then if isLegal v then some (.afterValue tag, [.attribute name v]) else none
    else if b = lessThan ∨ b.toNat < 0x20 then none
    else if b = ampersand then some (.valueReference tag name q v [], [])
    else some (.value tag name q (v ++ [b]), [])
  | .valueReference tag name q v r, b =>
    (referenceStep r b).map (Sum.elim (fun c => (.value tag name q (v ++ c), []))
      fun r => (.valueReference tag name q v r, []))
  | .emptyEnd tag, b => if b = greaterThan then some (.text [] 0, [.close tag]) else none
  | .closing tag, b =>
    if isNameByte b then some (.closing (tag ++ [b]), [])
    else if !isName tag then none
    else if isSpace b then some (.closeEnd tag, [])
    else if b = greaterThan then some (.text [] 0, [.close tag])
    else none
  | .closeEnd tag, b =>
    if isSpace b then some (.closeEnd tag, [])
    else if b = greaterThan then some (.text [] 0, [.close tag])
    else none
  | .bang word, b => (bangStep (word ++ [b])).map fun m => (m, [])
  | .comment s n, b =>
    if n = 2 then if b = greaterThan ∧ isLegal s then some (.text [] 0, [.other]) else none
    else if b = 0x2d then some (.comment s (n + 1), [])
    else some (.comment (s ++ List.replicate n 0x2d ++ [b]) 0, [])
  | .cdata v n, b =>
    if b = greaterThan ∧ 2 ≤ n then
      if isLegal v then some (.text [] 0, [.cdata (v.take (v.length - 2))]) else none
    else some (.cdata (v ++ [b]) (if b = bracket then n + 1 else 0), [])
  | .doctype s (some q), b => some (.doctype (s ++ [b]) (if b = q then none else some q), [])
  | .doctype s none, b =>
    if b = greaterThan then
      if isLegal s && isDoctype s then some (.text [] 0, [.doctype]) else none
    else if b = 0x5b then none
    else some (.doctype (s ++ [b]) (if b = quote ∨ b = apostrophe then some b else none), [])
  | .instruction s, b =>
    if b = greaterThan ∧ s.getLast? = some 0x3f then
      (instructionEnd s.dropLast).map fun t => (.text [] 0, [t])
    else some (.instruction (s ++ [b]), [])

/-- No control characters may stand anywhere. -/
def step (m : Mode) (b : Byte) : Option (Mode × List Token) :=
  if b.toNat < 0x20 ∧ isSpace b = false then none else markupStep m b

/-- A document ends with white space. -/
def finish : Mode → Option (List Token)
  | .text v _ => if v.all isSpace then some [] else none
  | _ => none

def lexer : Lexer Mode Byte Token := ⟨step, finish⟩

/-! ### Texts that stand for themselves -/

def isPlain (b : Byte) : Bool := 0x20 ≤ b.toNat && b ≠ quote && b ≠ lessThan && b ≠ ampersand

/-- A text that is read as itself between double quotes. -/
structure VerbatimValue (s : List Byte) : Prop where
  plain : ∀ b ∈ s, isPlain b = true
  legal : isLegal s = true

instance (s : List Byte) : Decidable (VerbatimValue s) :=
  decidable_of_iff (s.all isPlain = true ∧ isLegal s = true)
    ⟨fun h => ⟨List.all_eq_true.mp h.1, h.2⟩, fun h => ⟨List.all_eq_true.mpr h.plain, h.legal⟩⟩

def isPlainText (b : Byte) : Bool :=
  (0x20 ≤ b.toNat || isSpace b) && b ≠ lessThan && b ≠ ampersand

/-- A text that is read as itself between tags. -/
structure VerbatimText (s : List Byte) : Prop where
  plain : ∀ b ∈ s, isPlainText b = true
  sections : ¬ascii "]]>" <:+: s
  legal : isLegal s = true

instance (s : List Byte) : Decidable (VerbatimText s) :=
  decidable_of_iff (s.all isPlainText = true ∧ ¬ascii "]]>" <:+: s ∧ isLegal s = true)
    ⟨fun h => ⟨List.all_eq_true.mp h.1, h.2.1, h.2.2⟩,
      fun h => ⟨List.all_eq_true.mpr h.plain, h.sections, h.legal⟩⟩

section References

variable {base n : Nat} {b : Byte} {c s : List Byte}

theorem digitOf_lt {d : Nat} (h : digitOf base b = some d) : d < base := by
  unfold digitOf at h
  dsimp only at h
  obtain ⟨hlt, heq⟩ := Option.ite_none_right_eq_some.mp h
  exact Option.some.inj heq ▸ hlt

/-- A number of one digit is less than the base. -/
theorem number_singleton (h : number base [b] = some n) : n < base := by
  have hdigit : digitOf base b = some n := by
    rw [number, if_neg (List.cons_ne_nil b []), List.foldlM_cons, Nat.mul_zero] at h
    simpa using h
  exact digitOf_lt hdigit

theorem character_length (h : character n = some c) :
    c.length ≤ 4 ∧ (n < 16 → c.length = 1) := by
  unfold character at h
  split at h
  · cases h
    refine ⟨length_encode_le n, fun hn => ?_⟩
    rw [encode, if_pos (by omega)]
    rfl
  · cases h

theorem number_length (hbase : base ≤ 16) (h : (number base s).bind character = some c) :
    c.length ≤ s.length + 2 := by
  obtain ⟨n, hn, hc⟩ := Option.bind_eq_some_iff.mp h
  have hlen := character_length hc
  match s with
  | [] => cases hn
  | [b] =>
    have hlt := number_singleton hn
    rw [hlen.2 (by omega), List.length_singleton]
    omega
  | _ :: _ :: _ =>
    rw [List.length_cons, List.length_cons]
    omega

/-- A reference is no shorter than what it stands for. -/
theorem reference_length {name : List Byte} (h : reference name = some c) :
    c.length ≤ name.length + 1 := by
  unfold reference at h
  split at h
  · cases h
    simp
  split at h
  · cases h
    simp
  split at h
  · cases h
    simp
  split at h
  · cases h
    simp
  split at h
  · cases h
    simp
  split at h
  · cases h
  next hash digits =>
    split at h
    · cases h
    split at h
    · cases h
    next x hex =>
      split at h
      · have hle := number_length (Nat.le_refl _) h
        rw [List.length_cons, List.length_cons]
        omega
      · have hle := number_length (by decide) h
        rw [List.length_cons, List.length_cons] at *
        omega

theorem referenceStep_length {name : List Byte} {r : List Byte ⊕ List Byte}
    (h : referenceStep name b = some r) : (r.elim id id).length ≤ name.length + 1 := by
  unfold referenceStep at h
  split at h
  · obtain ⟨c, hc, rfl⟩ := Option.map_eq_some_iff.mp h
    exact reference_length hc
  split at h
  · cases h
    rw [Sum.elim_inr, id, List.length_append, List.length_singleton]
  · cases h

end References

section Verbatim

variable {m : Mode} {b : Byte} {out ts : List Token} {u v r s tail D tag name : List Byte}

theorem step_eq (h : 0x20 ≤ b.toNat ∨ isSpace b = true) (m : Mode) :
    step m b = markupStep m b := by
  rw [step, if_neg]
  rintro ⟨hlow, hspace⟩
  rcases h with h | h
  · omega
  · rw [hspace] at h
    cases h

/-! #### Values -/

theorem tokens_value_quote (v s : List Byte) :
    lexer.tokens (.value tag name quote v) (quote :: s) =
      if isLegal v then (lexer.tokens (.afterValue tag) s).map (.attribute name v :: ·)
      else none := by
  have hstep : lexer.step (.value tag name quote v) quote =
      if isLegal v then some (.afterValue tag, [.attribute name v]) else none := by
    show step (.value tag name quote v) quote = _
    rw [step_eq (by decide), markupStep, if_pos rfl]
  rw [Lexer.tokens, hstep]
  split <;> rfl

theorem tokens_value_plain (hb : isPlain b = true) (v s : List Byte) :
    lexer.tokens (.value tag name quote v) (b :: s) =
      lexer.tokens (.value tag name quote (v ++ [b])) s := by
  have hplain : 0x20 ≤ b.toNat ∧ b ≠ quote ∧ b ≠ lessThan ∧ b ≠ ampersand := by
    simpa [isPlain, and_assoc] using hb
  obtain ⟨hlow, hquote, hless, hamp⟩ := hplain
  have hstep : lexer.step (.value tag name quote v) b =
      some (.value tag name quote (v ++ [b]), []) := by
    show step (.value tag name quote v) b = _
    rw [step_eq (Or.inl hlow), markupStep, if_neg hquote, if_neg (by simp [hless]; omega),
      if_neg hamp]
  rw [Lexer.tokens, hstep]
  exact Option.map_id'

theorem tokens_value_ampersand (v s : List Byte) :
    lexer.tokens (.value tag name quote v) (ampersand :: s) =
      lexer.tokens (.valueReference tag name quote v []) s :=
  Option.map_id'

/-- What is neither plain nor a quote nor the beginning of a reference is an error. -/
theorem tokens_value_error (hb : isPlain b = false) (hquote : b ≠ quote) (hamp : b ≠ ampersand)
    (v s : List Byte) : lexer.tokens (.value tag name quote v) (b :: s) = none := by
  have hstep : lexer.step (.value tag name quote v) b = none := by
    show step (.value tag name quote v) b = _
    rw [step, markupStep, if_neg hquote]
    split
    · rfl
    · rw [if_pos]
      by_contra hnot
      rw [not_or] at hnot
      have hplain : isPlain b = true := by
        simp [isPlain, hquote, hamp, hnot.1, Nat.le_of_not_lt hnot.2]
      rw [hplain] at hb
      cases hb
  rw [Lexer.tokens, hstep]
  rfl

/-- A reference goes on or ends, and what stands for it is no longer than the reference. -/
theorem tokens_reference {val ref : List Byte → Mode} (href : ∀ r b, markupStep (ref r) b =
      (referenceStep r b).map (Sum.elim (fun c => (val c, [])) fun r => (ref r, [])))
    (h : lexer.tokens (ref r) (b :: s) = some ts) :
    (∃ c, c.length ≤ r.length + 1 ∧ lexer.tokens (val c) s = some ts) ∨
      ∃ r', r'.length ≤ r.length + 1 ∧ lexer.tokens (ref r') s = some ts := by
  rw [Lexer.tokens, Option.bind_eq_some_iff] at h
  obtain ⟨⟨m, out⟩, hstep, hrest⟩ := h
  obtain ⟨rest, htokens, heq⟩ := Option.map_eq_some_iff.mp hrest
  have hstep' : step (ref r) b = some (m, out) := hstep
  rw [step, href] at hstep'
  split at hstep'
  · cases hstep'
  obtain ⟨next, hnext, hm⟩ := Option.map_eq_some_iff.mp hstep'
  have hlen := referenceStep_length hnext
  cases next with
  | inl c =>
    cases hm
    exact Or.inl ⟨c, hlen, heq ▸ htokens⟩
  | inr r' =>
    cases hm
    exact Or.inr ⟨r', hlen, heq ▸ htokens⟩

/-- The value that ends behind `u` is no longer than what was read. -/
theorem value_size : ∀ (u : List Byte),
    (∀ v, lexer.tokens (.value tag name quote v) (u ++ quote :: s) =
      some (.attribute name D :: ts) → D.length ≤ v.length + u.length) ∧
    ∀ v r, lexer.tokens (.valueReference tag name quote v r) (u ++ quote :: s) =
      some (.attribute name D :: ts) → D.length ≤ v.length + r.length + u.length := by
  have hends : ∀ {v s}, lexer.tokens (.value tag name quote v) (quote :: s) =
      some (.attribute name D :: ts) → D = v := by
    intro v s h
    rw [tokens_value_quote] at h
    split at h
    · obtain ⟨rest, -, heq⟩ := Option.map_eq_some_iff.mp h
      cases heq
      rfl
    · cases h
  intro u
  induction u with
  | nil =>
    refine ⟨fun v h => ?_, fun v r h => ?_⟩
    · rw [hends h]
      exact Nat.le_refl _
    · cases h
  | cons b u ih =>
    refine ⟨fun v h => ?_, fun v r h => ?_⟩
    · rw [List.cons_append] at h
      rw [List.length_cons]
      by_cases hquote : b = quote
      · rw [hquote] at h
        rw [hends h]
        omega
      by_cases hamp : b = ampersand
      · rw [hamp, tokens_value_ampersand] at h
        have hle := ih.2 v [] h
        rw [List.length_nil] at hle
        omega
      by_cases hb : isPlain b = true
      · rw [tokens_value_plain hb] at h
        have hle := ih.1 (v ++ [b]) h
        rw [List.length_append, List.length_singleton] at hle
        omega
      · rw [tokens_value_error (Bool.eq_false_iff.mpr hb) hquote hamp] at h
        cases h
    · rw [List.length_cons]
      rcases tokens_reference (fun _ _ => rfl) h with ⟨c, hlen, hrest⟩ | ⟨r', hlen, hrest⟩
      · have hle := ih.1 (v ++ c) hrest
        rw [List.length_append] at hle
        omega
      · have hle := ih.2 v r' hrest
        omega

/-- A value that is read as it is written has no characters with a meaning of their own. -/
theorem plain_of_value (h : lexer.tokens (.value tag name quote v) (u ++ quote :: s) =
    some (.attribute name (v ++ u) :: ts)) : ∀ b ∈ u, isPlain b = true := by
  induction u generalizing v with
  | nil => simp
  | cons b u ih =>
    have hlen : (v ++ b :: u).length = v.length + u.length + 1 := by
      rw [List.length_append, List.length_cons]
      omega
    by_cases hb : isPlain b = true
    · rw [List.cons_append, tokens_value_plain hb, List.append_cons v b u] at h
      exact List.forall_mem_cons.mpr ⟨hb, ih h⟩
    exfalso
    by_cases hquote : b = quote
    · subst hquote
      have hle := (value_size []).1 v h
      rw [List.length_nil] at hle
      omega
    by_cases hamp : b = ampersand
    · subst hamp
      rw [List.cons_append, tokens_value_ampersand] at h
      have hle := (value_size u).2 v [] h
      rw [List.length_nil] at hle
      omega
    · rw [List.cons_append, tokens_value_error (Bool.eq_false_iff.mpr hb) hquote hamp] at h
      cases h

theorem tokens_value (h : ∀ b ∈ u, isPlain b = true) (v s : List Byte) :
    lexer.tokens (.value tag name quote v) (u ++ s) =
      lexer.tokens (.value tag name quote (v ++ u)) s := by
  induction u generalizing v with
  | nil => rw [List.nil_append, List.append_nil]
  | cons b u ih =>
    rw [List.cons_append, tokens_value_plain (h b List.mem_cons_self),
      ih fun c hc => h c (List.mem_cons_of_mem b hc), ← List.append_cons]

/-- A value between double quotes is read as itself exactly if it is verbatim. -/
theorem prints_value (tag name u : List Byte) :
    lexer.Prints (.value tag name quote []) (u ++ [quote]) [.attribute name u] (.afterValue tag)
      (VerbatimValue u) := by
  have hread : ∀ s, (∀ b ∈ u, isPlain b = true) →
      lexer.tokens (.value tag name quote []) (u ++ quote :: s) =
        if isLegal u then (lexer.tokens (.afterValue tag) s).map (.attribute name u :: ·)
        else none := by
    intro s hplain
    rw [tokens_value hplain, List.nil_append, tokens_value_quote]
  intro s ts
  rw [List.append_assoc, List.singleton_append, List.singleton_append]
  constructor
  · intro h
    have hplain := plain_of_value h
    rw [hread s hplain] at h
    split at h
    next hlegal =>
      obtain ⟨rest, hrest, heq⟩ := Option.map_eq_some_iff.mp h
      injection heq with _ heq
      exact ⟨⟨hplain, hlegal⟩, heq ▸ hrest⟩
    next => cases h
  · rintro ⟨hverbatim, hrest⟩
    rw [hread s hverbatim.plain, if_pos hverbatim.legal, hrest]
    rfl

/-- ASCII behind a text makes no difference to its being verbatim. -/
theorem verbatimValue_append {b : Byte} (ht : ∀ c ∈ b :: u, isPlain c = true ∧ c.toNat < 0x80) :
    VerbatimValue (v ++ b :: u) ↔ VerbatimValue v := by
  have hascii := codePoints_ascii fun c hc => (ht c hc).2
  have hlegal : (((b :: u).map (·.toNat)).all (inRanges charRanges)) = true := by
    rw [List.all_map, List.all_eq_true]
    intro c hc
    obtain ⟨hplain, hlow⟩ := ht c hc
    have hall : ∀ c : Byte, isPlain c = true → c.toNat < 0x80 →
        inRanges charRanges c.toNat = true := by
      decide
    exact hall c hplain hlow
  have hsplit : isLegal (v ++ b :: u) = isLegal v := by
    rw [isLegal, isLegal, codePoints, decodeFrom_append (ht b List.mem_cons_self).2, hascii,
      ← codePoints]
    cases codePoints v with
    | none => rfl
    | some cs =>
      rw [Option.bind_some, Option.map_some, Option.any_some, Option.any_some, List.all_append,
        hlegal, Bool.and_true]
  constructor
  · intro h
    exact ⟨fun c hc => h.plain c (List.mem_append_left _ hc), hsplit ▸ h.legal⟩
  · intro h
    refine ⟨fun c hc => ?_, hsplit ▸ h.legal⟩
    rcases List.mem_append.mp hc with hc | hc
    · exact h.plain c hc
    · exact (ht c hc).1

/-- Characters of ASCII may be replaced by others that are as plain and as legal as they. -/
theorem verbatimValue_map {f : Byte → Byte}
    (hlow : ∀ b : Byte, b.toNat < 0x80 → (f b).toNat < 0x80 ∧ isPlain (f b) = isPlain b ∧
      inRanges charRanges (f b).toNat = inRanges charRanges b.toNat)
    (hhigh : ∀ b : Byte, 0x80 ≤ b.toNat → f b = b) :
    VerbatimValue (v.map f) ↔ VerbatimValue v := by
  have hplain : ∀ b, isPlain (f b) = isPlain b := by
    intro b
    by_cases hb : b.toNat < 0x80
    · exact (hlow b hb).2.1
    · rw [hhigh b (Nat.le_of_not_lt hb)]
  have hchar : ∀ c, inRanges charRanges
      (if c < 0x80 then (f (BitVec.ofNat 8 c)).toNat else c) = inRanges charRanges c := by
    intro c
    split
    next hc =>
      have hbyte : (BitVec.ofNat 8 c).toNat = c := toNat_ofNat_lt (by omega)
      rw [(hlow _ (by rw [hbyte]; exact hc)).2.2, hbyte]
    next => rfl
  have hlegal : isLegal (v.map f) = isLegal v := by
    rw [isLegal, isLegal, codePoints, decodeFrom_map (fun b hb => (hlow b hb).1) hhigh (Or.inl rfl),
      ← codePoints]
    cases codePoints v with
    | none => rfl
    | some cs =>
      rw [Option.map_some, Option.any_some, Option.any_some, List.all_map]
      exact congrArg (List.all cs) (funext hchar)
  constructor
  · intro h
    refine ⟨fun b hb => ?_, hlegal ▸ h.legal⟩
    rw [← hplain]
    exact h.plain _ (List.mem_map_of_mem hb)
  · intro h
    refine ⟨fun b hb => ?_, hlegal ▸ h.legal⟩
    obtain ⟨c, hc, rfl⟩ := List.mem_map.mp hb
    rw [hplain]
    exact h.plain c hc

/-! #### Texts -/

theorem tokens_text_lessThan (v s : List Byte) (n : Nat) :
    lexer.tokens (.text v n) (lessThan :: s) =
      if isLegal v then (lexer.tokens .markup s).map (.text v :: ·) else none := by
  have hstep : lexer.step (.text v n) lessThan =
      if isLegal v then some (.markup, [.text v]) else none := by
    show step (.text v n) lessThan = _
    rw [step_eq (by decide), markupStep, if_pos rfl]
  rw [Lexer.tokens, hstep]
  split <;> rfl

theorem tokens_text_ampersand (v s : List Byte) (n : Nat) :
    lexer.tokens (.text v n) (ampersand :: s) = lexer.tokens (.textReference v []) s :=
  Option.map_id'

theorem tokens_text_plain (hb : isPlainText b = true) (v s : List Byte) (n : Nat) :
    lexer.tokens (.text v n) (b :: s) =
      if b = greaterThan ∧ 2 ≤ n then none
      else lexer.tokens (.text (v ++ [b]) (if b = bracket then n + 1 else 0)) s := by
  have hplain : (0x20 ≤ b.toNat ∨ isSpace b = true) ∧ b ≠ lessThan ∧ b ≠ ampersand := by
    simpa [isPlainText, and_assoc] using hb
  obtain ⟨hlow, hless, hamp⟩ := hplain
  have hstep : lexer.step (.text v n) b = if b = greaterThan ∧ 2 ≤ n then none
      else some (.text (v ++ [b]) (if b = bracket then n + 1 else 0), []) := by
    show step (.text v n) b = _
    rw [step_eq hlow, markupStep, if_neg hless, if_neg hamp]
  rw [Lexer.tokens, hstep]
  split
  · rfl
  · exact Option.map_id'

theorem tokens_text_error (hb : isPlainText b = false) (hless : b ≠ lessThan) (hamp : b ≠ ampersand)
    (v s : List Byte) (n : Nat) : lexer.tokens (.text v n) (b :: s) = none := by
  have hstep : lexer.step (.text v n) b = none := by
    show step (.text v n) b = _
    have hlow : ¬(0x20 ≤ b.toNat ∨ isSpace b = true) := by
      intro hlow
      have hplain : isPlainText b = true := by
        rcases hlow with h | h <;> simp [isPlainText, hless, hamp, h]
      rw [hplain] at hb
      cases hb
    rw [not_or] at hlow
    rw [step, if_pos ⟨Nat.lt_of_not_le hlow.1, Bool.eq_false_iff.mpr hlow.2⟩]
  rw [Lexer.tokens, hstep]
  rfl

theorem text_size : ∀ (u : List Byte),
    (∀ v n, lexer.tokens (.text v n) (u ++ lessThan :: s) = some (.text D :: ts) →
      D.length ≤ v.length + u.length) ∧
    ∀ v r, lexer.tokens (.textReference v r) (u ++ lessThan :: s) = some (.text D :: ts) →
      D.length ≤ v.length + r.length + u.length := by
  have hends : ∀ {v n s}, lexer.tokens (.text v n) (lessThan :: s) = some (.text D :: ts) →
      D = v := by
    intro v n s h
    rw [tokens_text_lessThan] at h
    split at h
    · obtain ⟨rest, -, heq⟩ := Option.map_eq_some_iff.mp h
      cases heq
      rfl
    · cases h
  intro u
  induction u with
  | nil =>
    refine ⟨fun v n h => ?_, fun v r h => ?_⟩
    · rw [hends h]
      exact Nat.le_refl _
    · cases h
  | cons b u ih =>
    refine ⟨fun v n h => ?_, fun v r h => ?_⟩
    · rw [List.cons_append] at h
      rw [List.length_cons]
      by_cases hless : b = lessThan
      · rw [hless] at h
        rw [hends h]
        omega
      by_cases hamp : b = ampersand
      · rw [hamp, tokens_text_ampersand] at h
        have hle := ih.2 v [] h
        rw [List.length_nil] at hle
        omega
      by_cases hb : isPlainText b = true
      · rw [tokens_text_plain hb] at h
        split at h
        · cases h
        · have hle := ih.1 (v ++ [b]) _ h
          rw [List.length_append, List.length_singleton] at hle
          omega
      · rw [tokens_text_error (Bool.eq_false_iff.mpr hb) hless hamp] at h
        cases h
    · rw [List.length_cons]
      rcases tokens_reference (fun _ _ => rfl) h with ⟨c, hlen, hrest⟩ | ⟨r', hlen, hrest⟩
      · have hle := ih.1 (v ++ c) 0 hrest
        rw [List.length_append] at hle
        omega
      · have hle := ih.2 v r' hrest
        omega

/-- Behind `n` closing brackets, the end of a section comes in the text. -/
def endsSection : Nat → List Byte → Bool
  | _, [] => false
  | n, b :: s =>
    (b = greaterThan && 2 ≤ n) || endsSection (if b = bracket then n + 1 else 0) s

theorem endsSection_iff (n : Nat) (s : List Byte) : endsSection n s = true ↔
    (2 ≤ n ∧ ascii ">" <+: s) ∨ (1 ≤ n ∧ ascii "]>" <+: s) ∨ ascii "]]>" <:+: s := by
  induction s generalizing n with
  | nil => simp [endsSection, ascii]
  | cons b s ih =>
    rw [endsSection, Bool.or_eq_true, ih, List.infix_cons_iff]
    by_cases hb : b = bracket
    · subst hb
      simp [ascii, bracket, greaterThan, List.cons_prefix_cons]
    · by_cases hgreater : b = greaterThan
      · subst hgreater
        simp [ascii, bracket, greaterThan, List.cons_prefix_cons]
      · have hbracket : ¬0x5d#8 = b := fun h => hb h.symm
        have hend : ¬0x3e#8 = b := fun h => hgreater h.symm
        simp [ascii, hb, hgreater, hbracket, hend, List.cons_prefix_cons]

/-- A plain text up to the next tag. -/
theorem tokens_text (h : ∀ b ∈ u, isPlainText b = true) (v s : List Byte) (n : Nat) :
    lexer.tokens (.text v n) (u ++ lessThan :: s) =
      if endsSection n u = true ∨ isLegal (v ++ u) = false then none
      else (lexer.tokens .markup s).map (.text (v ++ u) :: ·) := by
  induction u generalizing v n with
  | nil =>
    rw [List.nil_append, List.append_nil, tokens_text_lessThan, endsSection]
    cases isLegal v <;> simp
  | cons b u ih =>
    rw [List.cons_append, tokens_text_plain (h b List.mem_cons_self), endsSection,
      ih (fun c hc => h c (List.mem_cons_of_mem b hc)), ← List.append_cons]
    by_cases hend : b = greaterThan ∧ 2 ≤ n
    · rw [if_pos hend, if_pos]
      simp [hend]
    · rw [if_neg hend]
      simp only [Bool.or_eq_true, Bool.and_eq_true, decide_eq_true_eq, hend, false_or]

/-- A text that is read as it is written has no characters with a meaning of their own. -/
theorem plain_of_text {n : Nat} (h : lexer.tokens (.text v n) (u ++ lessThan :: s) =
    some (.text (v ++ u) :: ts)) : ∀ b ∈ u, isPlainText b = true := by
  induction u generalizing v n with
  | nil => simp
  | cons b u ih =>
    have hlen : (v ++ b :: u).length = v.length + u.length + 1 := by
      rw [List.length_append, List.length_cons]
      omega
    by_cases hb : isPlainText b = true
    · rw [List.cons_append, tokens_text_plain hb, List.append_cons v b u] at h
      split at h
      · cases h
      · exact List.forall_mem_cons.mpr ⟨hb, ih h⟩
    exfalso
    by_cases hless : b = lessThan
    · subst hless
      have hle := (text_size []).1 v n h
      rw [List.length_nil] at hle
      omega
    by_cases hamp : b = ampersand
    · subst hamp
      rw [List.cons_append, tokens_text_ampersand] at h
      have hle := (text_size u).2 v [] h
      rw [List.length_nil] at hle
      omega
    · rw [List.cons_append, tokens_text_error (Bool.eq_false_iff.mpr hb) hless hamp] at h
      cases h

/-- A text between tags is read as itself exactly if it is verbatim. -/
theorem prints_text (u : List Byte) :
    lexer.Prints (.text [] 0) (u ++ [lessThan]) [.text u] .markup (VerbatimText u) := by
  have hsections : endsSection 0 u = true ↔ ascii "]]>" <:+: u := by
    rw [endsSection_iff]
    simp
  intro s ts
  rw [List.append_assoc, List.singleton_append, List.singleton_append]
  constructor
  · intro h
    have hplain := plain_of_text h
    rw [tokens_text hplain, List.nil_append] at h
    split at h
    · cases h
    next hnot =>
      rw [not_or, hsections, Bool.not_eq_false] at hnot
      obtain ⟨rest, hrest, heq⟩ := Option.map_eq_some_iff.mp h
      injection heq with _ heq
      exact ⟨⟨hplain, hnot.1, hnot.2⟩, heq ▸ hrest⟩
  · rintro ⟨hverbatim, hrest⟩
    rw [tokens_text hverbatim.plain, List.nil_append, if_neg, hrest]
    · rfl
    · rw [not_or, hsections, Bool.not_eq_false]
      exact ⟨hverbatim.sections, hverbatim.legal⟩

/-- Behind the opening quote of an attribute: the value, and a literal part with the closing one. -/
theorem prints_attribute {q q' : Mode} {t : List Byte} {out' : List Token} {P : Prop}
    (ht : lexer.Prints q t out (.value tag name quote []) P) (u literal : List Byte)
    (hquote : literal.head? = some quote)
    (hrest : lexer.feed (.afterValue tag) literal.tail = some (q', out')) :
    lexer.Prints q (t ++ u ++ literal) (out ++ .attribute name u :: out') q'
      (P ∧ VerbatimValue u) := by
  obtain ⟨rest, rfl⟩ := List.head?_eq_some_iff.mp hquote
  have hvalue := ht.append ((prints_value tag name u).before hrest)
  rwa [← List.append_assoc, ← List.append_assoc t, List.append_assoc (t ++ u),
    List.singleton_append, List.singleton_append] at hvalue

/-- Behind a tag: the text, which a literal part with the next tag goes on with. -/
theorem prints_content {q q' : Mode} {t : List Byte} {out' : List Token} {P : Prop}
    (ht : lexer.Prints q t out (.text [] 0) P) (u back literal : List Byte)
    (hback : back ++ [lessThan] <+: literal)
    (hrest : lexer.feed .markup (literal.drop (back.length + 1)) = some (q', out')) :
    lexer.Prints q (t ++ u ++ literal) (out ++ .text (u ++ back) :: out') q'
      (P ∧ VerbatimText (u ++ back)) := by
  obtain ⟨rest, rfl⟩ := hback
  rw [List.drop_left' (by simp)] at hrest
  have htext := ht.append ((prints_text (u ++ back)).before hrest)
  rw [List.append_assoc (u ++ back), List.singleton_append, List.append_assoc u] at htext
  rwa [List.append_assoc, List.append_assoc back]

end Verbatim

/-! ### The grammar -/

/-- How far a document has come: nothing, something, its type or its root. -/
inductive Progress where
  | nothing
  | begun
  | typed
  | rooted
  deriving DecidableEq, Repr

def Progress.begin : Progress → Progress
  | .nothing => .begun
  | p => p

/-- The tags that are open, the innermost first, and the names of the attributes of the last one. -/
structure Place where
  tags : List (List Byte)
  attributes : List (List Byte)
  progress : Progress
  deriving DecidableEq, Repr

def Place.step (p : Place) : Token → Option Place
  | .declaration => if p.progress = .nothing then some { p with progress := .begun } else none
  | .doctype =>
    if p.progress = .typed ∨ p.progress = .rooted then none else some { p with progress := .typed }
  | .start tag =>
    if p.tags = [] ∧ p.progress = .rooted then none
    else some { tags := tag :: p.tags, attributes := [], progress := .rooted }
  | .attribute name _ =>
    if p.attributes.contains name then none else some { p with attributes := name :: p.attributes }
  | .close tag => if p.tags.head? = some tag then some { p with tags := p.tags.tail } else none
  | .text v =>
    if p.tags ≠ [] ∨ v = [] then some p
    else if v.all isSpace then some { p with progress := p.progress.begin }
    else none
  | .cdata _ => if p.tags = [] then none else some p
  | .other => some { p with progress := p.progress.begin }

/-- The tokens of a document with exactly one root. -/
def WellFormed (ts : List Token) : Prop :=
  ∃ p ∈ ts.foldlM Place.step ⟨[], [], .nothing⟩, p.tags = [] ∧ p.progress = .rooted

instance : DecidablePred WellFormed := fun _ => inferInstanceAs (Decidable (∃ _ ∈ _, _))

/-- Tokens that close the tags they open, inside of another one. -/
def Balanced (ts : List Token) : Prop :=
  ∀ tag tags names, ∃ names', ts.foldlM Place.step ⟨tag :: tags, names, .rooted⟩ =
    some ⟨tag :: tags, names', .rooted⟩

section Balanced

variable {before inside after : List Token}

theorem Balanced.append (h : Balanced before) (h' : Balanced after) : Balanced (before ++ after) := by
  intro tag tags names
  obtain ⟨names', hbefore⟩ := h tag tags names
  obtain ⟨names'', hafter⟩ := h' tag tags names'
  exact ⟨names'', by rw [List.foldlM_append, hbefore]; exact hafter⟩

theorem Balanced.flatMap {α : Type} {f : α → List Token} {xs : List α}
    (h : ∀ x ∈ xs, Balanced (f x)) : Balanced (xs.flatMap f) := by
  induction xs with
  | nil => exact fun tag tags names => ⟨names, rfl⟩
  | cons x xs ih =>
    rw [List.flatMap_cons]
    exact (h x List.mem_cons_self).append (ih fun y hy => h y (List.mem_cons_of_mem x hy))

/-- Balanced tokens between those that open an element and those that close it. -/
theorem Balanced.between (hinside : Balanced inside) {p q : Place} {inner : List Byte}
    {outer names : List (List Byte)}
    (hbefore : before.foldlM Place.step p = some ⟨inner :: outer, names, .rooted⟩)
    (hafter : ∀ names, ∃ names', after.foldlM Place.step ⟨inner :: outer, names, .rooted⟩ =
      some { q with attributes := names' }) :
    ∃ names', (before ++ inside ++ after).foldlM Place.step p =
      some { q with attributes := names' } := by
  obtain ⟨filled, hfilled⟩ := hinside inner outer names
  obtain ⟨closed, hclosed⟩ := hafter filled
  refine ⟨closed, ?_⟩
  rw [List.append_assoc, List.foldlM_append, hbefore, Option.bind_eq_bind, Option.bind_some,
    List.foldlM_append, hfilled]
  exact hclosed

/-- Balanced tokens in other elements. -/
theorem Balanced.nest (hinside : Balanced inside) (inner : List Byte) (outer : List (List Byte))
    (hbefore : ∀ tag tags names, ∃ names', before.foldlM Place.step ⟨tag :: tags, names, .rooted⟩ =
      some ⟨inner :: (outer ++ tag :: tags), names', .rooted⟩)
    (hafter : ∀ tag tags names, ∃ names',
      after.foldlM Place.step ⟨inner :: (outer ++ tag :: tags), names, .rooted⟩ =
        some ⟨tag :: tags, names', .rooted⟩) : Balanced (before ++ inside ++ after) := by
  intro tag tags names
  obtain ⟨opened, hopened⟩ := hbefore tag tags names
  exact hinside.between (q := ⟨tag :: tags, [], .rooted⟩) hopened (hafter tag tags)

/-- A document is what opens and closes its root, and balanced tokens in between. -/
theorem Balanced.wellFormed (hinside : Balanced inside) (inner : List Byte)
    (outer : List (List Byte))
    (hbefore : ∃ names, before.foldlM Place.step ⟨[], [], .nothing⟩ =
      some ⟨inner :: outer, names, .rooted⟩)
    (hafter : ∀ names, ∃ names', after.foldlM Place.step ⟨inner :: outer, names, .rooted⟩ =
      some ⟨[], names', .rooted⟩) : WellFormed (before ++ inside ++ after) := by
  obtain ⟨opened, hopened⟩ := hbefore
  obtain ⟨closed, hclosed⟩ := hinside.between (q := ⟨[], [], .rooted⟩) hopened hafter
  exact ⟨⟨[], closed, .rooted⟩, hclosed, rfl, rfl⟩

end Balanced

/-- The tokens of an XML document. -/
def read (s : List Byte) : Option (List Token) :=
  (lexer.tokens (.text [] 0) s).filter fun ts => decide (WellFormed ts)

theorem read_eq_some {s : List Byte} {ts : List Token} (h : WellFormed ts) :
    read s = some ts ↔ lexer.tokens (.text [] 0) s = some ts := by
  rw [read, Option.filter_eq_some_iff]
  simp [h]

end Xml
