import Kcov.EscapeJson
import Kcov.Lib.Xml
import Kcov.Writers.CommonPath
import Kcov.Writers.JsonFiles
import Kcov.Writers.Uploads

/-! What the reports are printed from, and the numbers in them. -/

namespace Kcov

open Bytes

/-- A character of a number, of a ratio, of a date, or of the words for what is no number. -/
def isFigure (b : Byte) : Bool :=
  b = 0x20 || (0x2d ≤ b.toNat && b.toNat ≤ 0x3a) || (0x61 ≤ b.toNat && b.toNat ≤ 0x7a)

def Figures (s : Text) : Prop := ∀ b ∈ s, isFigure b = true

instance : DecidablePred Figures := fun _ => inferInstanceAs (Decidable (∀ _ ∈ _, _))

/-- What the C library prints: a ratio of counts with three decimals, a percentage with two, and the
time, once in seconds and once as a date. -/
structure Printer where
  rate : U32 → U32 → Text
  percentage : JsonWriter.Percentage
  seconds : Text
  dateNow : Text
  rate_figures : ∀ executed code, Figures (rate executed code)
  percentage_figures : ∀ v, Figures (percentage.text v)
  seconds_figures : Figures seconds
  dateNow_figures : Figures dateNow

/-- What the reports are written from: the reporter and the files, the keys of the configuration,
`m_commonPath` and the static counter of `CoberturaWriter::writeOne`. -/
structure ReportInput extends JsonWriter.Input where
  printer : Printer
  commandName : Text
  lowLimit : U32
  highLimit : U32
  coberturaFullPaths : Bool
  uploads : UploadSetup
  commonPathBefore : Text
  counter : U32

namespace ReportInput

/-- `m_commonPath` after `setupCommonPaths`. -/
def commonPath (r : ReportInput) : Text :=
  WriterBase.setupCommonPaths r.commonPathBefore (r.visited.map (·.name))

/-- The lines of a file that the loops do not skip. -/
def codeLines (r : ReportInput) (file : WriterFile) : List U32 :=
  file.lineNrs.filter (r.reporter.lineIsCode file.name)

def hits (r : ReportInput) (file : WriterFile) (n : U32) : U32 :=
  (r.reporter.getLineExecutionCount r.cfg file.name n).hits

end ReportInput

section Figures

variable {s : Text} {b : Byte}

theorem isFigure_toNat (h : isFigure b = true) : 0x20 ≤ b.toNat ∧ b.toNat < 0x80 := by
  have hall : ∀ b : Byte, isFigure b = true → 0x20 ≤ b.toNat ∧ b.toNat < 0x80 := by
    decide
  exact hall b h

theorem Figures.json (h : Figures s) : Json.Verbatim s := by
  have hplain : ∀ b : Byte, isFigure b = true → Json.isPlain b = true := by
    decide
  refine ⟨fun b hb => hplain b (h b hb), ?_⟩
  rw [Utf8.codePoints_ascii fun b hb => (isFigure_toNat (h b hb)).2]
  rfl

theorem Figures.xml (h : Figures s) : Xml.VerbatimValue s := by
  have hplain : ∀ b : Byte, isFigure b = true → Xml.isPlain b = true := by
    decide
  have hchar : ∀ b : Byte, isFigure b = true → Xml.inRanges Xml.charRanges b.toNat = true := by
    decide
  refine ⟨fun b hb => hplain b (h b hb), ?_⟩
  rw [Xml.isLegal, Utf8.codePoints_ascii fun b hb => (isFigure_toNat (h b hb)).2]
  simpa using fun b hb => hchar b (h b hb)

theorem figures_decimal (n : Nat) : Figures (decimal n) := by
  intro b hb
  have hdigit := digit_of_mem_decimal hb
  have hall : ∀ b : Byte, 0x30 ≤ b ∧ b ≤ 0x39 → isFigure b = true := by
    decide
  exact hall b hdigit

theorem figures_printUnsigned (v : U32) : Figures (printUnsigned v) := figures_decimal _

theorem figures_printSigned (v : U32) : Figures (printSigned v) := by
  rw [printSigned]
  split
  · exact List.forall_mem_cons.mpr ⟨by decide, figures_decimal _⟩
  · exact figures_decimal _

/-! #### Numbers in JSON -/

theorem isUnsigned_decimal (n : Nat) : Json.isUnsigned (decimal n) = true := by
  have hdigit : ∀ b : Byte, 0x30 ≤ b ∧ b ≤ 0x39 → Json.isDigit b = true := by
    decide
  obtain ⟨b, s, hs⟩ := List.exists_cons_of_ne_nil (decimal_ne_nil n)
  rw [hs]
  refine Json.isUnsigned_digits (fun c hc => hdigit c (digit_of_mem_decimal (hs ▸ hc))) ?_
  intro hb
  rcases Nat.eq_zero_or_pos n with rfl | hpos
  · cases hs
    rfl
  · exact absurd (by rw [hs, hb]; rfl) (head_decimal hpos)

theorem isWord_decimal (n : Nat) : Json.isWord (decimal n) = true := by
  have hunsigned := isUnsigned_decimal n
  obtain ⟨b, s, hs⟩ := List.exists_cons_of_ne_nil (decimal_ne_nil n)
  have hb : b ≠ 0x2d := by
    rintro rfl
    have hdigit := digit_of_mem_decimal (hs ▸ List.mem_cons_self : (0x2d : Byte) ∈ decimal n)
    revert hdigit
    decide
  rw [hs] at hunsigned
  rw [Json.isWord, hs, Json.isNumber, if_neg hb, hunsigned, Bool.or_true]

theorem isWordByte_decimal {n : Nat} (h : b ∈ decimal n) : Json.isWordByte b = true := by
  have hall : ∀ b : Byte, 0x30 ≤ b ∧ b ≤ 0x39 → Json.isWordByte b = true := by
    decide
  exact hall b (digit_of_mem_decimal h)

theorem isWord_printSigned (v : U32) : Json.isWord (printSigned v) = true := by
  rw [printSigned]
  split
  · rw [Json.isWord, Json.isNumber, if_pos rfl, isUnsigned_decimal, Bool.or_true]
  · exact isWord_decimal _

theorem isWordByte_printSigned {v : U32} (h : b ∈ printSigned v) : Json.isWordByte b = true := by
  rw [printSigned] at h
  split at h
  · rcases List.mem_cons.mp h with rfl | h
    · rfl
    · exact isWordByte_decimal h
  · exact isWordByte_decimal h

theorem printSigned_ne_nil (v : U32) : printSigned v ≠ [] := by
  rw [printSigned]
  split
  · exact List.cons_ne_nil _ _
  · exact decimal_ne_nil _

variable {q q' : Json.Mode} {t literal : Text} {out out' : List Json.Token} {P : Prop}

theorem prints_signed (ht : Json.lexer.Prints q t out .between P) (v : U32)
    (hends : ∃ b ∈ literal.head?, Json.isWordByte b = false)
    (hrest : Json.lexer.feed .between literal = some (q', out')) :
    Json.lexer.Prints q (t ++ printSigned v ++ literal) (out ++ .word (printSigned v) :: out') q' P :=
  Json.prints_word ht (printSigned_ne_nil v) (fun _ hb => isWordByte_printSigned hb)
    (isWord_printSigned v) literal hends hrest

end Figures

end Kcov
