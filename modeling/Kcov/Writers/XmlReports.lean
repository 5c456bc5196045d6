import Kcov.Writers.Print

/-! The reports in XML: for SonarQube and in the format of Cobertura. -/

namespace Kcov

open Bytes

/-- The state of the lexer between the lines of a report. -/
def lineStart : Xml.Mode := .text (ascii "\n") 0

namespace SonarQubeWriter

/-! ### The text for SonarQube -/

def covered (r : ReportInput) (file : WriterFile) (n : U32) : Text :=
  if r.hits file n ≠ 0 then ascii "true" else ascii "false"

/-- A round of the loop over the lines. -/
def lineText (r : ReportInput) (file : WriterFile) (n : U32) : Text :=
  ascii "\t\t<lineToCover lineNumber=\"" ++ printSigned n ++ ascii "\" covered=\"" ++
    covered r file n ++ ascii "\"/>\n"

def writeOne (r : ReportInput) (file : WriterFile) : Text :=
  ascii "\t<file path=\"" ++ cString file.name ++ ascii "\">\n" ++
    (r.codeLines file).flatMap (lineText r file) ++ ascii "\t</file>\n"

def write (r : ReportInput) : Text :=
  ascii "<!-- Generated by kcov (https://simonkagstrom.github.io/kcov/) -->\n" ++
    ascii "<coverage version=\"1\">\n" ++ r.visited.flatMap (writeOne r) ++ ascii "</coverage>\n"

/-! ### What is to be read from it -/

def lineTokens (r : ReportInput) (file : WriterFile) (n : U32) : List Xml.Token :=
  [.text (ascii "\n\t\t"), .start (ascii "lineToCover"),
    .attribute (ascii "lineNumber") (printSigned n),
    .attribute (ascii "covered") (covered r file n), .close (ascii "lineToCover")]

def fileTokens (r : ReportInput) (file : WriterFile) : List Xml.Token :=
  [.text (ascii "\n\t"), .start (ascii "file"), .attribute (ascii "path") file.name] ++
    (r.codeLines file).flatMap (lineTokens r file) ++ [.text (ascii "\n\t"), .close (ascii "file")]

def tokens (r : ReportInput) : List Xml.Token :=
  [.text [], .other, .text (ascii "\n"), .start (ascii "coverage"),
    .attribute (ascii "version") (ascii "1")] ++
    r.visited.flatMap (fileTokens r) ++ [.text (ascii "\n"), .close (ascii "coverage")]

section Reading

variable {r : ReportInput} {file : WriterFile} {n : U32}

theorem verbatim_covered (r : ReportInput) (file : WriterFile) (n : U32) :
    Xml.VerbatimValue (covered r file n) := by
  rw [covered]
  split <;> decide

theorem prints_line (r : ReportInput) (file : WriterFile) (n : U32) :
    Xml.lexer.Prints lineStart (lineText r file n) (lineTokens r file n) lineStart True := by
  have hopen : Xml.lexer.feed lineStart (ascii "\t\t<lineToCover lineNumber=\"") =
      some (.value (ascii "lineToCover") (ascii "lineNumber") Xml.quote [],
        [.text (ascii "\n\t\t"), .start (ascii "lineToCover")]) := by
    decide
  have hnext : Xml.lexer.feed (.afterValue (ascii "lineToCover")) (ascii "\" covered=\"").tail =
      some (.value (ascii "lineToCover") (ascii "covered") Xml.quote [], []) := by
    decide
  have hend : Xml.lexer.feed (.afterValue (ascii "lineToCover")) (ascii "\"/>\n").tail =
      some (lineStart, [.close (ascii "lineToCover")]) := by
    decide
  have hnumber := Xml.prints_attribute (Lexer.Prints.of_feed hopen) (printSigned n) _ rfl hnext
  have hcovered := Xml.prints_attribute hnumber (covered r file n) _ rfl hend
  refine hcovered.congr ?_
  simp [(figures_printSigned n).xml, verbatim_covered]

theorem prints_file (r : ReportInput) (hname : 0 ∉ file.name) :
    Xml.lexer.Prints lineStart (writeOne r file) (fileTokens r file) lineStart
      (Xml.VerbatimValue file.name) := by
  have hopen : Xml.lexer.feed lineStart (ascii "\t<file path=\"") =
      some (.value (ascii "file") (ascii "path") Xml.quote [],
        [.text (ascii "\n\t"), .start (ascii "file")]) := by
    decide
  have hclose : Xml.lexer.feed lineStart (ascii "\t</file>\n") =
      some (lineStart, [.text (ascii "\n\t"), .close (ascii "file")]) := by
    decide
  have hend : Xml.lexer.feed (.afterValue (ascii "file")) (ascii "\">\n").tail =
      some (lineStart, []) := by
    decide
  have hpath := Xml.prints_attribute (Lexer.Prints.of_feed hopen) file.name _ rfl hend
  have hlines := Lexer.Prints.flatMap fun n (_ : n ∈ r.codeLines file) => prints_line r file n
  rw [writeOne, cString_eq_self hname]
  refine ((hpath.append hlines).before hclose).congr ?_
  simp

/-- The names of the files come back exactly if all of them are verbatim. -/
theorem tokens_write_iff (r : ReportInput) (hnames : ∀ file ∈ r.visited, 0 ∉ file.name) :
    Xml.lexer.tokens (.text [] 0) (write r) = some (tokens r) ↔
      ∀ file ∈ r.visited, Xml.VerbatimValue file.name := by
  have hopen : Xml.lexer.feed (.text [] 0)
      (ascii "<!-- Generated by kcov (https://simonkagstrom.github.io/kcov/) -->\n" ++
        ascii "<coverage version=\"1\">\n") =
      some (lineStart, [.text [], .other, .text (ascii "\n"), .start (ascii "coverage"),
        .attribute (ascii "version") (ascii "1")]) := by
    decide +kernel
  have hclose : Xml.lexer.feed lineStart (ascii "</coverage>\n") =
      some (lineStart, [.text (ascii "\n"), .close (ascii "coverage")]) := by
    decide
  have hfiles := Lexer.Prints.flatMap fun file (hfile : file ∈ r.visited) =>
    prints_file r (hnames file hfile)
  exact ((hfiles.after hopen).before hclose).tokens_iff rfl

/-- What is to be read is a document, whatever the names are. -/
theorem wellFormed_tokens (r : ReportInput) : Xml.WellFormed (tokens r) := by
  have hlines : ∀ file, Xml.Balanced ((r.codeLines file).flatMap (lineTokens r file)) :=
    fun file => Xml.Balanced.flatMap fun n _ tag tags names => ⟨_, rfl⟩
  have hfiles : Xml.Balanced (r.visited.flatMap (fileTokens r)) :=
    Xml.Balanced.flatMap fun file _ => (hlines file).nest (ascii "file") []
      (fun tag tags names => ⟨[ascii "path"], rfl⟩) fun tag tags names => ⟨_, rfl⟩
  exact hfiles.wellFormed (ascii "coverage") [] ⟨[ascii "version"], rfl⟩ fun names => ⟨_, rfl⟩

end Reading

end SonarQubeWriter

namespace CoberturaWriter

/-! ### The text in the format of Cobertura -/

def mangleFileName (name : Text) : Text :=
  name.map fun b => if b = 0x2e ∨ b = 0x2d then 0x5f else b

/-- `m_fileName`: the name behind the last `/`. -/
def baseName (file : WriterFile) : Text := (splitPath file.name).2

def className (counter : U32) (file : WriterFile) : Text :=
  mangleFileName (baseName file) ++ ascii "__" ++ decimal counter.toNat

def shownHits (r : ReportInput) (file : WriterFile) (n : U32) : U32 :=
  if r.hits file n ≠ 0 ∧ r.cfg.maxPossibleHits = .single then 1 else r.hits file n

def lineText (r : ReportInput) (file : WriterFile) (n : U32) : Text :=
  ascii "\t\t\t\t\t\t<line number=\"" ++ printUnsigned n ++ ascii "\" hits=\"" ++
    printUnsigned (shownHits r file n) ++ ascii "\"/>\n"

/-- The rate of a file whose counters `sumOne` has stored. -/
def fileRate (r : ReportInput) (file : WriterFile) : Text :=
  let summed := sumOne r.cfg r.reporter file
  r.printer.rate summed.executedLines (if summed.codeLines = 0 then 1 else summed.codeLines)

def printedName (r : ReportInput) (file : WriterFile) : Text :=
  filename r.coberturaFullPaths r.commonPath file.name

def writeOne (r : ReportInput) (counter : U32) (file : WriterFile) : Text :=
  ascii "\t\t\t\t<class name=\"" ++ className counter file ++ ascii "\" filename=\"" ++
    printedName r file ++ ascii "\" branch-rate=\"1.0\" complexity=\"1.0\" line-rate=\"" ++
    fileRate r file ++ ascii "\">\n\t\t\t\t\t<lines>\n" ++
    (r.codeLines file).flatMap (lineText r file) ++
    ascii "\t\t\t\t\t</lines>\n\t\t\t\t</class>\n"

/-- The loop over the files, with the counter in `writeOne`. -/
def writeAll (r : ReportInput) : U32 → List WriterFile → Text
  | _, [] => []
  | counter, file :: files => writeOne r counter file ++ writeAll r (counter + 1) files

/-- The totals of the header. -/
def totals (r : ReportInput) : LineCount :=
  (CoberturaWriter.write r.cfg r.reporter r.writer r.order).2

def totalRate (r : ReportInput) : Text :=
  let total := totals r
  r.printer.rate total.executed (if total.code = 0 then 1 else total.code)

def getHeader (r : ReportInput) : Text :=
  ascii "<?xml version=\"1.0\" ?>\n" ++
    ascii "<!DOCTYPE coverage SYSTEM 'http://cobertura.sourceforge.net/xml/coverage-04.dtd'>\n" ++
    ascii "<coverage line-rate=\"" ++ totalRate r ++
    ascii "\" lines-covered=\"" ++ printUnsigned (totals r).executed ++
    ascii "\" lines-valid=\"" ++ printUnsigned (totals r).code ++
    (ascii "\" branch-rate=\"1.0\" branches-covered=\"1.0\" branches-rate=\"1.0\"" ++
      ascii " complexity=\"1.0\" version=\"1.9\" timestamp=\"") ++
    r.printer.seconds ++ ascii "\">\n\t<sources>\n\t\t<source>" ++ r.commonPath ++
    ascii "/</source>\n\t</sources>\n\t<packages>\n\t\t<package name=\"" ++
    mangleFileName r.commandName ++ ascii "\" line-rate=\"" ++ totalRate r ++
    ascii "\" lines-covered=\"" ++ printUnsigned (totals r).executed ++
    ascii "\" lines-valid=\"" ++ printUnsigned (totals r).code ++
    ascii "\" branch-rate=\"1.0\" complexity=\"1.0\">\n\t\t\t<classes>\n"

def getFooter : Text :=
  ascii "\t\t\t</classes>\n\t\t</package>\n\t</packages>\n</coverage>\n"

/-- What is written to `cobertura.xml` and `cov.xml`. -/
def text (r : ReportInput) : Text := getHeader r ++ writeAll r r.counter r.visited ++ getFooter

/-! ### What is to be read from it -/

def lineTokens (r : ReportInput) (file : WriterFile) (n : U32) : List Xml.Token :=
  [.text (ascii "\n\t\t\t\t\t\t"), .start (ascii "line"),
    .attribute (ascii "number") (printUnsigned n),
    .attribute (ascii "hits") (printUnsigned (shownHits r file n)), .close (ascii "line")]

def classTokens (r : ReportInput) (counter : U32) (file : WriterFile) : List Xml.Token :=
  [.text (ascii "\n\t\t\t\t"), .start (ascii "class"),
    .attribute (ascii "name") (className counter file),
    .attribute (ascii "filename") (printedName r file),
    .attribute (ascii "branch-rate") (ascii "1.0"), .attribute (ascii "complexity") (ascii "1.0"),
    .attribute (ascii "line-rate") (fileRate r file), .text (ascii "\n\t\t\t\t\t"),
    .start (ascii "lines")] ++
    (r.codeLines file).flatMap (lineTokens r file) ++
    [.text (ascii "\n\t\t\t\t\t"), .close (ascii "lines"), .text (ascii "\n\t\t\t\t"),
      .close (ascii "class")]

def allTokens (r : ReportInput) : U32 → List WriterFile → List Xml.Token
  | _, [] => []
  | counter, file :: files => classTokens r counter file ++ allTokens r (counter + 1) files

def headerTokens (r : ReportInput) : List Xml.Token :=
  [.text [], .declaration, .text (ascii "\n"), .doctype, .text (ascii "\n"),
    .start (ascii "coverage"), .attribute (ascii "line-rate") (totalRate r),
    .attribute (ascii "lines-covered") (printUnsigned (totals r).executed),
    .attribute (ascii "lines-valid") (printUnsigned (totals r).code),
    .attribute (ascii "branch-rate") (ascii "1.0"),
    .attribute (ascii "branches-covered") (ascii "1.0"),
    .attribute (ascii "branches-rate") (ascii "1.0"), .attribute (ascii "complexity") (ascii "1.0"),
    .attribute (ascii "version") (ascii "1.9"), .attribute (ascii "timestamp") r.printer.seconds,
    .text (ascii "\n\t"), .start (ascii "sources"), .text (ascii "\n\t\t"),
    .start (ascii "source"), .text (r.commonPath ++ ascii "/"), .close (ascii "source"),
    .text (ascii "\n\t"), .close (ascii "sources"), .text (ascii "\n\t"),
    .start (ascii "packages"), .text (ascii "\n\t\t"), .start (ascii "package"),
    .attribute (ascii "name") (mangleFileName r.commandName),
    .attribute (ascii "line-rate") (totalRate r),
    .attribute (ascii "lines-covered") (printUnsigned (totals r).executed),
    .attribute (ascii "lines-valid") (printUnsigned (totals r).code),
    .attribute (ascii "branch-rate") (ascii "1.0"), .attribute (ascii "complexity") (ascii "1.0"),
    .text (ascii "\n\t\t\t"), .start (ascii "classes")]

def footerTokens : List Xml.Token :=
  [.text (ascii "\n\t\t\t"), .close (ascii "classes"), .text (ascii "\n\t\t"),
    .close (ascii "package"), .text (ascii "\n\t"), .close (ascii "packages"),
    .text (ascii "\n"), .close (ascii "coverage")]

def tokens (r : ReportInput) : List Xml.Token :=
  headerTokens r ++ allTokens r r.counter r.visited ++ footerTokens

section Reading

variable {r : ReportInput} {file : WriterFile}

theorem verbatim_mangled {name : Text} :
    Xml.VerbatimValue (mangleFileName name) ↔ Xml.VerbatimValue name :=
  Xml.verbatimValue_map (by decide) (by decide)

theorem verbatim_className (counter : U32) :
    Xml.VerbatimValue (className counter file) ↔ Xml.VerbatimValue (baseName file) := by
  have hback : ∀ c ∈ 0x5f :: 0x5f :: decimal counter.toNat,
      Xml.isPlain c = true ∧ c.toNat < 0x80 := by
    have hall : ∀ b : Byte, isFigure b = true → Xml.isPlain b = true ∧ b.toNat < 0x80 := by
      decide
    simpa using ⟨by decide, fun b hb => hall b (figures_decimal _ b hb)⟩
  rw [className, List.append_assoc]
  exact (Xml.verbatimValue_append hback).trans verbatim_mangled

theorem prints_line (r : ReportInput) (file : WriterFile) (n : U32) :
    Xml.lexer.Prints lineStart (lineText r file n) (lineTokens r file n) lineStart True := by
  have hopen : Xml.lexer.feed lineStart (ascii "\t\t\t\t\t\t<line number=\"") =
      some (.value (ascii "line") (ascii "number") Xml.quote [],
        [.text (ascii "\n\t\t\t\t\t\t"), .start (ascii "line")]) := by
    decide
  have hnext : Xml.lexer.feed (.afterValue (ascii "line")) (ascii "\" hits=\"").tail =
      some (.value (ascii "line") (ascii "hits") Xml.quote [], []) := by
    decide
  have hend : Xml.lexer.feed (.afterValue (ascii "line")) (ascii "\"/>\n").tail =
      some (lineStart, [.close (ascii "line")]) := by
    decide
  have hnumber := Xml.prints_attribute (Lexer.Prints.of_feed hopen) (printUnsigned n) _ rfl hnext
  have hhits := Xml.prints_attribute hnumber (printUnsigned (shownHits r file n)) _ rfl hend
  refine hhits.congr ?_
  simp [(figures_printUnsigned _).xml]

theorem prints_class (r : ReportInput) (counter : U32) (file : WriterFile) :
    Xml.lexer.Prints lineStart (writeOne r counter file) (classTokens r counter file) lineStart
      (Xml.VerbatimValue (baseName file) ∧ Xml.VerbatimValue (printedName r file)) := by
  have hopen : Xml.lexer.feed lineStart (ascii "\t\t\t\t<class name=\"") =
      some (.value (ascii "class") (ascii "name") Xml.quote [],
        [.text (ascii "\n\t\t\t\t"), .start (ascii "class")]) := by
    decide
  have hclose : Xml.lexer.feed lineStart (ascii "\t\t\t\t\t</lines>\n\t\t\t\t</class>\n") =
      some (lineStart, [.text (ascii "\n\t\t\t\t\t"), .close (ascii "lines"),
        .text (ascii "\n\t\t\t\t"), .close (ascii "class")]) := by
    decide
  have hnext : Xml.lexer.feed (.afterValue (ascii "class")) (ascii "\" filename=\"").tail =
      some (.value (ascii "class") (ascii "filename") Xml.quote [], []) := by
    decide
  have hfixed : Xml.lexer.feed (.afterValue (ascii "class"))
      (ascii "\" branch-rate=\"1.0\" complexity=\"1.0\" line-rate=\"").tail =
      some (.value (ascii "class") (ascii "line-rate") Xml.quote [],
        [.attribute (ascii "branch-rate") (ascii "1.0"),
          .attribute (ascii "complexity") (ascii "1.0")]) := by
    decide
  have hend : Xml.lexer.feed (.afterValue (ascii "class"))
      (ascii "\">\n\t\t\t\t\t<lines>\n").tail =
      some (lineStart, [.text (ascii "\n\t\t\t\t\t"), .start (ascii "lines")]) := by
    decide
  have hname := Xml.prints_attribute (Lexer.Prints.of_feed hopen) (className counter file) _ rfl
    hnext
  have hfilename := Xml.prints_attribute hname (printedName r file) _ rfl hfixed
  have hrate := Xml.prints_attribute hfilename (fileRate r file) _ rfl hend
  have hlines := Lexer.Prints.flatMap fun n (_ : n ∈ r.codeLines file) => prints_line r file n
  have hfigures : Xml.VerbatimValue (fileRate r file) := (r.printer.rate_figures _ _).xml
  refine ((hrate.append hlines).before hclose).congr ?_
  simp [hfigures, verbatim_className]

theorem prints_all (r : ReportInput) (counter : U32) (files : List WriterFile) :
    Xml.lexer.Prints lineStart (writeAll r counter files) (allTokens r counter files) lineStart
      (∀ file ∈ files, Xml.VerbatimValue (baseName file) ∧
        Xml.VerbatimValue (printedName r file)) := by
  induction files generalizing counter with
  | nil => exact (Lexer.Prints.of_feed rfl).congr (by simp)
  | cons file files ih =>
    refine ((prints_class r counter file).append (ih (counter + 1))).congr ?_
    rw [List.forall_mem_cons]

theorem prints_header (r : ReportInput) :
    Xml.lexer.Prints (.text [] 0) (getHeader r) (headerTokens r) lineStart
      (Xml.VerbatimText (r.commonPath ++ ascii "/") ∧ Xml.VerbatimValue r.commandName) := by
  have hopen : Xml.lexer.feed (.text [] 0) (ascii "<?xml version=\"1.0\" ?>\n" ++
      ascii "<!DOCTYPE coverage SYSTEM 'http://cobertura.sourceforge.net/xml/coverage-04.dtd'>\n" ++
      ascii "<coverage line-rate=\"") =
      some (.value (ascii "coverage") (ascii "line-rate") Xml.quote [],
        [.text [], .declaration, .text (ascii "\n"), .doctype, .text (ascii "\n"),
          .start (ascii "coverage")]) := by
    decide +kernel
  have hnext : ∀ tag ∈ [ascii "coverage", ascii "package"],
      Xml.lexer.feed (.afterValue tag) (ascii "\" lines-covered=\"").tail =
        some (.value tag (ascii "lines-covered") Xml.quote [], []) := by
    decide
  have hnext' : ∀ tag ∈ [ascii "coverage", ascii "package"],
      Xml.lexer.feed (.afterValue tag) (ascii "\" lines-valid=\"").tail =
        some (.value tag (ascii "lines-valid") Xml.quote [], []) := by
    decide
  have hrate := Xml.prints_attribute (Lexer.Prints.of_feed hopen) (totalRate r) _ rfl
    (hnext _ (by simp))
  have hcovered := Xml.prints_attribute hrate (printUnsigned (totals r).executed) _ rfl
    (hnext' _ (by simp))
  have hfixed : Xml.lexer.feed (.afterValue (ascii "coverage"))
      (ascii "\" branch-rate=\"1.0\" branches-covered=\"1.0\" branches-rate=\"1.0\"" ++
        ascii " complexity=\"1.0\" version=\"1.9\" timestamp=\"").tail =
      some (.value (ascii "coverage") (ascii "timestamp") Xml.quote [],
        [.attribute (ascii "branch-rate") (ascii "1.0"),
          .attribute (ascii "branches-covered") (ascii "1.0"),
          .attribute (ascii "branches-rate") (ascii "1.0"),
          .attribute (ascii "complexity") (ascii "1.0"),
          .attribute (ascii "version") (ascii "1.9")]) := by
    decide +kernel
  have hvalid := Xml.prints_attribute hcovered (printUnsigned (totals r).code) _ rfl hfixed
  have hsources : Xml.lexer.feed (.afterValue (ascii "coverage"))
      (ascii "\">\n\t<sources>\n\t\t<source>").tail =
      some (.text [] 0, [.text (ascii "\n\t"), .start (ascii "sources"),
        .text (ascii "\n\t\t"), .start (ascii "source")]) := by
    decide
  have hseconds := Xml.prints_attribute hvalid r.printer.seconds _ rfl hsources
  have hpackages : Xml.lexer.feed .markup
      ((ascii "/</source>\n\t</sources>\n\t<packages>\n\t\t<package name=\"").drop 2) =
      some (.value (ascii "package") (ascii "name") Xml.quote [], [.close (ascii "source"),
        .text (ascii "\n\t"), .close (ascii "sources"), .text (ascii "\n\t"),
        .start (ascii "packages"), .text (ascii "\n\t\t"), .start (ascii "package")]) := by
    decide
  have hsource := Xml.prints_content hseconds r.commonPath (ascii "/") _ (by decide) hpackages
  have hlineRate : Xml.lexer.feed (.afterValue (ascii "package")) (ascii "\" line-rate=\"").tail =
      some (.value (ascii "package") (ascii "line-rate") Xml.quote [], []) := by
    decide
  have hcommand := Xml.prints_attribute hsource (mangleFileName r.commandName) _ rfl hlineRate
  have hrate' := Xml.prints_attribute hcommand (totalRate r) _ rfl (hnext _ (by simp))
  have hcovered' := Xml.prints_attribute hrate' (printUnsigned (totals r).executed) _ rfl
    (hnext' _ (by simp))
  have hclasses : Xml.lexer.feed (.afterValue (ascii "package"))
      (ascii "\" branch-rate=\"1.0\" complexity=\"1.0\">\n\t\t\t<classes>\n").tail =
      some (lineStart, [.attribute (ascii "branch-rate") (ascii "1.0"),
        .attribute (ascii "complexity") (ascii "1.0"), .text (ascii "\n\t\t\t"),
        .start (ascii "classes")]) := by
    decide
  have hvalid' := Xml.prints_attribute hcovered' (printUnsigned (totals r).code) _ rfl hclasses
  have hrates : Xml.VerbatimValue (totalRate r) := (r.printer.rate_figures _ _).xml
  have htime : Xml.VerbatimValue r.printer.seconds := r.printer.seconds_figures.xml
  refine hvalid'.congr ?_
  simp [hrates, htime, (figures_printUnsigned _).xml, verbatim_mangled]

/-- The names and the command come back exactly if what is printed of them is verbatim. -/
theorem tokens_text_iff (r : ReportInput) :
    Xml.lexer.tokens (.text [] 0) (text r) = some (tokens r) ↔
      (Xml.VerbatimText (r.commonPath ++ ascii "/") ∧ Xml.VerbatimValue r.commandName) ∧
        ∀ file ∈ r.visited, Xml.VerbatimValue (baseName file) ∧
          Xml.VerbatimValue (printedName r file) := by
  have hfooter : Xml.lexer.feed lineStart getFooter = some (lineStart, footerTokens) := by
    decide
  exact (((prints_header r).append (prints_all r r.counter r.visited)).before hfooter).tokens_iff
    rfl

theorem wellFormed_tokens (r : ReportInput) : Xml.WellFormed (tokens r) := by
  have hlines : ∀ file, Xml.Balanced ((r.codeLines file).flatMap (lineTokens r file)) :=
    fun file => Xml.Balanced.flatMap fun n _ tag tags names => ⟨_, rfl⟩
  have hclass : ∀ counter file, Xml.Balanced (classTokens r counter file) := fun counter file =>
    (hlines file).nest (ascii "lines") [ascii "class"]
      (fun tag tags names => ⟨[], rfl⟩) fun tag tags names => ⟨_, rfl⟩
  have hall : ∀ counter files, Xml.Balanced (allTokens r counter files) := by
    intro counter files
    induction files generalizing counter with
    | nil => exact fun tag tags names => ⟨names, rfl⟩
    | cons file files ih => exact (hclass counter file).append (ih (counter + 1))
  exact (hall r.counter r.visited).wellFormed (ascii "classes")
    [ascii "package", ascii "packages", ascii "coverage"] ⟨[], rfl⟩ fun names => ⟨_, rfl⟩

end Reading

end CoberturaWriter

end Kcov
