import Kcov.Writers.Print

/-! The reports in JSON: that of kcov itself, and the one for Codecov. -/

namespace Kcov

open Bytes

namespace JsonWriter

/-! ### The text of the report -/

/-- What `write` prints for a file. -/
def entryText (e : FileEntry) : Text :=
  ascii "    \x7b\"file\": \"" ++ cString e.file ++
    ascii "\", \"percent_covered\": \"" ++ e.percentCovered ++
    ascii "\", \"covered_lines\": \"" ++ printSigned e.coveredLines ++
    ascii "\", \"total_lines\": \"" ++ printSigned e.totalLines ++ ascii "\"\x7d"

/-- The values of the report. -/
def values (r : ReportInput) : Report FileEntry := r.toInput.report r.printer.percentage

/-- What is written to the file. -/
def text (r : ReportInput) : Text :=
  ascii "\x7b\n  \"files\": [\n" ++
    Lexer.separated (ascii ",\n") true ((values r).files.map entryText) ++
    ascii "\n  ],\n  \"percent_covered\": \"" ++ (values r).percentCovered ++
    ascii "\",\n  \"covered_lines\": " ++ printSigned (values r).coveredLines ++
    ascii ",\n  \"total_lines\": " ++ printSigned (values r).totalLines ++
    ascii ",\n  \"percent_low\": " ++ printSigned r.lowLimit ++
    ascii ",\n  \"percent_high\": " ++ printSigned r.highLimit ++
    ascii ",\n  \"command\": \"" ++ cString (escapeJson r.commandName) ++
    ascii "\",\n  \"date\": \"" ++ r.printer.dateNow ++ ascii "\"\n\x7d\n"

/-! ### What is to be read from it -/

def entryTokens (e : FileEntry) : List Json.Token :=
  [.beginObject, .string (ascii "file"), .colon, .string e.file, .comma,
    .string (ascii "percent_covered"), .colon, .string e.percentCovered, .comma,
    .string (ascii "covered_lines"), .colon, .string (printSigned e.coveredLines), .comma,
    .string (ascii "total_lines"), .colon, .string (printSigned e.totalLines), .endObject]

def headerTokens : List Json.Token :=
  [.beginObject, .string (ascii "files"), .colon, .beginArray]

def totalTokens (r : ReportInput) : List Json.Token :=
  [.endArray, .comma, .string (ascii "percent_covered"), .colon,
    .string (values r).percentCovered, .comma, .string (ascii "covered_lines"), .colon,
    .word (printSigned (values r).coveredLines), .comma, .string (ascii "total_lines"), .colon,
    .word (printSigned (values r).totalLines), .comma, .string (ascii "percent_low"), .colon,
    .word (printSigned r.lowLimit), .comma, .string (ascii "percent_high"), .colon,
    .word (printSigned r.highLimit), .comma, .string (ascii "command"), .colon,
    .string r.commandName, .comma, .string (ascii "date"), .colon, .string r.printer.dateNow,
    .endObject]

def tokens (r : ReportInput) : List Json.Token :=
  headerTokens ++ Lexer.separated [.comma] true ((values r).files.map entryTokens) ++ totalTokens r

section Reading

variable {r : ReportInput} {e : FileEntry}

theorem prints_entry (hname : 0 ∉ e.file) (hpercent : Figures e.percentCovered) :
    Json.lexer.Prints .between (entryText e) (entryTokens e) .between (Json.Verbatim e.file) := by
  have hopen : Json.lexer.feed .between (ascii "    \x7b\"file\": \"") =
      some (.string [], [.beginObject, .string (ascii "file"), .colon]) := by
    decide
  have hnext : Json.lexer.feed .between (ascii "\", \"percent_covered\": \"").tail =
      some (.string [], [.comma, .string (ascii "percent_covered"), .colon]) := by
    decide
  have hnext' : Json.lexer.feed .between (ascii "\", \"covered_lines\": \"").tail =
      some (.string [], [.comma, .string (ascii "covered_lines"), .colon]) := by
    decide
  have hnext'' : Json.lexer.feed .between (ascii "\", \"total_lines\": \"").tail =
      some (.string [], [.comma, .string (ascii "total_lines"), .colon]) := by
    decide
  have hclose : Json.lexer.feed .between (ascii "\"\x7d").tail = some (.between, [.endObject]) := by
    decide
  have hfile := Json.prints_name (Lexer.Prints.of_feed hopen) e.file _ rfl (by decide) hnext
  have hpercent' := Json.prints_verbatim hfile hpercent.json _ rfl hnext'
  have hcovered := Json.prints_verbatim hpercent' (figures_printSigned e.coveredLines).json _ rfl
    hnext''
  have htotal := Json.prints_verbatim hcovered (figures_printSigned e.totalLines).json _ rfl hclose
  rw [entryText, cString_eq_self hname]
  exact htotal.congr (by rw [true_and])

theorem prints_text (hnames : ∀ e ∈ (values r).files, 0 ∉ e.file)
    (hpercents : ∀ e ∈ (values r).files, Figures e.percentCovered)
    (hpercent : Figures (values r).percentCovered) (hcommand : 0 ∉ r.commandName) :
    Json.lexer.Prints .between (text r) (tokens r) .between
      ((∀ e ∈ (values r).files, Json.Verbatim e.file) ∧
        (∀ b ∈ r.commandName, EscapeJson.IsReadable b) ∧
        (Utf8.codePoints r.commandName).isSome = true) := by
  have hopen : Json.lexer.feed .between (ascii "\x7b\n  \"files\": [\n") =
      some (.between, headerTokens) := by
    decide
  have hend : Json.lexer.feed .between (ascii "\n  ],\n  \"percent_covered\": \"") =
      some (.string [], [.endArray, .comma, .string (ascii "percent_covered"), .colon]) := by
    decide
  have hcovered : Json.lexer.feed .between (ascii "\",\n  \"covered_lines\": ").tail =
      some (.between, [.comma, .string (ascii "covered_lines"), .colon]) := by
    decide
  have htotal : Json.lexer.feed .between (ascii ",\n  \"total_lines\": ") =
      some (.between, [.comma, .string (ascii "total_lines"), .colon]) := by
    decide
  have hlow : Json.lexer.feed .between (ascii ",\n  \"percent_low\": ") =
      some (.between, [.comma, .string (ascii "percent_low"), .colon]) := by
    decide
  have hhigh : Json.lexer.feed .between (ascii ",\n  \"percent_high\": ") =
      some (.between, [.comma, .string (ascii "percent_high"), .colon]) := by
    decide
  have hcommandName : Json.lexer.feed .between (ascii ",\n  \"command\": \"") =
      some (.string [], [.comma, .string (ascii "command"), .colon]) := by
    decide
  have hdate : Json.lexer.feed .between (ascii "\",\n  \"date\": \"").tail =
      some (.string [], [.comma, .string (ascii "date"), .colon]) := by
    decide
  have hclose : Json.lexer.feed .between (ascii "\"\n\x7d\n").tail =
      some (.between, [.endObject]) := by
    decide
  have hcomma : Json.lexer.feed .between (ascii ",\n") = some (.between, [.comma]) := rfl
  have hfiles := Lexer.prints_separated hcomma
    (fun e he => prints_entry (hnames e he) (hpercents e he)) true
  have hpercent' := Json.prints_verbatim ((hfiles.after hopen).before hend) hpercent.json _ rfl
    hcovered
  have hcovered' := prints_signed hpercent' (values r).coveredLines (by decide) htotal
  have htotal' := prints_signed hcovered' (values r).totalLines (by decide) hlow
  have hlow' := prints_signed htotal' r.lowLimit (by decide) hhigh
  have hhigh' := prints_signed hlow' r.highLimit (by decide) hcommandName
  have hcommand' := EscapeJson.prints_escaped hhigh' r.commandName _ rfl hdate
  have hdate' := Json.prints_verbatim hcommand' r.printer.dateNow_figures.json _ rfl hclose
  rw [text, cString_eq_self (EscapeJson.zero_notMem_escapeJson hcommand), tokens, totalTokens]
  simpa only [List.append_assoc, List.cons_append, List.nil_append] using hdate'

theorem run_entries_percent {pc : Percentage} {cfg : ReporterSetup} {s : Reporter}
    {files : List WriterFile} (h : e ∈ (Loop.run pc cfg s files).entries) :
    ∃ v, e.percentCovered = pc.text v := by
  induction files using List.reverseRecOn with
  | nil => cases h
  | append_singleton files file ih =>
    rw [run_entries_snoc, List.mem_append, List.mem_singleton] at h
    rcases h with h | rfl
    · exact ih h
    · exact ⟨_, rfl⟩

theorem files_values (r : ReportInput) : (values r).files =
    (Loop.run r.printer.percentage r.cfg r.reporter r.visited).entries :=
  List.map_id _

theorem forall_values (p : Text → Prop) :
    (∀ e ∈ (values r).files, p e.file) ↔ ∀ file ∈ r.visited, p file.name := by
  have hmap : (values r).files.map (·.file) = r.visited.map (·.name) := by
    rw [files_values, run_entries_files]
  rw [← List.forall_mem_map, hmap, List.forall_mem_map]

/-- The names and the command come back exactly if the names are verbatim and the command is text
that `escape_json` can escape. -/
theorem tokens_text_iff (hnames : ∀ file ∈ r.visited, 0 ∉ file.name) (hcommand : 0 ∉ r.commandName) :
    Json.lexer.tokens .between (text r) = some (tokens r) ↔
      (∀ file ∈ r.visited, Json.Verbatim file.name) ∧
        (∀ b ∈ r.commandName, EscapeJson.IsReadable b) ∧
        (Utf8.codePoints r.commandName).isSome = true := by
  have hpercents : ∀ e ∈ (values r).files, Figures e.percentCovered := by
    intro e he
    rw [files_values] at he
    obtain ⟨v, hv⟩ := run_entries_percent he
    rw [hv]
    exact r.printer.percentage_figures v
  have hnames' := (forall_values fun name => 0 ∉ name).mpr hnames
  rw [(prints_text hnames' hpercents (r.printer.percentage_figures _) hcommand).tokens_iff rfl,
    forall_values]

theorem wellFormed_tokens (r : ReportInput) : Json.WellFormed (tokens r) := by
  have hentry : ∀ x ∈ (values r).files.map entryTokens, ∀ e, e = .element ∨ e = .value →
      x.foldlM Json.Place.step ⟨[.array, .object], e⟩ = some ⟨[.array, .object], .done⟩ := by
    intro x hx e he
    obtain ⟨entry, -, rfl⟩ := List.mem_map.mp hx
    rcases he with rfl | rfl <;> rfl
  have hfiles := @Json.foldlM_separated .array [.object] .element .value .endArray _ rfl
    (by rintro e (rfl | rfl) <;> rfl) hentry
  have hsplit : tokens r = headerTokens ++
      ((Lexer.separated [Json.Token.comma] true ((values r).files.map entryTokens) ++
        [Json.Token.endArray]) ++ (totalTokens r).tail) := by
    rw [tokens, List.append_assoc, List.append_assoc]
    rfl
  have hheader : headerTokens.foldlM Json.Place.step ⟨[], .value⟩ =
      some ⟨[.array, .object], .element⟩ := rfl
  rw [Json.WellFormed, hsplit, List.foldlM_append, hheader, Option.bind_eq_bind, Option.bind_some,
    List.foldlM_append, hfiles]
  rfl

end Reading

end JsonWriter

namespace CodecovWriter

/-! ### The text for Codecov -/

def possibleHits (r : ReportInput) (file : WriterFile) (n : U32) : U32 :=
  (r.reporter.getLineExecutionCount r.cfg file.name n).possibleHits

def ratio (r : ReportInput) (file : WriterFile) (n : U32) : Text :=
  printUnsigned (r.hits file n) ++ ascii "/" ++ printUnsigned (possibleHits r file n)

def hitScore (r : ReportInput) (file : WriterFile) (n : U32) : Text :=
  if r.cfg.maxPossibleHits = .unlimited ∨ r.cfg.maxPossibleHits = .single then
    if r.hits file n ≠ 0 then printUnsigned (r.hits file n) else ascii "0"
  else ascii "\"" ++ ratio r file n ++ ascii "\""

def lineEntry (r : ReportInput) (file : WriterFile) (n : U32) : Text :=
  ascii "      \"" ++ printUnsigned n ++ ascii "\": " ++ hitScore r file n

/-- The loop over the entries: a separator goes behind what is not empty. -/
def linesBlock (lineEntries : List Text) : Text :=
  lineEntries.foldl
    (fun block entry => (if block ≠ [] then block ++ ascii ",\n" else block) ++ entry) []

def printedName (r : ReportInput) (file : WriterFile) : Text :=
  filename r.uploads r.commonPath file.name

def writeOne (r : ReportInput) (file : WriterFile) : Text :=
  ascii "    \"" ++ printedName r file ++ ascii "\": \x7b\n" ++
    linesBlock ((r.codeLines file).map (lineEntry r file)) ++ ascii "\n" ++ ascii "    \x7d"

def write (r : ReportInput) : Text :=
  ascii "\x7b\n  \"coverage\": \x7b\n" ++
    Lexer.separated (ascii ",\n") true (r.visited.map (writeOne r)) ++ ascii "\n" ++
    ascii "  \x7d\n\x7d\n"

/-! ### What is to be read from it -/

def scoreToken (r : ReportInput) (file : WriterFile) (n : U32) : Json.Token :=
  if r.cfg.maxPossibleHits = .unlimited ∨ r.cfg.maxPossibleHits = .single then
    .word (printUnsigned (r.hits file n))
  else .string (ratio r file n)

def lineTokens (r : ReportInput) (file : WriterFile) (n : U32) : List Json.Token :=
  [.string (printUnsigned n), .colon, scoreToken r file n]

def openFile (r : ReportInput) (file : WriterFile) : List Json.Token :=
  [.string (printedName r file), .colon, .beginObject]

def fileTokens (r : ReportInput) (file : WriterFile) : List Json.Token :=
  openFile r file ++ Lexer.separated [.comma] true ((r.codeLines file).map (lineTokens r file)) ++
    [.endObject]

def headerTokens : List Json.Token :=
  [.beginObject, .string (ascii "coverage"), .colon, .beginObject]

def tokens (r : ReportInput) : List Json.Token :=
  headerTokens ++ Lexer.separated [.comma] true (r.visited.map (fileTokens r)) ++
    [.endObject, .endObject]

section Reading

variable {r : ReportInput} {file : WriterFile} {n : U32}

theorem linesBlock_eq {entries : List Text} (h : ∀ e ∈ entries, e ≠ []) :
    linesBlock entries = Lexer.separated (ascii ",\n") true entries := by
  have hrest : ∀ (entries : List Text) (block : Text), block ≠ [] → (∀ e ∈ entries, e ≠ []) →
      entries.foldl
        (fun block entry => (if block ≠ [] then block ++ ascii ",\n" else block) ++ entry) block =
        block ++ Lexer.separated (ascii ",\n") false entries := by
    intro entries
    induction entries with
    | nil => simp [Lexer.separated]
    | cons e entries ih =>
      intro block hblock h
      rw [List.foldl_cons, if_pos hblock, ih _ (by simp [hblock]) fun x hx =>
        h x (List.mem_cons_of_mem e hx), Lexer.separated, if_neg Bool.false_ne_true]
      simp only [List.append_assoc]
  cases entries with
  | nil => rfl
  | cons e entries =>
    rw [linesBlock, List.foldl_cons, if_neg (by simp), List.nil_append,
      hrest entries e (h e List.mem_cons_self) fun x hx => h x (List.mem_cons_of_mem e hx),
      Lexer.separated, if_pos rfl, List.nil_append]

theorem figures_ratio (r : ReportInput) (file : WriterFile) (n : U32) : Figures (ratio r file n) := by
  intro b hb
  rw [ratio, List.mem_append, List.mem_append] at hb
  rcases hb with (hb | hb) | hb
  · exact figures_printUnsigned _ b hb
  · rw [List.mem_singleton.mp hb]
    decide
  · exact figures_printUnsigned _ b hb

/-- The entry of a line, and a literal part behind it. -/
theorem prints_line {literal : Text} {out : List Json.Token}
    (hends : ∃ b ∈ literal.head?, Json.isWordByte b = false)
    (hliteral : Json.lexer.feed .between literal = some (.between, out)) :
    Json.lexer.Prints .between (lineEntry r file n ++ literal) (lineTokens r file n ++ out) .between
      True := by
  have hopen : Json.lexer.feed .between (ascii "      \"") = some (.string [], []) := by
    decide
  have hcolon : Json.lexer.feed .between (ascii "\": ").tail = some (.between, [.colon]) := by
    decide
  have hquote : Json.lexer.feed .between (ascii "\"") = some (.string [], []) := by
    decide
  have hnumber := Json.prints_verbatim (Lexer.Prints.of_feed hopen) (figures_printUnsigned n).json _
    rfl hcolon
  rw [lineEntry, lineTokens, hitScore, scoreToken]
  by_cases hplain : r.cfg.maxPossibleHits = .unlimited ∨ r.cfg.maxPossibleHits = .single
  · have hscore : (if r.hits file n ≠ 0 then printUnsigned (r.hits file n) else ascii "0") =
        printUnsigned (r.hits file n) := by
      split
      · rfl
      · next hzero =>
        rw [not_not.mp hzero]
        rfl
    rw [if_pos hplain, if_pos hplain, hscore]
    exact Json.prints_word hnumber (decimal_ne_nil _) (fun _ hb => isWordByte_decimal hb)
      (isWord_decimal _) literal hends hliteral
  · have hliteral' : Json.lexer.feed .between (ascii "\"" ++ literal).tail = some (.between, out) :=
      hliteral
    have hratio := Json.prints_verbatim (hnumber.before hquote) (figures_ratio r file n).json _ rfl
      hliteral'
    rw [if_neg hplain, if_neg hplain]
    simpa only [List.append_assoc, List.cons_append, List.nil_append] using hratio

/-- A number ends only at what comes behind it: the separator, or the end of the block. -/
theorem prints_lines (r : ReportInput) (file : WriterFile) (ns : List U32) :
    Json.lexer.Prints .between
      (Lexer.separated (ascii ",\n") true (ns.map (lineEntry r file)) ++ ascii "\n")
      (Lexer.separated [.comma] true (ns.map (lineTokens r file))) .between True := by
  have hnewline : Json.lexer.feed .between (ascii "\n") = some (.between, []) := by
    decide
  have hcomma : Json.lexer.feed .between (ascii ",\n") = some (.between, [.comma]) := by
    decide
  induction ns with
  | nil => exact Lexer.Prints.of_feed hnewline
  | cons n ns ih =>
    cases ns with
    | nil =>
      have hline := @prints_line r file n (ascii "\n") [] ⟨0x0a, rfl, rfl⟩ hnewline
      simpa only [List.map_cons, List.map_nil, Lexer.separated, if_true, List.nil_append,
        List.append_nil] using hline
    | cons m ms =>
      have hline := @prints_line r file n (ascii ",\n") [.comma] ⟨0x2c, rfl, rfl⟩ hcomma
      have hboth := (hline.append ih).congr (show True ∧ True ↔ True by rw [and_true])
      simpa only [List.map_cons, Lexer.separated, if_true, if_neg Bool.false_ne_true,
        List.nil_append, List.append_assoc] using hboth

theorem lineEntry_ne_nil (r : ReportInput) (file : WriterFile) (n : U32) :
    lineEntry r file n ≠ [] := by
  rw [lineEntry]
  simp [ascii]

theorem prints_file (r : ReportInput) (file : WriterFile) :
    Json.lexer.Prints .between (writeOne r file) (fileTokens r file) .between
      (Json.Verbatim (printedName r file)) := by
  have hopen : Json.lexer.feed .between (ascii "    \"") = some (.string [], []) := by
    decide
  have hnext : Json.lexer.feed .between (ascii "\": \x7b\n").tail =
      some (.between, [.colon, .beginObject]) := by
    decide
  have hclose : Json.lexer.feed .between (ascii "    \x7d") = some (.between, [.endObject]) := by
    decide
  have hname := Json.prints_name (Lexer.Prints.of_feed hopen) (printedName r file) _ rfl (by decide)
    hnext
  have hwhole := (hname.append (prints_lines r file (r.codeLines file))).before hclose
  have hentries : ∀ e ∈ (r.codeLines file).map (lineEntry r file), e ≠ [] := by
    intro e he
    obtain ⟨n, -, rfl⟩ := List.mem_map.mp he
    exact lineEntry_ne_nil r file n
  rw [writeOne, linesBlock_eq hentries, fileTokens, openFile]
  refine Lexer.Prints.congr ?_ (show (True ∧ _) ∧ True ↔ _ by rw [true_and, and_true])
  simpa only [List.append_assoc, List.cons_append, List.nil_append] using hwhole

/-- The names come back exactly if they are verbatim. -/
theorem tokens_write_iff (r : ReportInput) :
    Json.lexer.tokens .between (write r) = some (tokens r) ↔
      ∀ file ∈ r.visited, Json.Verbatim (printedName r file) := by
  have hopen : Json.lexer.feed .between (ascii "\x7b\n  \"coverage\": \x7b\n") =
      some (.between, headerTokens) := by
    decide
  have hclose : Json.lexer.feed .between (ascii "\n" ++ ascii "  \x7d\n\x7d\n") =
      some (.between, [.endObject, .endObject]) := by
    decide
  have hcomma : Json.lexer.feed .between (ascii ",\n") = some (.between, [.comma]) := by
    decide
  have hfiles := Lexer.prints_separated hcomma
    (fun file (_ : file ∈ r.visited) => prints_file r file) true
  have hwhole := (hfiles.after hopen).before hclose
  rw [← List.append_assoc] at hwhole
  exact hwhole.tokens_iff rfl

theorem foldlM_file (r : ReportInput) (file : WriterFile) {e : Json.Expects}
    (he : e = .member ∨ e = .name) (nesting : List Json.Nesting) :
    (fileTokens r file).foldlM Json.Place.step ⟨.object :: nesting, e⟩ =
      some ⟨.object :: nesting, .done⟩ := by
  have hopen : (openFile r file).foldlM Json.Place.step ⟨.object :: nesting, e⟩ =
      some ⟨.object :: .object :: nesting, .member⟩ := by
    rcases he with rfl | rfl <;> rfl
  have hline : ∀ x ∈ (r.codeLines file).map (lineTokens r file), ∀ e, e = .member ∨ e = .name →
      x.foldlM Json.Place.step ⟨.object :: .object :: nesting, e⟩ =
        some ⟨.object :: .object :: nesting, .done⟩ := by
    intro x hx e he
    obtain ⟨n, -, rfl⟩ := List.mem_map.mp hx
    rw [lineTokens, scoreToken]
    split <;> rcases he with rfl | rfl <;> rfl
  have hlines := @Json.foldlM_separated .object (.object :: nesting) .member .name .endObject _ rfl
    (by rintro e (rfl | rfl) <;> rfl) hline
  rw [fileTokens, List.append_assoc, List.foldlM_append, hopen, Option.bind_eq_bind,
    Option.bind_some, hlines]

theorem wellFormed_tokens (r : ReportInput) : Json.WellFormed (tokens r) := by
  have hfile : ∀ x ∈ r.visited.map (fileTokens r), ∀ e, e = .member ∨ e = .name →
      x.foldlM Json.Place.step ⟨[.object, .object], e⟩ = some ⟨[.object, .object], .done⟩ := by
    intro x hx e he
    obtain ⟨file, -, rfl⟩ := List.mem_map.mp hx
    exact foldlM_file r file he [.object]
  have hfiles := @Json.foldlM_separated .object [.object] .member .name .endObject _ rfl
    (by rintro e (rfl | rfl) <;> rfl) hfile
  have hsplit : tokens r = headerTokens ++
      ((Lexer.separated [Json.Token.comma] true (r.visited.map (fileTokens r)) ++
        [Json.Token.endObject]) ++ [Json.Token.endObject]) := by
    rw [tokens, List.append_assoc, List.append_assoc]
    rfl
  have hheader : headerTokens.foldlM Json.Place.step ⟨[], .value⟩ =
      some ⟨[.object, .object], .member⟩ := rfl
  rw [Json.WellFormed, hsplit, List.foldlM_append, hheader, Option.bind_eq_bind, Option.bind_some,
    List.foldlM_append, hfiles]
  rfl

end Reading

end CodecovWriter

end Kcov
