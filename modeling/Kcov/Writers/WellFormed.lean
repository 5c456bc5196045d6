import Kcov.Writers.JsonReports
import Kcov.Writers.XmlReports

/-! What a parser reads back from the reports. -/

namespace Kcov

open Bytes

/-- Text in UTF-8 without control characters of ASCII. -/
structure IsPrintable (s : Text) : Prop where
  text : Utf8.IsText s
  controls : ∀ b ∈ s, 0x20 ≤ b.toNat

theorem IsPrintable.zero_notMem {s : Text} (h : IsPrintable s) : 0 ∉ s := fun hzero =>
  absurd (h.controls 0 hzero) (by decide)

/-- Characters of ASCII from the blank on. -/
theorem isPrintable_ascii {s : Text} (h : ∀ b ∈ s, 0x20 ≤ b.toNat ∧ b.toNat < 0x80) :
    IsPrintable s := by
  refine ⟨⟨s.map (·.toNat), ?_, ?_⟩, fun b hb => (h b hb).1⟩
  · intro c hc
    obtain ⟨b, hb, rfl⟩ := List.mem_map.mp hc
    exact Or.inl (Nat.lt_trans (h b hb).2 (by decide))
  · have hencode : ∀ b : Byte, b.toNat < 0x80 → Utf8.encode b.toNat = [b] := by
      decide
    rw [List.flatMap_map, List.flatMap_congr fun b hb => hencode b (h b hb).2,
      List.flatMap_singleton']

namespace ReportInput

/-- The reports are documents of their formats, with the entries that were to be printed and with the
names in them. An object keeps one member of a name. -/
structure ReadsBack (r : ReportInput) : Prop where
  cobertura : Xml.read (CoberturaWriter.text r) = some (CoberturaWriter.tokens r)
  sonarQube : Xml.read (SonarQubeWriter.write r) = some (SonarQubeWriter.tokens r)
  json : Json.read (JsonWriter.text r) = some (JsonWriter.tokens r)
  codecov : Json.read (CodecovWriter.write r) = some (CodecovWriter.tokens r)
  members : (r.visited.map (CodecovWriter.printedName r)).Nodup

/-- No name needs escaping where it is printed, as it is or without the path in front of it, and
neither does the command, but for what `escape_json` escapes. -/
structure NeedsNoEscapes (r : ReportInput) : Prop where
  path : Xml.VerbatimText (r.commonPath ++ ascii "/")
  command : Xml.VerbatimValue r.commandName ∧ ∀ b ∈ r.commandName, EscapeJson.IsReadable b
  names : ∀ file ∈ r.visited, Xml.VerbatimValue file.name ∧ Json.Verbatim file.name
  classes : ∀ file ∈ r.visited, Xml.VerbatimValue (CoberturaWriter.baseName file) ∧
    Xml.VerbatimValue (CoberturaWriter.printedName r file)
  uploads : ∀ file ∈ r.visited, Json.Verbatim (CodecovWriter.printedName r file)
  apart : (r.visited.map (CodecovWriter.printedName r)).Nodup

instance (r : ReportInput) : Decidable r.NeedsNoEscapes :=
  decidable_of_iff (_ ∧ _ ∧ _ ∧ _ ∧ _ ∧ _)
    ⟨fun h => ⟨h.1, h.2.1, h.2.2.1, h.2.2.2.1, h.2.2.2.2.1, h.2.2.2.2.2⟩,
      fun h => ⟨h.path, h.command, h.names, h.classes, h.uploads, h.apart⟩⟩

/-- Whatever the files and the command are called, and whatever lines are code or hit. -/
theorem readsBack_iff (r : ReportInput) (hnames : ∀ file ∈ r.visited, IsPrintable file.name)
    (hcommand : IsPrintable r.commandName) : r.ReadsBack ↔ r.NeedsNoEscapes := by
  have hzero : ∀ file ∈ r.visited, 0 ∉ file.name := fun file hfile =>
    (hnames file hfile).zero_notMem
  have hcobertura := (Xml.read_eq_some (CoberturaWriter.wellFormed_tokens r)).trans
    (CoberturaWriter.tokens_text_iff r)
  have hsonarQube := (Xml.read_eq_some (SonarQubeWriter.wellFormed_tokens r)).trans
    (SonarQubeWriter.tokens_write_iff r hzero)
  have hjson := (Json.read_eq_some (JsonWriter.wellFormed_tokens r)).trans
    (JsonWriter.tokens_text_iff hzero hcommand.zero_notMem)
  have hcodecov := (Json.read_eq_some (CodecovWriter.wellFormed_tokens r)).trans
    (CodecovWriter.tokens_write_iff r)
  constructor
  · intro h
    obtain ⟨⟨hpath, hcommandName⟩, hclasses⟩ := hcobertura.mp h.cobertura
    obtain ⟨hfiles, hreadable, -⟩ := hjson.mp h.json
    have hvalues := hsonarQube.mp h.sonarQube
    exact
      { path := hpath
        command := ⟨hcommandName, hreadable⟩
        names := fun file hfile => ⟨hvalues file hfile, hfiles file hfile⟩
        classes := hclasses
        uploads := hcodecov.mp h.codecov
        apart := h.members }
  · intro h
    exact
      { cobertura := hcobertura.mpr ⟨⟨h.path, h.command.1⟩, h.classes⟩
        sonarQube := hsonarQube.mpr fun file hfile => (h.names file hfile).1
        json := hjson.mpr ⟨fun file hfile => (h.names file hfile).2, h.command.2,
          hcommand.text.isSome_codePoints⟩
        codecov := hcodecov.mpr h.uploads
        members := h.apart }

/-- The C library, for one file whose lines are all hit. -/
def onePrinter : Printer where
  rate _ _ := ascii "1.000"
  percentage := { Value := Unit, zero := (), ofCounts := fun _ => (), text := fun _ => ascii "100.00" }
  seconds := ascii "1700000000"
  dateNow := ascii "2023-11-14 22:13:20"
  rate_figures _ _ := show Figures (ascii "1.000") by decide
  percentage_figures _ := show Figures (ascii "100.00") by decide
  seconds_figures := by decide
  dateNow_figures := by decide

/-- The reports of a run without options. -/
def ofReports (reports : Reports) : ReportInput :=
  { JsonWriter.inputOf reports with
    printer := onePrinter
    commandName := ascii "a.out"
    lowLimit := 25
    highLimit := 75
    coberturaFullPaths := false
    uploads := { codecovFullPaths := false, stripPath := [], gitRootPath := [] }
    commonPathBefore := WriterBase.notSet
    counter := 0 }

/-- Two files, the first with a blank in the directory that they share. -/
def twoFiles : List Reports.Event :=
  [.call (.line (ascii "/a b/x-1.c") 1 16), .call (.line (ascii "/a b/c/y.c") 1 32),
    .call (.hit 32 1), .call (.hit 16 1)]

theorem readsBack_twoFiles : ∃ reports ∈ Reports.run Reports.shortSetup Reporter.foundOrder twoFiles,
    (ofReports reports).commonPath = ascii "/a b" ∧ (ofReports reports).ReadsBack := by
  obtain ⟨reports, hreports, hpath, hneeds, hvisited⟩ :
      ∃ reports ∈ Reports.run Reports.shortSetup Reporter.foundOrder twoFiles,
        (ofReports reports).commonPath = ascii "/a b" ∧ (ofReports reports).NeedsNoEscapes ∧
        (ofReports reports).visited.map (·.name) = [ascii "/a b/x-1.c", ascii "/a b/c/y.c"] := by
    decide
  have hcommand : IsPrintable (ascii "a.out") := isPrintable_ascii (by decide)
  refine ⟨reports, hreports, hpath, (readsBack_iff _ ?_ hcommand).mpr hneeds⟩
  intro file hfile
  have hmem : file.name ∈ (ofReports reports).visited.map (·.name) := List.mem_map_of_mem hfile
  rw [hvisited, List.mem_cons, List.mem_singleton] at hmem
  rcases hmem with hname | hname
  · rw [hname]
    exact isPrintable_ascii (by decide)
  · rw [hname]
    exact isPrintable_ascii (by decide)

/-- A double quote in the name of a file. -/
theorem not_readsBack_quote :
    ∃ reports ∈ Reports.run Reports.shortSetup Reporter.foundOrder
      [.call (.line (ascii "/a/\".c") 1 16), .call (.hit 16 1)],
      ¬(ofReports reports).ReadsBack := by
  have hread : ∃ reports ∈ Reports.run Reports.shortSetup Reporter.foundOrder
      [.call (.line (ascii "/a/\".c") 1 16), .call (.hit 16 1)],
      Json.read (JsonWriter.text (ofReports reports)) = none := by
    decide
  obtain ⟨reports, hreports, hnone⟩ := hread
  refine ⟨reports, hreports, fun h => ?_⟩
  have hjson := h.json
  rw [hnone] at hjson
  cases hjson

end ReportInput

end Kcov
