import Kcov.Numbers
import Kcov.Writers.Totals

/-! The entries of files in the JSON report: what an entry takes from the other files. -/

namespace Kcov

open Bytes

namespace JsonWriter

/-- The arithmetic of `percentCovered`, a `double`, and its text with two decimals. -/
structure Percentage where
  Value : Type
  zero : Value
  ofCounts : LineCount → Value
  text : Value → Text

/-- What the report has for a file. -/
structure FileEntry where
  file : Text
  percentCovered : Text
  coveredLines : U32
  totalLines : U32
  deriving DecidableEq, Repr

/-- The variables that the loops over `m_files` keep from one file to the next, and what they have
printed. -/
structure Loop (pc : Percentage) where
  total : LineCount
  percentCovered : pc.Value
  entries : List FileEntry

def Loop.start (pc : Percentage) : Loop pc :=
  { total := { code := 0, executed := 0 }, percentCovered := pc.zero, entries := [] }

/-- The body of the loops of `write` and `onStop` over the files. -/
def Loop.step {pc : Percentage} (cfg : ReporterSetup) (s : Reporter) (v : Loop pc)
    (file : WriterFile) : Loop pc :=
  let c := file.lineNrs.foldl (file.count cfg s) { code := 0, executed := 0 }
  let percentCovered := if 0 < c.code then pc.ofCounts c else v.percentCovered
  { total := file.lineNrs.foldl (file.count cfg s) v.total
    percentCovered
    entries := v.entries ++ [{
      file := file.name
      percentCovered := pc.text percentCovered
      coveredLines := c.executed
      totalLines := c.code }] }

def Loop.run (pc : Percentage) (cfg : ReporterSetup) (s : Reporter) (files : List WriterFile) :
    Loop pc :=
  files.foldl (Loop.step cfg s) (.start pc)

/-- What the reports are written from. -/
structure Input where
  cfg : ReporterSetup
  reporter : Reporter
  writer : WriterBase
  order : IterationOrder

/-- The values in the report: an entry for every file, and the totals. -/
structure Report (Entry : Type) where
  files : List Entry
  percentCovered : Text
  coveredLines : U32
  totalLines : U32

def Loop.report {pc : Percentage} {Entry : Type} (v : Loop pc) (entry : FileEntry → Entry) :
    Report Entry :=
  { files := v.entries.map entry
    percentCovered := pc.text (if 0 < v.total.code then pc.ofCounts v.total else pc.zero)
    coveredLines := v.total.executed
    totalLines := v.total.code }

namespace Input

/-- The files in the order of the loops. -/
def visited (r : Input) : List WriterFile := r.writer.filesInOrder r.order

/-- What `write` prints. -/
def report (pc : Percentage) (r : Input) : Report FileEntry :=
  (Loop.run pc r.cfg r.reporter r.visited).report id

/-- What `onStop` prints if the key `dump-summary` is set: there are no counts in its entries. -/
def onStop (pc : Percentage) (dumpSummary : Bool) (r : Input) : Option (Report (Text × Text)) :=
  if dumpSummary then
    some ((Loop.run pc r.cfg r.reporter r.visited).report fun e => (e.file, e.percentCovered))
  else none

end Input

/-! ### What an entry is made of -/

/-- Some line of the text is code. -/
def hasCode (s : Reporter) (file : WriterFile) : Bool :=
  file.lineNrs.any (s.lineIsCode file.name)

/-- The percentage that is left behind some files: that of the last one with code. -/
def percentBehind (pc : Percentage) (cfg : ReporterSetup) (s : Reporter) (files : List WriterFile) :
    pc.Value :=
  match (files.filter (hasCode s)).getLast? with
  | none => pc.zero
  | some file => pc.ofCounts (file.counted cfg s)

/-- The entry of a file behind others. -/
def entryBehind (pc : Percentage) (cfg : ReporterSetup) (s : Reporter) (before : List WriterFile)
    (file : WriterFile) : FileEntry :=
  { file := file.name
    percentCovered := pc.text
      (if hasCode s file then pc.ofCounts (file.counted cfg s)
      else percentBehind pc cfg s before)
    coveredLines := (file.counted cfg s).executed
    totalLines := (file.counted cfg s).code }

section Loops

variable {pc : Percentage} {cfg : ReporterSetup} {s : Reporter} {w : WriterBase}
  {files before behind : List WriterFile} {file : WriterFile} {v : Loop pc}

theorem foldl_count_zero : file.lineNrs.foldl (file.count cfg s) { code := 0, executed := 0 } =
    file.counted cfg s := by
  rw [WriterFile.foldl_count, WriterFile.counted]
  simp

/-- The counter of code lines does not overflow. -/
theorem code_pos_iff (cfg : ReporterSetup) (s : Reporter) (file : WriterFile) :
    0 < (file.counted cfg s).code ↔ hasCode s file = true := by
  have hlt : file.lineNrs.countP (s.lineIsCode file.name) < 2 ^ 32 := by
    have hlen : file.lineNrs.length = file.lastLineNr.toNat - 1 := by
      rw [WriterFile.lineNrs, List.length_map, List.length_range']
    have hle : file.lineNrs.countP (s.lineIsCode file.name) ≤ file.lineNrs.length :=
      List.countP_le_length
    have hlast := file.lastLineNr.isLt
    omega
  rw [BitVec.lt_def, WriterFile.counted, BitVec.toNat_ofNat, Nat.mod_eq_of_lt hlt, hasCode,
    List.any_eq_true]
  exact List.countP_pos_iff

theorem run_snoc : Loop.run pc cfg s (files ++ [file]) =
    (Loop.run pc cfg s files).step cfg s file := by
  rw [Loop.run, List.foldl_append]
  rfl

/-- The percentage behind the loop is that of the last file with code. -/
theorem run_percentCovered :
    (Loop.run pc cfg s files).percentCovered = percentBehind pc cfg s files := by
  induction files using List.reverseRecOn with
  | nil => rfl
  | append_singleton files file ih =>
    rw [run_snoc, Loop.step, foldl_count_zero, percentBehind, List.filter_append,
      List.filter_singleton]
    dsimp only
    cases hcode : hasCode s file with
    | true =>
      rw [if_pos ((code_pos_iff cfg s file).mpr hcode), Bool.cond_true, List.getLast?_concat]
    | false =>
      rw [if_neg (fun h => Bool.false_ne_true (hcode ▸ (code_pos_iff cfg s file).mp h)),
        Bool.cond_false,
        List.append_nil, ih]
      rfl

theorem run_entries_snoc : (Loop.run pc cfg s (files ++ [file])).entries =
    (Loop.run pc cfg s files).entries ++ [entryBehind pc cfg s files file] := by
  rw [run_snoc, Loop.step, foldl_count_zero, run_percentCovered, entryBehind]
  simp only [code_pos_iff]

theorem run_entries_files : (Loop.run pc cfg s files).entries.map (·.file) = files.map (·.name) := by
  induction files using List.reverseRecOn with
  | nil => rfl
  | append_singleton files file ih => simp [run_entries_snoc, ih, entryBehind]

theorem run_entries_prefix : (Loop.run pc cfg s before).entries <+:
    (Loop.run pc cfg s (before ++ behind)).entries := by
  induction behind using List.reverseRecOn with
  | nil => simp
  | append_singleton behind file ih =>
    rw [← List.append_assoc, run_entries_snoc]
    exact ih.trans (List.prefix_append _ _)

/-- The first entry for a name is that of the first file. -/
theorem find?_entries {f : Text} (hbefore : ∀ g ∈ before, g.name ≠ f) (hname : file.name = f) :
    (Loop.run pc cfg s (before ++ file :: behind)).entries.find? (·.file = f) =
      some (entryBehind pc cfg s before file) := by
  have hnone : (Loop.run pc cfg s before).entries.find? (·.file = f) = none := by
    rw [List.find?_eq_none]
    intro e he
    have hmem : e.file ∈ before.map (·.name) := run_entries_files ▸ List.mem_map_of_mem he
    obtain ⟨g, hg, hge⟩ := List.mem_map.mp hmem
    simpa [← hge] using hbefore g hg
  have hstart : (Loop.run pc cfg s (before ++ [file])).entries <+:
      (Loop.run pc cfg s (before ++ file :: behind)).entries := by
    rw [List.append_cons before file behind]
    exact run_entries_prefix
  refine hstart.find?_eq_some ?_
  rw [run_entries_snoc, List.find?_append, hnone, Option.none_or]
  simp [entryBehind, hname]

end Loops

/-! ### Files and their entries -/

/-- A line is code for both reporters or for none, with the same hits. -/
def SameLine (r r' : Input) (f : Text) (n : U32) : Prop :=
  r.reporter.lineIsCode f n = r'.reporter.lineIsCode f n ∧
    (r.reporter.getLineExecutionCount r.cfg f n).hits =
      (r'.reporter.getLineExecutionCount r'.cfg f n).hits

instance (r r' : Input) (f : Text) : DecidablePred (SameLine r r' f) :=
  fun _ => inferInstanceAs (Decidable (_ ∧ _))

-- line by line, and not over all numbers
instance (r r' : Input) (f : Text) (ns : List U32) : Decidable (∀ n ∈ ns, SameLine r r' f n) :=
  List.decidableBAll _ ns

/-- The same file has the same code lines with the same hits. -/
def AgreeOn (r r' : Input) (f : Text) : Prop :=
  ∃ file ∈ r.writer.files.find? (·.name = f), ∃ file' ∈ r'.writer.files.find? (·.name = f),
    file.lastLineNr = file'.lastLineNr ∧ ∀ n ∈ file.lineNrs, SameLine r r' f n

instance (r r' : Input) (f : Text) : Decidable (AgreeOn r r' f) :=
  inferInstanceAs (Decidable (∃ _ ∈ _, ∃ _ ∈ _, _ ∧ _))

/-- Both reports have the same entry for a file, and so have both summaries. -/
structure SameEntry (pc : Percentage) (r r' : Input) (f : Text) : Prop where
  written : (r.report pc).files.find? (·.file = f) = (r'.report pc).files.find? (·.file = f)
  dumped : (r.onStop pc true).map (·.files.find? (·.1 = f)) =
    (r'.onStop pc true).map (·.files.find? (·.1 = f))

instance (pc : Percentage) (r r' : Input) (f : Text) : Decidable (SameEntry pc r r' f) :=
  decidable_of_iff (_ ∧ _) ⟨fun h => ⟨h.1, h.2⟩, fun h => ⟨h.written, h.dumped⟩⟩

namespace Input

/-- The files that are visited before this one. -/
def before (r : Input) (f : Text) : List WriterFile := r.visited.takeWhile (·.name ≠ f)

/-- A file of the report has code. -/
def HasCode (r : Input) (f : Text) : Prop :=
  ∃ file ∈ r.writer.files.find? (·.name = f), hasCode r.reporter file = true

/-- What `percentCovered` holds when the file is reached. -/
def percentBefore (pc : Percentage) (r : Input) (f : Text) : pc.Value :=
  percentBehind pc r.cfg r.reporter (r.before f)

instance (r : Input) (f : Text) : Decidable (r.HasCode f) :=
  inferInstanceAs (Decidable (∃ _ ∈ _, _))

variable {r r' : Input} {f : Text} {file : WriterFile}

theorem mem_visited : file ∈ r.visited ↔
    r.writer.files.find? (·.name = file.name) = some file := by
  rw [visited, WriterBase.filesInOrder, List.mem_filterMap]
  constructor
  · rintro ⟨name, -, hfind⟩
    have hname : file.name = name := by simpa using List.find?_some hfind
    rwa [hname]
  · intro hfind
    have hmem : file.name ∈ r.writer.files.map (·.name) :=
      List.mem_map_of_mem (List.mem_of_find?_eq_some hfind)
    exact ⟨file.name, (r.order.perm _).mem_iff.mpr hmem, hfind⟩

theorem visited_eq (hfile : r.writer.files.find? (·.name = f) = some file) :
    ∃ behind, r.visited = r.before f ++ file :: behind := by
  have hname : file.name = f := by simpa using List.find?_some hfile
  have hmem : file ∈ r.visited := mem_visited.mpr (hname ▸ hfile)
  have hne : r.visited.dropWhile (·.name ≠ f) ≠ [] := by
    rw [ne_eq, List.dropWhile_eq_nil_iff]
    intro hall
    simpa [hname] using hall file hmem
  obtain ⟨g, behind, hdrop⟩ := List.exists_cons_of_ne_nil hne
  have hsplit : r.visited = r.before f ++ g :: behind := by
    rw [← hdrop, before, List.takeWhile_append_dropWhile]
  have hg : g.name = f := by
    have hhead := List.head?_dropWhile_not (fun g : WriterFile => decide (g.name ≠ f)) r.visited
    rw [hdrop] at hhead
    simpa using hhead
  have hfind := mem_visited.mp (hsplit ▸ List.mem_append_right _ List.mem_cons_self : g ∈ r.visited)
  rw [hg, hfile] at hfind
  cases hfind
  exact ⟨behind, hsplit⟩

/-- The entry of a file, from its lines and from what the files before it have left. -/
theorem find?_report (pc : Percentage)
    (hfile : r.writer.files.find? (·.name = f) = some file) :
    (r.report pc).files.find? (·.file = f) =
      some (entryBehind pc r.cfg r.reporter (r.before f) file) := by
  have hname : file.name = f := by simpa using List.find?_some hfile
  obtain ⟨behind, hvisited⟩ := visited_eq hfile
  have hbefore : ∀ g ∈ r.before f, g.name ≠ f := fun g hg => by
    simpa using List.mem_takeWhile_imp hg
  rw [report, Loop.report, List.map_id, hvisited, find?_entries hbefore hname]

theorem find?_onStop (pc : Percentage)
    (hfile : r.writer.files.find? (·.name = f) = some file) :
    (r.onStop pc true).map (·.files.find? (·.1 = f)) = some (some (f,
      (entryBehind pc r.cfg r.reporter (r.before f) file).percentCovered)) := by
  have hname : file.name = f := by simpa using List.find?_some hfile
  have hreport := find?_report pc hfile
  rw [report, Loop.report, List.map_id] at hreport
  have hfind : ∀ entries : List FileEntry,
      (entries.map fun e => (e.file, e.percentCovered)).find? (·.1 = f) =
        (entries.find? (·.file = f)).map fun e => (e.file, e.percentCovered) := fun entries => by
    rw [List.find?_map]
    rfl
  rw [onStop, if_pos rfl, Option.map_some, Loop.report, hfind, hreport, Option.map_some,
    entryBehind, hname]

end Input

section Agreement

variable {r r' : Input} {f : Text}

/-- The counts of a file come from its own lines. -/
theorem counted_congr (cfg cfg' : ReporterSetup) {file file' : WriterFile} {s s' : Reporter}
    (hlines : file.lineNrs = file'.lineNrs) (hcode : ∀ n ∈ file.lineNrs,
      s.lineIsCode file.name n = s'.lineIsCode file'.name n ∧
      (s.getLineExecutionCount cfg file.name n).hits =
        (s'.getLineExecutionCount cfg' file'.name n).hits) :
    file.counted cfg s = file'.counted cfg' s' ∧ hasCode s file = hasCode s' file' := by
  have hcodes : file.lineNrs.countP (s.lineIsCode file.name) =
      file'.lineNrs.countP (s'.lineIsCode file'.name) := by
    rw [← hlines]
    exact List.countP_congr fun n hn => by rw [(hcode n hn).1]
  have hexecuted : file.lineNrs.countP (s.isExecuted cfg file.name) =
      file'.lineNrs.countP (s'.isExecuted cfg' file'.name) := by
    rw [← hlines]
    refine List.countP_congr fun n hn => ?_
    rw [Reporter.isExecuted, Reporter.isExecuted, (hcode n hn).1, (hcode n hn).2]
  refine ⟨by rw [WriterFile.counted, WriterFile.counted, hcodes, hexecuted], ?_⟩
  rw [Bool.eq_iff_iff, ← code_pos_iff cfg, ← code_pos_iff cfg',
    WriterFile.counted, WriterFile.counted, hcodes]

/-- A file that is the same in two reporters gets the same entries exactly if it has code, or the
last file with code in front of it has left a percentage that reads the same. -/
theorem sameEntry_iff (pc : Percentage) (h : AgreeOn r r' f) : SameEntry pc r r' f ↔
    r.HasCode f ∨ pc.text (r.percentBefore pc f) = pc.text (r'.percentBefore pc f) := by
  obtain ⟨file, hfile, file', hfile', hlast, hagree⟩ := h
  have hname : file.name = f := by simpa using List.find?_some hfile
  have hname' : file'.name = f := by simpa using List.find?_some hfile'
  have hlines : file.lineNrs = file'.lineNrs := by
    rw [WriterFile.lineNrs, WriterFile.lineNrs, hlast]
  obtain ⟨hcounted, hcode⟩ := counted_congr r.cfg r'.cfg hlines fun n hn => by
    rw [hname, hname']
    exact hagree n hn
  have hiff : SameEntry pc r r' f ↔
      (entryBehind pc r.cfg r.reporter (r.before f) file).percentCovered =
        (entryBehind pc r'.cfg r'.reporter (r'.before f) file').percentCovered := by
    constructor
    · intro hsame
      have hwritten := hsame.written
      rw [Input.find?_report pc hfile, Input.find?_report pc hfile', Option.some.injEq] at hwritten
      rw [hwritten]
    · intro hsame
      refine ⟨?_, ?_⟩
      · rw [Input.find?_report pc hfile, Input.find?_report pc hfile', Option.some.injEq]
        simp only [entryBehind] at hsame ⊢
        rw [hsame, hname, hname', hcounted]
      · rw [Input.find?_onStop pc hfile, Input.find?_onStop pc hfile', hsame]
  have hhas : r.HasCode f ↔ hasCode r.reporter file = true := by
    constructor
    · rintro ⟨g, hg, hcode⟩
      rw [Option.mem_def.mp hfile] at hg
      cases hg
      exact hcode
    · exact fun hcode => ⟨file, hfile, hcode⟩
  rw [hiff, hhas, entryBehind, entryBehind, ← hcode, ← hcounted, Input.percentBefore,
    Input.percentBefore]
  cases hasCode r.reporter file with
  | true => simp
  | false => simp

end Agreement

/-- The percentage in hundredths, rounded, as a `double` gives it for small counts. -/
def rounded : Percentage where
  Value := Nat
  zero := 0
  ofCounts c := (20000 * c.executed.toNat + c.code.toNat) / (2 * c.code.toNat)
  text v := decimal (v / 100) ++ ascii "." ++ decimal (v / 10 % 10) ++ decimal (v % 10)

/-- The JSON writer of some reports. -/
def inputOf (r : Reports) : Input :=
  { cfg := Reports.shortSetup
    reporter := r.reporter
    writer := r.json
    order := Reporter.foundOrder }

/-- A file whose only line is covered. -/
def coveredFile : List Reports.Event := [.call (.line (ascii "/a") 1 16), .call (.hit 16 1)]

/-- A file whose line is not in its text. -/
def emptyFile : List Reports.Event := [.call (.line (ascii "/b") 10 20)]

/-- The covered file alone, and behind the other one. -/
theorem sameEntry_covered :
    ∃ r ∈ Reports.run Reports.shortSetup Reporter.foundOrder coveredFile,
    ∃ r' ∈ Reports.run Reports.shortSetup Reporter.foundOrder (emptyFile ++ coveredFile),
      SameEntry rounded (inputOf r) (inputOf r') (ascii "/a") := by
  have hagree : ∃ r ∈ Reports.run Reports.shortSetup Reporter.foundOrder coveredFile,
      ∃ r' ∈ Reports.run Reports.shortSetup Reporter.foundOrder (emptyFile ++ coveredFile),
        AgreeOn (inputOf r) (inputOf r') (ascii "/a") ∧ (inputOf r).HasCode (ascii "/a") := by
    decide
  obtain ⟨r, hr, r', hr', hagree, hcode⟩ := hagree
  exact ⟨r, hr, r', hr', (sameEntry_iff rounded hagree).mpr (Or.inl hcode)⟩

/-- The other file gets the percentage of the covered one in front of it. -/
theorem not_sameEntry_empty :
    ∃ r ∈ Reports.run Reports.shortSetup Reporter.foundOrder emptyFile,
    ∃ r' ∈ Reports.run Reports.shortSetup Reporter.foundOrder (coveredFile ++ emptyFile),
      AgreeOn (inputOf r) (inputOf r') (ascii "/b") ∧
        ¬SameEntry rounded (inputOf r) (inputOf r') (ascii "/b") := by
  decide

end JsonWriter

end Kcov
