import Kcov.Filter
import Mathlib.Algebra.Order.BigOperators.Group.List

/-! The options that the system mode records in a binary and applies again when it reports. -/

namespace Kcov.SystemMode

open Bytes Kcov.Configuration

/-! ### Recording -/

def keyListAsString (list : List Text) : Text :=
  if list.isEmpty then []
  else
    let out := list.foldl (fun out s => out ++ s ++ [comma]) []
    out.take (out.length - 1)

/-- The six strings that `getKcovOptionsString` prints. -/
def optionParts (conf : Configuration) : Option (List Text) := do
  let includePattern ← conf.keyAsList .includePattern
  let excludePattern ← conf.keyAsList .excludePattern
  let includePath ← conf.keyAsList .includePath
  let excludePath ← conf.keyAsList .excludePath
  let excludeLine ← conf.keyAsString .excludeLine
  let excludeRegion ← conf.keyAsString .excludeRegion
  return [keyListAsString includePattern, keyListAsString excludePattern,
    keyListAsString includePath, keyListAsString excludePath, excludeLine, excludeRegion]

/-- `getKcovOptionsString`: the parts as C strings, each with a space behind it. -/
def getKcovOptionsString (conf : Configuration) : Option Text := do
  let parts ← optionParts conf
  return parts.flatMap fun s => cString s ++ [space]

/-! ### Reporting -/

def optionsStringToConfigurationVector (options : Text) : List Text :=
  let parts := splitString space options
  if parts.length ≠ 6 then [] else parts

/-- `runSystemModeReportFile`: the configuration with which it calls `runKcov`, for the data in
`file` of the binary `filename`. -/
def runSystemModeReportFile (conf : Configuration) (file filename options : Text) :
    Option Configuration := do
  let both := splitPath filename
  let conf := conf.setKeyString .systemModeReadResultsFile file
    |>.setKeyString .binaryName both.2
    |>.setKeyString .binaryPath both.1
  let out ← conf.keyAsString .outDirectory
  let conf := conf.setKeyString .targetDirectory (out ++ [slash] ++ both.2)
  match optionsStringToConfigurationVector options with
  | [includePattern, excludePattern, includePath, excludePath, excludeLine, excludeRegion] =>
    return conf.setKeyString .includePattern includePattern
      |>.setKeyString .excludePattern excludePattern
      |>.setKeyString .includePath includePath
      |>.setKeyString .excludePath excludePath
      |>.setKeyString .excludeLine excludeLine
      |>.setKeyString .excludeRegion excludeRegion
  | _ => return conf

/-! ### Breakpoint indices -/

structure SystemModeEngine where
  indexToAddress : List (BitVec 64)
  breakpointIdx : Nat

/-- The engine after the call and the index that it returns. -/
def SystemModeEngine.registerBreakpoint (e : SystemModeEngine) (addr : BitVec 64) :
    SystemModeEngine × Nat :=
  ({ indexToAddress := e.indexToAddress ++ [addr], breakpointIdx := e.breakpointIdx + 1 },
    e.breakpointIdx)

/-- `Collector::onLine`, for a line of `file` at `addr`. -/
def onLine (host : Host) (filter : Filter) (e : SystemModeEngine) (file : Text)
    (addr : BitVec 64) : SystemModeEngine :=
  if !filter.runFilters host file then e else (e.registerBreakpoint addr).1

/-- The addresses by breakpoint index after the parser has reported `lines`. -/
def registerAll (host : Host) (conf : Configuration) (lines : List (Text × BitVec 64)) :
    Option (List (BitVec 64)) := do
  let filter ← Filter.create host conf
  let e := lines.foldl (fun e line => onLine host filter e line.1 line.2)
    { indexToAddress := [], breakpointIdx := 0 }
  return e.indexToAddress

/-! ### What reporting is for -/

/-- `conf` has the filters of `record`, accepts the same files and numbers breakpoints alike. -/
structure SameFilters (host : Host) (record conf : Configuration) : Prop where
  lists : ∀ key ∈ filterLists, conf.keyAsList key = record.keyAsList key
  strings : ∀ key ∈ filterStrings, conf.keyAsString key = record.keyAsString key
  files : ∀ file, (Filter.create host conf).map (·.runFilters host file) =
    (Filter.create host record).map (·.runFilters host file)
  indices : ∀ lines, registerAll host conf lines = registerAll host record lines

/-- What is recorded with `record` is reported, from the configuration `report`, with the filters
of `record`. -/
def ReportsAsRecorded (host : Host) (record report : Configuration) (file filename : Text) :
    Prop :=
  ∃ options conf, getKcovOptionsString record = some options ∧
    runSystemModeReportFile report file filename options = some conf ∧
    SameFilters host record conf

/-- No element of a filter list and no filter string has a space in it. -/
def NoSpaces (conf : Configuration) : Prop :=
  (∀ key ∈ filterLists, ∀ l, conf.keyAsList key = some l → ∀ s ∈ l, space ∉ s) ∧
    ∀ key ∈ filterStrings, ∀ s, conf.keyAsString key = some s → space ∉ s

/-! ### The options string -/

section OptionsString

theorem keyListAsString_eq (list : List Text) :
    keyListAsString list = (list.flatMap (· ++ [comma])).dropLast := by
  have hfold : ∀ out : Text, list.foldl (fun out s => out ++ s ++ [comma]) out =
      out ++ list.flatMap (· ++ [comma]) := by
    induction list with
    | nil => exact fun out => (List.append_nil out).symm
    | cons s list ih =>
      intro out
      rw [List.foldl_cons, ih, List.flatMap_cons, List.append_assoc, List.append_assoc,
        List.append_assoc]
  cases list with
  | nil => rfl
  | cons s list =>
    rw [keyListAsString, if_neg (by simp), List.dropLast_eq_take, hfold, List.nil_append]

/-- A byte other than the comma is in the joined string if it is in one of the elements. -/
theorem mem_keyListAsString {b : Byte} (hb : b ≠ comma) {list : List Text} :
    b ∈ keyListAsString list ↔ ∃ s ∈ list, b ∈ s := by
  have hjoin : b ∈ list.flatMap (· ++ [comma]) ↔ ∃ s ∈ list, b ∈ s := by
    simp [List.mem_flatMap, hb]
  rw [keyListAsString_eq, ← hjoin]
  cases list using List.reverseRecOn with
  | nil => simp
  | append_singleton list s =>
    rw [List.flatMap_append, List.flatMap_singleton, ← List.append_assoc, List.dropLast_concat]
    simp [hb]

/-- The parts of a complete configuration: two of them are the filter strings, none has a zero
byte, and a space is in one of them if it is in one of the values. -/
theorem optionParts_eq {conf : Configuration} (h : conf.Complete) :
    ∃ a b c d e f, optionParts conf = some [a, b, c, d, e, f] ∧
      conf.keyAsString .excludeLine = some e ∧ conf.keyAsString .excludeRegion = some f ∧
      (∀ s ∈ [a, b, c, d, e, f], 0 ∉ s) ∧
      (NoSpaces conf ↔ ∀ s ∈ [a, b, c, d, e, f], space ∉ s) := by
  obtain ⟨a, ha, ha0⟩ := h.lists .includePattern (by simp [filterLists])
  obtain ⟨b, hb, hb0⟩ := h.lists .excludePattern (by simp [filterLists])
  obtain ⟨c, hc, hc0⟩ := h.lists .includePath (by simp [filterLists])
  obtain ⟨d, hd, hd0⟩ := h.lists .excludePath (by simp [filterLists])
  obtain ⟨e, he, he0⟩ := h.strings .excludeLine (by simp [filterStrings])
  obtain ⟨f, hf, hf0⟩ := h.strings .excludeRegion (by simp [filterStrings])
  have hjoin : ∀ (x : Byte) (l : List Text), x ≠ comma →
      (x ∉ keyListAsString l ↔ ∀ s ∈ l, x ∉ s) := by
    intro x l hx
    rw [mem_keyListAsString hx]
    simp only [not_exists, not_and]
  refine ⟨keyListAsString a, keyListAsString b, keyListAsString c, keyListAsString d, e, f,
    ?_, he, hf, ?_, ?_⟩
  · simp [optionParts, ha, hb, hc, hd, he, hf]
  · simp only [List.forall_mem_cons, List.not_mem_nil, hjoin 0 _ (by decide)]
    exact ⟨ha0, hb0, hc0, hd0, he0, hf0, fun _ h => h.elim⟩
  · simp only [NoSpaces, filterLists, filterStrings, List.forall_mem_cons, List.not_mem_nil,
      ha, hb, hc, hd, he, hf, Option.some.injEq, forall_eq', hjoin space _ (by decide)]
    simp [and_assoc]

theorem getKcovOptionsString_eq {conf : Configuration} {parts : List Text}
    (hparts : optionParts conf = some parts) (hnul : ∀ s ∈ parts, 0 ∉ s) :
    getKcovOptionsString conf = some (parts.flatMap (· ++ [space])) := by
  rw [getKcovOptionsString, hparts]
  apply congrArg some
  rw [List.flatMap_def, List.flatMap_def, List.map_congr_left]
  intro s hs
  rw [cString_eq_self (hnul s hs)]

/-- The options string of a complete configuration splits into its parts, or into too many. -/
theorem optionsStringToConfigurationVector_parts (parts : List Text) (hlen : parts.length = 6) :
    optionsStringToConfigurationVector (parts.flatMap (· ++ [space])) =
      if ∀ s ∈ parts, space ∉ s then parts else [] := by
  rw [optionsStringToConfigurationVector]
  by_cases hspace : ∀ s ∈ parts, space ∉ s
  · rw [if_pos hspace, splitString_flatMap hspace]
    exact if_neg (not_not.mpr hlen)
  · rw [if_neg hspace]
    apply if_pos
    rw [length_splitString_flatMap, hlen]
    simp only [not_forall, not_not] at hspace
    obtain ⟨s, hs, hmem⟩ := hspace
    have hpos := List.count_pos_iff.mpr hmem
    have hle := List.single_le_sum (fun _ _ => Nat.zero_le _) _
      (List.mem_map.mpr ⟨s, hs, rfl⟩ : s.count space ∈ parts.map (·.count space))
    omega

end OptionsString

/-! ### The configuration of a report -/

section Report

variable {host : Host} {record report conf : Configuration}

/-- The keys of a report: its lists are those that it started with. -/
theorem runSystemModeReportFile_keys (file filename options : Text) {out : Text}
    (hout : report.keyAsString .outDirectory = some out) :
    ∃ conf, runSystemModeReportFile report file filename options = some conf ∧
      (∀ key, conf.keyAsList key = report.keyAsList key) ∧
      (∀ key ∈ [Key.origPathPrefix, .newPathPrefix],
        conf.keyAsString key = report.keyAsString key) ∧
      (optionsStringToConfigurationVector options = [] →
        ∀ key ∈ filterStrings, conf.keyAsString key = report.keyAsString key) ∧
      (∀ a b c d e f, optionsStringToConfigurationVector options = [a, b, c, d, e, f] →
        conf.keyAsString .excludeLine = some e ∧ conf.keyAsString .excludeRegion = some f) := by
  have hout' : (report.setKeyString .systemModeReadResultsFile file
      |>.setKeyString .binaryName (splitPath filename).2
      |>.setKeyString .binaryPath (splitPath filename).1).keyAsString .outDirectory = some out := by
    simp [hout]
  simp only [runSystemModeReportFile, hout', Option.bind_eq_bind, Option.bind_some]
  split
  next a b c d e f hvec =>
    refine ⟨_, rfl, fun _ => rfl, by simp, fun h => by simp [hvec] at h, ?_⟩
    intro a' b' c' d' e' f' h
    simp only [hvec, List.cons.injEq] at h
    simp [h]
  next hvec =>
    refine ⟨_, rfl, fun _ => rfl, by simp, fun _ => by simp [filterStrings], ?_⟩
    intro a b c d e f h
    exact absurd h (hvec a b c d e f)

/-- Filters that have the same lists accept the same files. -/
theorem create_map_runFilters (host : Host) (hrecord : record.Complete)
    (hlists : ∀ key ∈ filterLists, conf.keyAsList key = record.keyAsList key)
    (hroots : ∀ key ∈ [Key.origPathPrefix, .newPathPrefix], ∃ s, conf.keyAsString key = some s) :
    ∃ f g, Filter.create host conf = some f ∧ Filter.create host record = some g ∧
      f.runFilters host = g.runFilters host := by
  obtain ⟨a, ha, -⟩ := hrecord.lists .includePattern (by simp [filterLists])
  obtain ⟨b, hb, -⟩ := hrecord.lists .excludePattern (by simp [filterLists])
  obtain ⟨c, hc, -⟩ := hrecord.lists .includePath (by simp [filterLists])
  obtain ⟨d, hd, -⟩ := hrecord.lists .excludePath (by simp [filterLists])
  obtain ⟨e, he, -⟩ := hrecord.strings .origPathPrefix (by simp)
  obtain ⟨f, hf, -⟩ := hrecord.strings .newPathPrefix (by simp)
  obtain ⟨e', he'⟩ := hroots .origPathPrefix (by simp)
  obtain ⟨f', hf'⟩ := hroots .newPathPrefix (by simp)
  simp only [filterLists, List.forall_mem_cons, List.not_mem_nil] at hlists
  refine ⟨⟨⟨a, b⟩, PathHandler.create host c d, e', f'⟩,
    ⟨⟨a, b⟩, PathHandler.create host c d, e, f⟩, ?_, ?_, rfl⟩
  · simp [Filter.create, hlists, ha, hb, hc, hd, he', hf']
  · simp [Filter.create, ha, hb, hc, hd, he, hf]

/-- Which files are accepted and how breakpoints are numbered follows from the lists. -/
theorem sameFilters_iff (hrecord : record.Complete)
    (hroots : ∀ key ∈ [Key.origPathPrefix, .newPathPrefix], ∃ s, conf.keyAsString key = some s) :
    SameFilters host record conf ↔
      (∀ key ∈ filterLists, conf.keyAsList key = record.keyAsList key) ∧
      ∀ key ∈ filterStrings, conf.keyAsString key = record.keyAsString key := by
  refine ⟨fun h => ⟨h.lists, h.strings⟩, fun h => ?_⟩
  obtain ⟨f, g, hf, hg, hrun⟩ := create_map_runFilters host hrecord h.1 hroots
  refine ⟨h.1, h.2, fun file => ?_, fun lines => ?_⟩
  · rw [hf, hg, Option.map_some, Option.map_some, hrun]
  · have honLine : onLine host f = onLine host g := by
      funext e file addr
      rw [onLine, onLine, hrun]
    simp only [registerAll, hf, hg, Option.bind_eq_bind, Option.bind_some, honLine]

end Report

/-- A report uses the recorded filters if and only if it is started with the recorded lists and
either no recorded value has a space in it or it is started with the recorded strings too. -/
theorem reportsAsRecorded_iff (host : Host) (recordSettings reportSettings : List Setting)
    (recordOut reportOut : Argument) (file filename : Text) :
    ReportsAsRecorded host (ofCommandLine recordSettings recordOut)
        (ofCommandLine reportSettings reportOut) file filename ↔
      (∀ key ∈ filterLists, (ofCommandLine reportSettings reportOut).keyAsList key =
        (ofCommandLine recordSettings recordOut).keyAsList key) ∧
      (NoSpaces (ofCommandLine recordSettings recordOut) ∨
        ∀ key ∈ filterStrings, (ofCommandLine reportSettings reportOut).keyAsString key =
          (ofCommandLine recordSettings recordOut).keyAsString key) := by
  have hrecord := complete_ofCommandLine recordSettings recordOut
  have hreport := complete_ofCommandLine reportSettings reportOut
  have hout := keyAsString_outDirectory reportSettings reportOut
  generalize ofCommandLine recordSettings recordOut = record at *
  generalize ofCommandLine reportSettings reportOut = report at *
  obtain ⟨a, b, c, d, e, f, hparts, hline, hregion, hnul, hspaces⟩ := optionParts_eq hrecord
  have hoptions := getKcovOptionsString_eq hparts hnul
  obtain ⟨conf, hrun, hlists, hroots, hnone, hall⟩ :=
    runSystemModeReportFile_keys file filename ([a, b, c, d, e, f].flatMap (· ++ [space])) hout
  have hvec := optionsStringToConfigurationVector_parts [a, b, c, d, e, f] rfl
  have hconf : ReportsAsRecorded host record report file filename ↔
      SameFilters host record conf := by
    constructor
    · rintro ⟨options, conf', hopt, hrun', hsame⟩
      rw [hoptions, Option.some.injEq] at hopt
      rw [← hopt, hrun, Option.some.injEq] at hrun'
      exact hrun' ▸ hsame
    · exact fun h => ⟨_, conf, hoptions, hrun, h⟩
  rw [hconf, sameFilters_iff hrecord fun key hkey => by
    obtain ⟨s, hs, -⟩ := hreport.strings key (List.mem_append_right _ hkey)
    exact ⟨s, by rw [hroots key hkey, hs]⟩]
  simp only [hlists]
  apply and_congr_right
  intro _
  by_cases hns : NoSpaces record
  · rw [if_pos (hspaces.mp hns)] at hvec
    obtain ⟨he, hf⟩ := hall _ _ _ _ _ _ hvec
    refine iff_of_true ?_ (Or.inl hns)
    simp [filterStrings, he, hf, hline, hregion]
  · rw [if_neg (fun h => hns (hspaces.mpr h))] at hvec
    rw [or_iff_right hns]
    apply forall₂_congr
    intro key hkey
    rw [hnone hvec key hkey]

/-- The settings of `--include-pattern=src`. -/
def includeSrc : List Setting := [.list .includePattern [⟨ascii "src", by decide⟩]]

def outArgument : Argument := ⟨ascii "/tmp/out/", by decide⟩

/-- A recorded `--include-pattern` is not in force in a report that does not repeat it. -/
theorem not_reportsAsRecorded_includeSrc :
    ¬ ReportsAsRecorded Host.bare (ofCommandLine includeSrc outArgument)
      (ofCommandLine [] outArgument) (ascii "/tmp/data/1") (ascii "/bin/a") := by
  rintro ⟨options, conf, -, hrun, hsame⟩
  obtain ⟨conf', hrun', hlists, -⟩ := runSystemModeReportFile_keys (ascii "/tmp/data/1")
    (ascii "/bin/a") options (keyAsString_outDirectory [] outArgument)
  rw [hrun', Option.some.injEq] at hrun
  have hkey := hsame.lists .includePattern (by simp [filterLists])
  rw [← hrun, hlists] at hkey
  simp [ofCommandLine, includeSrc, setupDefaults, apply, ascii] at hkey

end Kcov.SystemMode
