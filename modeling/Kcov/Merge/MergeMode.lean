import Kcov.Merge.Records
import Kcov.Merge.System
import Kcov.Reporter.Compiled
import Mathlib.Data.Finset.Image

/-! The merge mode: what the reporter that listens to the merge parser has of the stored records,
in whichever order and however often they are read. -/

namespace Kcov

open Bytes

/-- The reporter of the merge mode has the filter of the configuration. -/
def ReporterSetup.mergeModeReporter (cfg : ReporterSetup) : ReporterSetup :=
  { cfg.mergeReporter with runFilters := cfg.runFilters }

/-- A word of an address table without its mark. -/
def address (word : U64) : U64 := word &&& ~~~hitBit

namespace MergeMode

/-- `runMergeMode` up to the reports: the merge parser reads records, and the reporter listens. The
output handler is stopped twice, so that all records are read twice. -/
def run (cfg : ReporterSetup) (mangleSourcePath : Text → Text) (read : List Record) :
    Option (MergeParser × Reporter) := do
  let parser ← MergeParser.parseAll (cfg.mergeParser mangleSourcePath) read
  let reporter ← Reporter.run cfg.mergeModeReporter parser.reported
  return (parser, reporter)

/-! ### What the records say -/

/-- The words of the records of existing files, with their lines. -/
def located (cfg : MergeSetup) (records : List Record) : List (LineRef × U64) :=
  records.flatMap fun r =>
    if cfg.host.fileExists (r.file cfg) then r.words.map fun p => (⟨r.file cfg, p.1⟩, p.2) else []

/-- The addresses that a line has in some record. -/
def addressesAt (cfg : MergeSetup) (records : List Record) (ref : LineRef) : Finset U64 :=
  (((located cfg records).filter (·.1 = ref)).map fun p => address p.2).toFinset

/-- The addresses that some record marks as hit. -/
def hitsAt (cfg : MergeSetup) (records : List Record) (ref : LineRef) : Finset U64 :=
  (((located cfg records).filter fun p => p.1 = ref && p.2 &&& hitBit ≠ 0).map
    fun p => address p.2).toFinset

/-- An address belongs to one line. -/
def Apart (ws : List (LineRef × U64)) : Prop :=
  ∀ p ∈ ws, ∀ q ∈ ws, address p.2 = address q.2 → p.1 = q.1

/-- The records are those of files as they are now, whose lines have their own addresses and
numbers, and the reporter has room for them. -/
structure Mergeable (cfg : ReporterSetup) (mangle : Text → Text) (records : List Record) :
    Prop where
  readable : ∀ r ∈ records, cfg.host.fileExists (r.file (cfg.mergeParser mangle)) = true →
    (cfg.host.readFile (r.file (cfg.mergeParser mangle))).isSome
  fresh : ∀ r ∈ records, cfg.host.fileExists (r.file (cfg.mergeParser mangle)) = true →
    r.isFresh (cfg.mergeParser mangle) = true
  apart : Apart (located (cfg.mergeParser mangle) records)
  numbers : ∀ p ∈ located (cfg.mergeParser mangle) records,
    ∀ q ∈ located (cfg.mergeParser mangle) records,
      cfg.mergeModeReporter.lineId p.1 = cfg.mergeModeReporter.lineId q.1 → p.1.file = q.1.file
  admits : ∀ p ∈ located (cfg.mergeParser mangle) records,
    Reporter.Admits cfg.mergeModeReporter (.line p.1.file p.1.lineNr (address p.2))

/-! ### The calls of the merge parser -/

/-- The calls for a word. -/
def wordCalls (p : LineRef × U64) : List Reporter.Event :=
  .line p.1.file p.1.lineNr (address p.2) ::
    if p.2 &&& hitBit ≠ 0 then [.hit (address p.2) 1] else []

section Calls

variable {cfg : MergeSetup} {s t : MergeParser} {records : List Record} {r : Record}

theorem address_address (word : U64) : address (address word) = address word := by
  rw [address, address, BitVec.and_assoc, BitVec.and_self]

theorem reported_parseAddress (file : Text) (lineNr : U32) (s : MergeParser) (word : U64) :
    (MergeParser.parseAddress file lineNr s word).reported =
      s.reported ++ wordCalls (⟨file, lineNr⟩, word) := by
  have hline : word &&& ~~~hitBit &&& ~~~hitBit = address word := address_address word
  rw [MergeParser.parseAddress, wordCalls]
  split
  · simp only [MergeParser.report, MergeParser.modifyFile, List.append_assoc, List.cons_append,
      List.nil_append]
    rw [hline]
    rfl
  · simp only [MergeParser.report, MergeParser.modifyFile]
    rw [hline]

theorem reported_parseEntries (file : Text) (s : MergeParser) (entries : List (U32 × List U64)) :
    (s.parseEntries file entries).reported = s.reported ++
      (entries.flatMap fun e => e.2.map fun w =>
        ((⟨file, e.1⟩ : LineRef), w)).flatMap wordCalls := by
  have hwords : ∀ (lineNr : U32) (words : List U64) (s : MergeParser),
      (words.foldl (MergeParser.parseAddress file lineNr) s).reported = s.reported ++
        (words.map fun w => ((⟨file, lineNr⟩ : LineRef), w)).flatMap wordCalls := by
    intro lineNr words
    induction words with
    | nil => exact fun s => (List.append_nil _).symm
    | cons w words ih =>
      intro s
      rw [List.foldl_cons, ih, reported_parseAddress, List.map_cons, List.flatMap_cons,
        List.append_assoc]
  rw [MergeParser.parseEntries]
  induction entries generalizing s with
  | nil => exact (List.append_nil _).symm
  | cons e entries ih =>
    rw [List.foldl_cons, ih, hwords, List.flatMap_cons, List.flatMap_append, List.append_assoc]

theorem located_snoc (cfg : MergeSetup) (records : List Record) (r : Record) :
    located cfg (records ++ [r]) = located cfg records ++
      if cfg.host.fileExists (r.file cfg) then r.words.map fun p => (⟨r.file cfg, p.1⟩, p.2)
      else [] := by
  rw [located, List.flatMap_append, List.flatMap_singleton]
  rfl

theorem mem_located {p : LineRef × U64} : p ∈ located cfg records ↔
    ∃ r ∈ records, cfg.host.fileExists (r.file cfg) = true ∧ r.file cfg = p.1.file ∧
      (p.1.lineNr, p.2) ∈ r.words := by
  rw [located, List.mem_flatMap]
  refine exists_congr fun r => and_congr_right fun _ => ?_
  split
  next hex =>
    rw [List.mem_map]
    constructor
    · rintro ⟨w, hw, rfl⟩
      exact ⟨hex, rfl, hw⟩
    · rintro ⟨-, hfile, hw⟩
      exact ⟨_, hw, by rw [hfile]⟩
  next hex => simp [hex]

/-- Only the records that there are matter. -/
theorem mem_located_congr {read : List Record} (h : ∀ r, r ∈ read ↔ r ∈ records)
    (p : LineRef × U64) : p ∈ located cfg read ↔ p ∈ located cfg records := by
  rw [mem_located, mem_located]
  exact exists_congr fun r => and_congr_left fun _ => h r

/-- One record of a file as it is now. -/
theorem reported_parseFileData (hparsed : MergeParser.Parsed cfg records s)
    (hfresh : cfg.host.fileExists (r.file cfg) = true → r.isFresh cfg = true)
    (hstep : s.parseFileData cfg r = some t) :
    t.reported = s.reported ++
      (if cfg.host.fileExists (r.file cfg) then r.words.map fun p =>
        ((⟨r.file cfg, p.1⟩ : LineRef), p.2) else []).flatMap wordCalls := by
  have hentries : ∀ u : MergeParser, (u.parseEntries (r.file cfg) r.entries).reported =
      u.reported ++
        (r.words.map fun p => ((⟨r.file cfg, p.1⟩ : LineRef), p.2)).flatMap wordCalls := by
    intro u
    rw [reported_parseEntries, Record.words, List.map_flatMap]
    simp only [List.map_map]
    rfl
  rw [MergeParser.parseFileData] at hstep
  change (if !cfg.host.fileExists (r.file cfg) then some s else _) = some t at hstep
  cases hex : cfg.host.fileExists (r.file cfg) with
  | false =>
    rw [hex] at hstep
    obtain rfl := Option.some.inj hstep
    exact (List.append_nil _).symm
  | true =>
    rw [hex, Bool.not_true, if_neg Bool.false_ne_true] at hstep
    rw [if_pos rfl]
    cases hfile : s.files (r.file cfg) with
    | none =>
      have hfile' : s.files (cfg.mangleSourcePath r.fileName) = none := hfile
      simp only [hfile', MergeParser.openFile, Option.bind_eq_bind, Option.bind_assoc,
        Option.bind_eq_some_iff, Option.pure_def, Option.bind_some, Option.some.injEq] at hstep
      obtain ⟨empty, -, rfl⟩ := hstep
      exact hentries _
    | some file =>
      have hfile' : s.files (cfg.mangleSourcePath r.fileName) = some file := hfile
      have hsame := (hparsed.known hfile).2.mp (hfresh hex)
      simp only [hfile', hsame, ne_eq, not_true_eq_false, if_false, Option.some.injEq] at hstep
      rw [← hstep]
      exact hentries s

theorem reported_parseAll (hfresh : ∀ r ∈ records, cfg.host.fileExists (r.file cfg) = true →
    r.isFresh cfg = true) (h : MergeParser.parseAll cfg records = some s) :
    s.reported = (located cfg records).flatMap wordCalls := by
  induction records using List.reverseRecOn generalizing s with
  | nil =>
    cases h
    rfl
  | append_singleton records r ih =>
    rw [MergeParser.parseAll, List.foldlM_append, Option.bind_eq_bind, Option.bind_eq_some_iff] at h
    obtain ⟨s₀, hs₀, hstep⟩ := h
    rw [located_snoc, List.flatMap_append,
      ← ih (fun r hr => hfresh r (List.mem_append_left _ hr)) hs₀]
    exact reported_parseFileData (MergeParser.parsed_run hs₀) (hfresh r (by simp))
      (by simpa using hstep)

end Calls

/-! ### What the reporter makes of the calls -/

section Reported

variable {cfg : ReporterSetup} {ref : LineRef} {ws : List (LineRef × U64)} {a : U64}

theorem mem_addressesOf_line {evs : List Reporter.Event} {f : Text} {n : U32} {b : U64} :
    a ∈ Reporter.addressesOf cfg ref (evs ++ [.line f n b]) ↔
      a ∈ Reporter.addressesOf cfg ref evs ∨
        (cfg.runFilters ref.file = true ∧ (⟨f, n⟩ : LineRef) = ref ∧ b = a) := by
  rw [Reporter.addressesOf_snoc]
  cases hf : cfg.runFilters f with
  | false =>
    rw [Reporter.addAddressOf_filtered hf]
    refine (or_iff_left ?_).symm
    rintro ⟨htrue, rfl, -⟩
    rw [hf] at htrue
    cases htrue
  | true =>
    have hline := @Reporter.addAddressOf_line cfg ref ⟨f, n⟩ hf b (Reporter.addressesOf cfg ref evs)
    rw [hline]
    by_cases hr : ref = ⟨f, n⟩
    · subst hr
      rw [if_pos rfl]
      split
      next hb =>
        refine (or_iff_left_of_imp ?_).symm
        rintro ⟨-, -, rfl⟩
        exact hb
      next hb => simp [hf, eq_comm]
    · rw [if_neg hr]
      exact (or_iff_left fun h => hr h.2.1.symm).symm

theorem addressesOf_hit {evs : List Reporter.Event} {b hits : U64} :
    Reporter.addressesOf cfg ref (evs ++ [.hit b hits]) = Reporter.addressesOf cfg ref evs :=
  Reporter.addressesOf_snoc evs _

theorem mem_addressesOf_words : a ∈ Reporter.addressesOf cfg ref (ws.flatMap wordCalls) ↔
    cfg.runFilters ref.file = true ∧ ∃ p ∈ ws, p.1 = ref ∧ address p.2 = a := by
  induction ws using List.reverseRecOn with
  | nil => simp [Reporter.addressesOf]
  | append_singleton ws p ih =>
    have hlast : a ∈ Reporter.addressesOf cfg ref ((ws ++ [p]).flatMap wordCalls) ↔
        a ∈ Reporter.addressesOf cfg ref (ws.flatMap wordCalls) ∨
          (cfg.runFilters ref.file = true ∧ p.1 = ref ∧ address p.2 = a) := by
      rw [List.flatMap_append, List.flatMap_singleton, wordCalls]
      split
      · rw [List.append_cons, addressesOf_hit, mem_addressesOf_line]
      · rw [mem_addressesOf_line]
    rw [hlast, ih, ← and_or_left]
    simp only [List.mem_append, List.mem_singleton, or_and_right, exists_or, exists_eq_left]

/-- A hit reaches the one line that the address belongs to. -/
theorem mem_hitAddressesOf_words (hapart : Apart ws) :
    a ∈ Reporter.hitAddressesOf cfg ref (ws.flatMap wordCalls) ↔ cfg.runFilters ref.file = true ∧
      ∃ p ∈ ws, p.1 = ref ∧ p.2 &&& hitBit ≠ 0 ∧ address p.2 = a := by
  induction ws using List.reverseRecOn with
  | nil => simp [Reporter.hitAddressesOf]
  | append_singleton ws p ih =>
    have ih := ih fun p hp q hq =>
      hapart p (List.mem_append_left _ hp) q (List.mem_append_left _ hq)
    have hline : Reporter.hitAddressesOf cfg ref (ws.flatMap wordCalls ++
        [.line p.1.file p.1.lineNr (address p.2)]) =
          Reporter.hitAddressesOf cfg ref (ws.flatMap wordCalls) :=
      Reporter.hitAddressesOf_snoc fun a hits h => by cases h
    have hlast : a ∈ Reporter.hitAddressesOf cfg ref ((ws ++ [p]).flatMap wordCalls) ↔
        a ∈ Reporter.hitAddressesOf cfg ref (ws.flatMap wordCalls) ∨
          (cfg.runFilters ref.file = true ∧ p.1 = ref ∧ p.2 &&& hitBit ≠ 0 ∧ address p.2 = a) := by
      rw [List.flatMap_append, List.flatMap_singleton, wordCalls]
      split
      next hhit =>
        rw [List.append_cons, Reporter.mem_hitAddressesOf_hit, hline, mem_addressesOf_line,
          mem_addressesOf_words]
        refine or_congr_right ⟨?_, fun h => ?_⟩
        · -- an address that some earlier word has given to the line is that of this word, too
          rintro ⟨rfl, ⟨hf, q, hq, rfl, hqa⟩ | ⟨hf, href, -⟩⟩
          · exact ⟨hf, hapart p (by simp) q (by simp [hq]) hqa.symm, hhit, rfl⟩
          · exact ⟨hf, href, hhit, rfl⟩
        · exact ⟨h.2.2.2.symm, Or.inr ⟨h.1, h.2.1, rfl⟩⟩
      next hhit =>
        rw [hline]
        exact (or_iff_left fun h => hhit h.2.2.1).symm
    rw [hlast, ih, ← and_or_left]
    simp only [List.mem_append, List.mem_singleton, or_and_right, exists_or, exists_eq_left]

theorem line_mem_words {f : Text} {n : U32} {b : U64} :
    .line f n b ∈ ws.flatMap wordCalls ↔ ∃ p ∈ ws, p.1 = ⟨f, n⟩ ∧ address p.2 = b := by
  rw [List.mem_flatMap]
  refine exists_congr fun p => and_congr_right fun _ => ?_
  have hmark : Reporter.Event.line f n b ∉
      if p.2 &&& hitBit ≠ 0 then [Reporter.Event.hit (address p.2) 1] else [] := by
    split <;> simp
  rw [wordCalls, List.mem_cons, or_iff_left hmark, Reporter.Event.line.injEq]
  obtain ⟨⟨g, m⟩, w⟩ := p
  simp only [LineRef.mk.injEq, eq_comm, and_assoc]

theorem file_notMem_words : Reporter.Event.file ∉ ws.flatMap wordCalls := by
  intro h
  obtain ⟨p, -, hp⟩ := List.mem_flatMap.mp h
  rw [wordCalls] at hp
  split at hp <;> simp at hp

end Reported

/-! ### The reports of the merge mode -/

section Main

variable {cfg : ReporterSetup} {mangle : Text → Text} {stored read : List Record}

theorem mem_addressesAt {mcfg : MergeSetup} {ref : LineRef} {a : U64} :
    a ∈ addressesAt mcfg stored ref ↔
      ∃ p ∈ located mcfg stored, p.1 = ref ∧ address p.2 = a := by
  simp [addressesAt, and_assoc]

theorem mem_hitsAt {mcfg : MergeSetup} {ref : LineRef} {a : U64} : a ∈ hitsAt mcfg stored ref ↔
    ∃ p ∈ located mcfg stored, p.1 = ref ∧ p.2 &&& hitBit ≠ 0 ∧ address p.2 = a := by
  simp [hitsAt, and_assoc]

/-- The same records in another order, or some of them several times. -/
theorem Mergeable.congr (h : Mergeable cfg mangle stored) (hread : ∀ r, r ∈ read ↔ r ∈ stored) :
    Mergeable cfg mangle read := by
  have hmem := @mem_located_congr (cfg.mergeParser mangle) _ _ hread
  exact
    { readable := fun r hr => h.readable r ((hread r).mp hr)
      fresh := fun r hr => h.fresh r ((hread r).mp hr)
      apart := fun p hp q hq => h.apart p ((hmem p).mp hp) q ((hmem q).mp hq)
      numbers := fun p hp q hq => h.numbers p ((hmem p).mp hp) q ((hmem q).mp hq)
      admits := fun p hp => h.admits p ((hmem p).mp hp) }

/-- A merge of records that fit. -/
theorem Mergeable.run (h : Mergeable cfg mangle read) : ∃ parser reporter,
    run cfg mangle read = some (parser, reporter) ∧ Reporter.CompiledState cfg.mergeModeReporter
      ((located (cfg.mergeParser mangle) read).flatMap wordCalls) reporter := by
  have hsome : (MergeParser.parseAll (cfg.mergeParser mangle) read).isSome :=
    MergeParser.parseAll_isSome.mpr h.readable
  obtain ⟨parser, hparser⟩ := Option.isSome_iff_exists.mp hsome
  have hreported := reported_parseAll h.fresh hparser
  obtain ⟨reporter, hrun, hstate⟩ := @Reporter.compiledState_run cfg.mergeModeReporter
    ((located (cfg.mergeParser mangle) read).flatMap wordCalls) rfl
    (fun f n g m a hf hg hid => by
      obtain ⟨p, hp, hpf, -⟩ := line_mem_words.mp hf
      obtain ⟨q, hq, hqg, -⟩ := line_mem_words.mp hg
      have hfiles := h.numbers p hp q hq (by rw [hpf, hqg]; exact hid)
      rwa [hpf, hqg] at hfiles)
    file_notMem_words
    (fun ev hev => by
      cases ev with
      | line f n b =>
        obtain ⟨p, hp, hpf, rfl⟩ := line_mem_words.mp hev
        have hadmits := h.admits p hp
        rwa [hpf] at hadmits
      | _ => trivial)
  refine ⟨parser, reporter, ?_, hstate⟩
  simp only [MergeMode.run, hparser, Option.bind_eq_bind, Option.bind_some, hreported, hrun]
  rfl

theorem toFinset_addressesOf (hread : ∀ r, r ∈ read ↔ r ∈ stored) (ref : LineRef) :
    (Reporter.addressesOf cfg.mergeModeReporter ref
      ((located (cfg.mergeParser mangle) read).flatMap wordCalls)).toFinset =
        if cfg.runFilters ref.file then addressesAt (cfg.mergeParser mangle) stored ref else ∅ := by
  ext a
  rw [List.mem_toFinset, mem_addressesOf_words, ReporterSetup.mergeModeReporter]
  simp only [mem_located_congr hread]
  split
  next hf => rw [mem_addressesAt, hf, eq_self, true_and]
  next hf => simp [hf]

theorem toFinset_hitAddressesOf (h : Mergeable cfg mangle read)
    (hread : ∀ r, r ∈ read ↔ r ∈ stored) (ref : LineRef) :
    (Reporter.hitAddressesOf cfg.mergeModeReporter ref
      ((located (cfg.mergeParser mangle) read).flatMap wordCalls)).toFinset =
        if cfg.runFilters ref.file then hitsAt (cfg.mergeParser mangle) stored ref else ∅ := by
  ext a
  rw [List.mem_toFinset, mem_hitAddressesOf_words h.apart, ReporterSetup.mergeModeReporter]
  simp only [mem_located_congr hread]
  split
  next hf => rw [mem_hitsAt, hf, eq_self, true_and]
  next hf => simp [hf]

/-- In whichever order and however often the stored records are read, a line is code if and only if
some record has an address in it, and its hits are the addresses that some record marks. -/
theorem reporter_iff_stored (hstored : Mergeable cfg mangle stored)
    (hread : ∀ r, r ∈ read ↔ r ∈ stored) : ∃ parser reporter,
      run cfg mangle read = some (parser, reporter) ∧ ∀ ref : LineRef,
        reporter.lineIsCode ref.file ref.lineNr =
          (cfg.runFilters ref.file && !cfg.mergeModeReporter.excluded ref &&
            decide (addressesAt (cfg.mergeParser mangle) stored ref).Nonempty) ∧
        (reporter.getLineExecutionCount cfg.mergeModeReporter ref.file ref.lineNr).hits =
          if cfg.runFilters ref.file && !cfg.mergeModeReporter.excluded ref then
            BitVec.ofNat 32 (hitsAt (cfg.mergeParser mangle) stored ref).card else 0 := by
  have h := hstored.congr hread
  obtain ⟨parser, reporter, hrun, hstate⟩ := h.run
  refine ⟨parser, reporter, hrun, fun ref => ⟨?_, ?_⟩⟩
  · have hcode : (reporter.counts ref).isEmpty = !(cfg.runFilters ref.file &&
        decide (addressesAt (cfg.mergeParser mangle) stored ref).Nonempty) := by
      have haddr := @toFinset_addressesOf cfg mangle _ _ hread ref
      rw [hstate.counts, Bool.eq_iff_iff, List.isEmpty_iff, ← List.map_eq_nil_iff,
        Reporter.map_fst_countsOf, ← List.toFinset_eq_empty_iff, haddr]
      cases cfg.runFilters ref.file <;> simp
    rw [Reporter.lineIsCode_eq hstate.wellFormed hstate.code, hcode, Bool.not_not,
      Bool.and_left_comm, Bool.and_assoc]
  · have hcard := congrArg Finset.card (toFinset_hitAddressesOf h hread ref)
    rw [List.toFinset_card_of_nodup Reporter.nodup_hitAddressesOf] at hcard
    rw [hstate.hits, hcard]
    cases cfg.mergeModeReporter.excluded ref <;> cases cfg.runFilters ref.file <;> rfl

/-- A host on which every file is empty. -/
def emptySetup : ReporterSetup :=
  { Reporter.compiledSetup with
    host := { Host.bare with fileExists := fun _ => true, readFile := fun _ => some [] } }

/-- Two runs of `/a`, each of which hits one of its lines. -/
def firstRun : Record := ⟨ascii "/a", 0, [(1, [16 ||| hitBit]), (2, [32])]⟩

def secondRun : Record := ⟨ascii "/a", 0, [(1, [16]), (2, [32 ||| hitBit])]⟩

theorem mergeable_runs : Mergeable emptySetup id [firstRun, secondRun] := by
  have hlocated : located (emptySetup.mergeParser id) [firstRun, secondRun] =
      [(⟨ascii "/a", 1⟩, 16 ||| hitBit), (⟨ascii "/a", 2⟩, 32), (⟨ascii "/a", 1⟩, 16),
        (⟨ascii "/a", 2⟩, 32 ||| hitBit)] := rfl
  refine
    { readable := fun _ _ _ => rfl
      fresh := ?_
      apart := ?_
      numbers := ?_
      admits := ?_ }
  · decide
  · rw [hlocated, Apart]
    decide
  · rw [hlocated]
    decide
  · rw [hlocated]
    have hsmall : ∀ p ∈ [((⟨ascii "/a", 1⟩ : LineRef), (16 ||| hitBit : U64)),
        (⟨ascii "/a", 2⟩, 32), (⟨ascii "/a", 1⟩, 16), (⟨ascii "/a", 2⟩, 32 ||| hitBit)],
          p.1.lineNr.toNat ≤ 2 := by decide
    intro p hp _
    have hline := hsmall p hp
    exact ⟨show p.1.lineNr.toNat + 1 < 2 ^ 32 by omega, show 0 + 1 < 2 ^ 32 by decide⟩

/-- The second of the two stops reads them again. -/
theorem reporter_iff_stored_runs : ∃ parser reporter,
    run emptySetup id [secondRun, firstRun, secondRun, firstRun] = some (parser, reporter) ∧
      reporter.lineIsCode (ascii "/a") 2 = true ∧
      (reporter.getLineExecutionCount emptySetup.mergeModeReporter (ascii "/a") 1).hits = 1 ∧
      (reporter.getLineExecutionCount emptySetup.mergeModeReporter (ascii "/a") 2).hits = 1 := by
  obtain ⟨parser, reporter, hrun, hall⟩ := @reporter_iff_stored _ _ _
    [secondRun, firstRun, secondRun, firstRun] mergeable_runs (by simp; tauto)
  exact ⟨parser, reporter, hrun, (hall ⟨ascii "/a", 2⟩).1.trans (by decide),
    (hall ⟨ascii "/a", 1⟩).2.trans (by decide), (hall ⟨ascii "/a", 2⟩).2.trans (by decide)⟩

end Main

end MergeMode

end Kcov
