import Kcov.Engines.Bash
import Kcov.Engines.LineEndings
import Kcov.Reporter.Bounds

/-! What the listeners of a script engine are told, and the counts that follow: a line is registered
when its file is parsed, and hit whenever it is executed. -/

namespace Kcov.Scripts

open Bytes Reporter Bash

/-! ### The calls of the listeners -/

/-- What the listeners are told while the engine goes from `e` to `e'`. -/
def calls (e e' : ScriptEngineBase) : List Reporter.Event :=
  (e'.onFile.drop e.onFile.length).map (fun _ => .file) ++
    (e'.onLine.drop e.onLine.length).map fun x => .line x.1 x.2.1 x.2.2

/-- The engine, and what its listeners have been told. -/
structure Told where
  engine : ScriptEngineBase
  calls : List Reporter.Event

namespace Told

variable (host : Host) (codeLines : List Text → List U32)

/-- `start` parses files before any line is executed. -/
def start (files : List Text) : Told :=
  let engine := files.foldl (ScriptEngineBase.parseFile host codeLines) .empty
  { engine, calls := Scripts.calls .empty engine }

/-- The line at `ref` is executed: its file is parsed, and a breakpoint is reported. -/
def report (t : Told) (ref : LineRef) : Told :=
  let engine := t.engine.reportFile host codeLines ref.file
  { engine
    calls := t.calls ++ Scripts.calls t.engine engine ++ [.hit (engine.address host ref) 1] }

def run (files : List Text) (trace : List LineRef) : Told :=
  trace.foldl (report host codeLines) (start host codeLines files)

theorem run_snoc (files : List Text) (trace : List LineRef) (ref : LineRef) :
    run host codeLines files (trace ++ [ref]) =
      (run host codeLines files trace).report host codeLines ref := by
  rw [run, List.foldl_append]
  rfl

end Told

/-! ### The lines that are known -/

/-- Every path names the same file as its real path. -/
structure RealPaths (host : Host) : Prop where
  idem : ∀ f, host.realPath (host.realPath f) = host.realPath f
  readFile : ∀ f, host.readFile (host.realPath f) = host.readFile f
  fileExists : ∀ f, host.fileExists (host.realPath f) = host.fileExists f

/-- The hashes tell the names apart, and the contents of different files. -/
structure HashesDiffer (host : Host) (names : List Text) : Prop where
  name : ∀ f ∈ names, ∀ g ∈ names,
    (host.stringHash f).setWidth 32 = (host.stringHash g).setWidth 32 → f = g
  contents : ∀ f ∈ names, ∀ g ∈ names,
    contentHash host f = contentHash host g → host.realPath f = host.realPath g

section Host

variable {host : Host}

theorem RealPaths.contentHash (h : RealPaths host) (f : Text) :
    contentHash host (host.realPath f) = contentHash host f := by
  rw [Reporter.contentHash, Reporter.contentHash, h.readFile]

theorem RealPaths.getLines (h : RealPaths host) (f : Text) :
    host.getLines (host.realPath f) = host.getLines f := by
  rw [Host.getLines, Host.getLines, h.readFile, h.fileExists]

theorem RealPaths.scriptAddress (h : RealPaths host) (f : Text) (n : U32) :
    scriptAddress host ⟨host.realPath f, n⟩ = scriptAddress host ⟨f, n⟩ := by
  rw [Reporter.scriptAddress, Reporter.scriptAddress, h.contentHash]

/-- The hash of the name and the line can be read off the id of a line. -/
theorem getLineId_eq_iff {f g : Text} {n m : U32} :
    getLineId host ⟨f, n⟩ = getLineId host ⟨g, m⟩ ↔
      (host.stringHash f).setWidth 32 = (host.stringHash g).setWidth 32 ∧ n = m := by
  have hmask : ∀ x : U64, x &&& 0xffffffff = (x.setWidth 32).setWidth 64 := by
    intro x
    apply BitVec.eq_of_toNat_eq
    rw [BitVec.toNat_and, BitVec.toNat_setWidth, BitVec.toNat_setWidth]
    have hmod := Nat.and_two_pow_sub_one_eq_mod x.toNat 32
    have hlt : x.toNat % 2 ^ 32 < 2 ^ 64 := by omega
    rw [Nat.mod_eq_of_lt hlt]
    exact hmod
  have hid : ∀ f (n : U32), getLineId host ⟨f, n⟩ =
      ((host.stringHash f).setWidth 32).setWidth 64 ||| (n.setWidth 64 <<< 32) := by
    intro f n
    rw [← hmask]
    rfl
  rw [hid, hid]
  exact addressParts

end Host

/-- The engine knows the lines of `known`, and has told its listeners about them. -/
structure Knows (host : Host) (names : List Text) (known : Text → U32 → Prop)
    (e : ScriptEngineBase) : Prop where
  lookup : ∀ f ∈ names, ∀ n a, e.lineIdToAddress.lookup (getLineId host ⟨f, n⟩) = some a ↔
    known f n ∧ a = scriptAddress host ⟨f, n⟩
  onLine : ∀ x, x ∈ e.onLine ↔
    ∃ f ∈ names, ∃ n, known f n ∧ x = (host.realPath f, n, scriptAddress host ⟨f, n⟩)

section Knows

variable {host : Host} {codeLines : List Text → List U32} {names : List Text}
  {known : Text → U32 → Prop} {e : ScriptEngineBase} {f : Text}

theorem Knows.congr (h : Knows host names known e) {known' : Text → U32 → Prop}
    (hknown : ∀ g ∈ names, ∀ n, known g n ↔ known' g n) : Knows host names known' e := by
  refine ⟨fun g hg n a => ?_, fun x => (h.onLine x).trans ?_⟩
  · rw [h.lookup g hg, hknown g hg]
  · refine exists_congr fun g => and_congr_right fun hg => exists_congr fun n => ?_
    rw [hknown g hg]

theorem Knows.fileLineFound (hdiffer : HashesDiffer host names) (h : Knows host names known e)
    (hf : f ∈ names) (n : U32) :
    Knows host names (fun g m => known g m ∨ (g = f ∧ m = n)) (e.fileLineFound host f n) := by
  rw [ScriptEngineBase.fileLineFound]
  by_cases hsome : (e.lineIdToAddress.lookup (getLineId host ⟨f, n⟩)).isSome
  · obtain ⟨a, ha⟩ := Option.isSome_iff_exists.mp hsome
    have hknown := ((h.lookup f hf n a).mp ha).1
    simp only [hsome, if_true]
    refine h.congr fun g _ m => (or_iff_left_of_imp ?_).symm
    rintro ⟨rfl, rfl⟩
    exact hknown
  · simp only [hsome, Bool.false_eq_true, if_false]
    refine ⟨fun g hg m a => ?_, fun x => ?_⟩
    · by_cases hid : getLineId host ⟨g, m⟩ = getLineId host ⟨f, n⟩
      · obtain ⟨hname, rfl⟩ := getLineId_eq_iff.mp hid
        obtain rfl := hdiffer.name g hg f hf hname
        simp [eq_comm]
      · have hne : ¬(g = f ∧ m = n) := by
          rintro ⟨rfl, rfl⟩
          exact hid rfl
        rw [List.lookup_cons, beq_false_of_ne hid]
        simp only [hne, or_false]
        exact h.lookup g hg m a
    · rw [List.mem_append, List.mem_singleton, h.onLine]
      constructor
      · rintro (⟨g, hg, m, hm, rfl⟩ | rfl)
        · exact ⟨g, hg, m, Or.inl hm, rfl⟩
        · exact ⟨f, hf, n, Or.inr ⟨rfl, rfl⟩, rfl⟩
      · rintro ⟨g, hg, m, hm | ⟨rfl, rfl⟩, rfl⟩
        · exact Or.inl ⟨g, hg, m, hm, rfl⟩
        · exact Or.inr rfl

/-- Parsing a file makes its lines known. -/
theorem Knows.parseFile (hdiffer : HashesDiffer host names) (h : Knows host names known e)
    (hf : f ∈ names) :
    Knows host names (fun g m => known g m ∨ (g = f ∧ m ∈ codeLines (host.getLines f)))
      (e.parseFile host codeLines f) := by
  rw [ScriptEngineBase.parseFile]
  generalize codeLines (host.getLines f) = ns
  induction ns generalizing e known with
  | nil => exact h.congr fun g _ m => by simp
  | cons n ns ih =>
    rw [List.foldl_cons]
    refine (ih (h.fileLineFound hdiffer hf n)).congr fun g _ m => ?_
    rw [List.mem_cons, or_assoc, and_or_left]

theorem onLine_parseFile (e : ScriptEngineBase) (f : Text) :
    e.onLine <+: (e.parseFile host codeLines f).onLine ∧
      (e.parseFile host codeLines f).onFile = e.onFile ∧
      (e.parseFile host codeLines f).reportedFiles = e.reportedFiles := by
  rw [ScriptEngineBase.parseFile]
  induction codeLines (host.getLines f) generalizing e with
  | nil => exact ⟨List.prefix_refl _, rfl, rfl⟩
  | cons n ns ih =>
    have hone : e.onLine <+: (e.fileLineFound host f n).onLine ∧
        (e.fileLineFound host f n).onFile = e.onFile ∧
        (e.fileLineFound host f n).reportedFiles = e.reportedFiles := by
      rw [ScriptEngineBase.fileLineFound]
      split
      · exact ⟨List.prefix_refl _, rfl, rfl⟩
      · exact ⟨List.prefix_append _ _, rfl, rfl⟩
    obtain ⟨hline, hfile, hreported⟩ := ih (e.fileLineFound host f n)
    exact ⟨hone.1.trans hline, hfile.trans hone.2.1, hreported.trans hone.2.2⟩

theorem onLine_reportFile (e : ScriptEngineBase) (f : Text) :
    e.onLine <+: (e.reportFile host codeLines f).onLine := by
  rw [ScriptEngineBase.reportFile]
  split
  · exact List.prefix_refl _
  · exact (onLine_parseFile { e with
      reportedFiles := e.reportedFiles ++ [f], onFile := e.onFile ++ [f] } f).1

theorem mem_calls {e' : ScriptEngineBase} (h : e.onLine <+: e'.onLine) (f : Text) (n : U32)
    (a : U64) : (f, n, a) ∈ e'.onLine ↔ (f, n, a) ∈ e.onLine ∨ .line f n a ∈ calls e e' := by
  obtain ⟨new, hnew⟩ := h
  rw [calls, ← hnew, List.drop_left]
  simp

end Knows

/-! ### The hits -/

/-- The executed line is the one at `ref`. -/
def isAbout (host : Host) (ref executed : LineRef) : Bool :=
  host.realPath executed.file = ref.file && executed.lineNr = ref.lineNr

section Hits

variable {cfg : ReporterSetup} {codeLines : List Text → List U32} {names files : List Text}
  {trace : List LineRef} {t : Told}

/-- Calls between which no hit is reported. -/
theorem hitsSince_append {ref : LineRef} {addr : U64} (evs : List Event) {new : List Event}
    (hnew : ∀ ev ∈ new, hitsAt addr ev = 0) :
    hitsSince cfg ref addr false (evs ++ new) = hitsSince cfg ref addr false evs := by
  induction new using List.reverseRecOn with
  | nil => rw [List.append_nil]
  | append_singleton new ev ih =>
    rw [← List.append_assoc, hitsSince_snoc, ih fun ev hev => hnew ev (List.mem_append_left _ hev),
      hnew ev (by simp), ite_self, Nat.add_zero]

theorem hitsAt_calls {e e' : ScriptEngineBase} (addr : U64) :
    ∀ ev ∈ calls e e', hitsAt addr ev = 0 := by
  intro ev hev
  rw [calls, List.mem_append, List.mem_map, List.mem_map] at hev
  rcases hev with ⟨x, -, rfl⟩ | ⟨x, -, rfl⟩ <;> rfl

/-- After the lines of `trace`: the files that have been parsed are known, and the hits of a line
are the times that it has been executed. -/
structure Tells (cfg : ReporterSetup) (codeLines : List Text → List U32) (names files : List Text)
    (trace : List LineRef) (t : Told) : Prop where
  knows : Knows cfg.host names (fun f n => (f ∈ files ∨ f ∈ trace.map LineRef.file) ∧
    n ∈ codeLines (cfg.host.getLines f)) t.engine
  reported : ∀ f ∈ t.engine.reportedFiles, f ∈ trace.map LineRef.file
  lines : ∀ f n a, .line f n a ∈ t.calls ↔ (f, n, a) ∈ t.engine.onLine
  hits : ∀ f ∈ names, ∀ n ∈ codeLines (cfg.host.getLines f), n ≠ 0 →
    cfg.runFilters (cfg.host.realPath f) = true →
      hitsSince cfg ⟨cfg.host.realPath f, n⟩ (scriptAddress cfg.host ⟨f, n⟩) false t.calls =
        trace.countP (isAbout cfg.host ⟨cfg.host.realPath f, n⟩)

theorem tells_start (hdiffer : HashesDiffer cfg.host names) (hfiles : ∀ f ∈ files, f ∈ names) :
    Tells cfg codeLines names files [] (Told.start cfg.host codeLines files) := by
  have hparsed : Knows cfg.host names (fun f n => f ∈ files ∧ n ∈ codeLines (cfg.host.getLines f))
      (files.foldl (ScriptEngineBase.parseFile cfg.host codeLines) .empty) ∧
      (files.foldl (ScriptEngineBase.parseFile cfg.host codeLines) .empty).reportedFiles = [] := by
    induction files using List.reverseRecOn with
    | nil =>
      refine ⟨⟨fun f _ n a => ?_, fun x => ?_⟩, rfl⟩
      · simp [ScriptEngineBase.empty]
      · simp [ScriptEngineBase.empty]
    | append_singleton files f ih =>
      rw [List.foldl_append, List.foldl_cons, List.foldl_nil]
      obtain ⟨hknows, hreported⟩ := ih fun g hg => hfiles g (List.mem_append_left _ hg)
      refine ⟨(hknows.parseFile hdiffer (hfiles f (by simp))).congr fun g _ n => ?_,
        (onLine_parseFile _ f).2.2.trans hreported⟩
      rw [List.mem_append, List.mem_singleton, or_and_right]
      refine or_congr_right (and_congr_right ?_)
      rintro rfl
      rfl
  refine ⟨hparsed.1.congr fun f _ n => by simp, fun f hf => ?_, fun f n a => ?_, fun f _ n _ _ _ => ?_⟩
  · rw [Told.start, hparsed.2] at hf
    cases hf
  · refine ((mem_calls (e := .empty) (List.nil_prefix) f n a).trans ?_).symm
    simp [ScriptEngineBase.empty, Told.start]
  · exact hitsSince_append [] (hitsAt_calls _)

theorem mem_files_snoc {f : Text} {ref : LineRef} : f ∈ (trace ++ [ref]).map LineRef.file ↔
    f ∈ trace.map LineRef.file ∨ f = ref.file := by
  rw [List.map_append, List.mem_append, List.map_singleton, List.mem_singleton]

/-- The file of an executed line is known. -/
theorem Tells.knows_report (hdiffer : HashesDiffer cfg.host names)
    (h : Tells cfg codeLines names files trace t) {ref : LineRef} (href : ref.file ∈ names) :
    Knows cfg.host names (fun f n => (f ∈ files ∨ f ∈ (trace ++ [ref]).map LineRef.file) ∧
      n ∈ codeLines (cfg.host.getLines f)) (t.engine.reportFile cfg.host codeLines ref.file) ∧
      ∀ f ∈ (t.engine.reportFile cfg.host codeLines ref.file).reportedFiles,
        f ∈ (trace ++ [ref]).map LineRef.file := by
  simp only [mem_files_snoc]
  rw [ScriptEngineBase.reportFile]
  split
  next hold =>
    have hmem := h.reported ref.file (List.contains_iff_mem.mp hold)
    refine ⟨h.knows.congr fun f _ n => and_congr_left fun _ => or_congr_right ?_, fun f hf => ?_⟩
    · exact (or_iff_left_of_imp fun heq => heq ▸ hmem).symm
    · exact Or.inl (h.reported f hf)
  next =>
    let e : ScriptEngineBase :=
      { t.engine with
        reportedFiles := t.engine.reportedFiles ++ [ref.file]
        onFile := t.engine.onFile ++ [ref.file] }
    have hknows : Knows cfg.host names _ e := ⟨h.knows.lookup, h.knows.onLine⟩
    refine ⟨(hknows.parseFile hdiffer href).congr fun f _ n => ?_, fun f hf => ?_⟩
    · rw [← or_assoc, or_and_right (a := f ∈ files ∨ _)]
      refine or_congr_right (and_congr_right ?_)
      rintro rfl
      rfl
    · rw [(onLine_parseFile e ref.file).2.2, List.mem_append, List.mem_singleton] at hf
      exact hf.imp_left (h.reported f)

/-- The line at `ref` is executed. -/
theorem Tells.report (hpaths : RealPaths cfg.host) (hdiffer : HashesDiffer cfg.host names)
    (h : Tells cfg codeLines names files trace t) {ref : LineRef} (href : ref.file ∈ names) :
    Tells cfg codeLines names files (trace ++ [ref]) (t.report cfg.host codeLines ref) := by
  obtain ⟨hknows, hreported⟩ := h.knows_report hdiffer href
  let engine := t.engine.reportFile cfg.host codeLines ref.file
  have hlines : ∀ f n a, Event.line f n a ∈ t.calls ++ calls t.engine engine ↔
      (f, n, a) ∈ engine.onLine := by
    intro f n a
    rw [List.mem_append, h.lines, mem_calls (onLine_reportFile t.engine ref.file)]
  refine ⟨hknows, hreported, fun f n a => ?_, fun f hf n hn hzero hfilter => ?_⟩
  · refine Iff.trans ?_ (hlines f n a)
    simp [Told.report, engine]
  have haddr : ∀ a, engine.lineIdToAddress.lookup (getLineId cfg.host ref) = some a ↔
      ref.lineNr ∈ codeLines (cfg.host.getLines ref.file) ∧ a = scriptAddress cfg.host ref := by
    intro a
    refine (hknows.lookup ref.file href ref.lineNr a).trans (and_congr_left fun _ => ?_)
    exact and_iff_right (Or.inr (by simp))
  rw [Told.report, hitsSince_snoc, hitsSince_append _ (hitsAt_calls _),
    h.hits f hf n hn hzero hfilter, List.countP_append, List.countP_singleton, Bool.false_or]
  congr 1
  cases habout : isAbout cfg.host ⟨cfg.host.realPath f, n⟩ ref with
  | true =>
    -- the line that is executed is registered, and its address is found
    rw [isAbout, Bool.and_eq_true, decide_eq_true_iff, decide_eq_true_iff] at habout
    obtain ⟨hfile, rfl⟩ := habout
    dsimp only at hfile
    have hcode : ref.lineNr ∈ codeLines (cfg.host.getLines ref.file) := by
      rw [← hpaths.getLines ref.file, hfile, hpaths.getLines]
      exact hn
    have hscript : scriptAddress cfg.host ref = scriptAddress cfg.host ⟨f, ref.lineNr⟩ := by
      rw [← hpaths.scriptAddress f, ← hfile, hpaths.scriptAddress]
    have hfound : engine.address cfg.host ref = scriptAddress cfg.host ⟨f, ref.lineNr⟩ := by
      rw [ScriptEngineBase.address, (haddr _).mpr ⟨hcode, rfl⟩, hscript]
      rfl
    have hreg : (t.calls ++ calls t.engine engine).any
        (registers cfg ⟨cfg.host.realPath f, ref.lineNr⟩) = true := by
      refine any_registers.mpr ⟨hfilter, scriptAddress cfg.host ref, (hlines _ _ _).mpr ?_⟩
      refine (hknows.onLine _).mpr ⟨ref.file, href, ref.lineNr, ⟨Or.inr (by simp), hcode⟩, ?_⟩
      rw [hfile]
    rw [hreg, if_pos rfl, if_pos rfl, hitsAt, hfound, if_pos rfl]
    rfl
  | false =>
    rw [if_neg Bool.false_ne_true, hitsAt]
    refine ite_eq_right_iff.mpr fun _ => if_neg fun heq => ?_
    cases hlook : engine.lineIdToAddress.lookup (getLineId cfg.host ref) with
    | none =>
      -- the address 0 is not that of a line
      rw [ScriptEngineBase.address, hlook, Option.getD_none] at heq
      have hparts : (0 : U32).setWidth 64 ||| ((0 : U32).setWidth 64 <<< 32) =
          scriptAddress cfg.host ⟨f, n⟩ := heq
      exact hzero (addressParts.mp hparts).2.symm
    | some a =>
      obtain ⟨-, rfl⟩ := (haddr a).mp hlook
      rw [ScriptEngineBase.address, hlook, Option.getD_some, scriptAddress, scriptAddress,
        addressParts] at heq
      have hfile := hdiffer.contents ref.file href f hf heq.1
      simp [isAbout, hfile, heq.2] at habout

theorem tells_run (codeLines : List Text → List U32) (hpaths : RealPaths cfg.host) (hdiffer : HashesDiffer cfg.host names)
    (hfiles : ∀ f ∈ files, f ∈ names) (htrace : ∀ ref ∈ trace, ref.file ∈ names) :
    Tells cfg codeLines names files trace (Told.run cfg.host codeLines files trace) := by
  induction trace using List.reverseRecOn with
  | nil => exact tells_start hdiffer hfiles
  | append_singleton trace ref ih =>
    rw [Told.run_snoc]
    have hbefore := ih fun r hr => htrace r (List.mem_append_left _ hr)
    exact hbefore.report hpaths hdiffer (htrace ref (by simp))

/-- A run without a database that stays inside the vectors. -/
theorem run_isSome (hdb : cfg.database = none) {evs : List Event}
    (hadmits : ∀ ev ∈ evs, Admits cfg ev) : ∃ s, Reporter.run cfg evs = some s := by
  induction evs using List.reverseRecOn with
  | nil => exact ⟨_, rfl⟩
  | append_singleton evs ev ih =>
    obtain ⟨s, hs⟩ := ih fun ev hev => hadmits ev (List.mem_append_left _ hev)
    rw [Reporter.run_snoc, hs, Option.bind_some]
    cases ev with
    | file => exact ⟨_, onFile_none hdb s⟩
    | line f n a =>
      obtain ⟨t, ht, -⟩ := onLine_isSome (run_sized hs).1 (hadmits (.line f n a) (by simp))
      exact ⟨t, ht⟩
    | hit a hits => exact ⟨_, rfl⟩

/-- The reporter of a script without an earlier database. -/
structure IsScript (cfg : ReporterSetup) : Prop where
  hashFilename : cfg.hashFilename = false
  maxPossibleHits : cfg.maxPossibleHits = .unlimited
  database : cfg.database = none

/-- The numbers of the lines that a parser takes for code lie in the file. -/
def InFile (codeLines : List Text → List U32) (lines : List Text) : Prop :=
  ∀ n ∈ codeLines lines, n ≠ 0 ∧ n.toNat ≤ lines.length

/-- A parser that counts the lines in an `unsigned int`. -/
theorem inFile_notes {found : List Text → List Nat}
    (h : Runs.Notes fun file : List SavedLine => found (file.map SavedLine.text)) {lines : List Text}
    (hlen : lines.length + 1 < 2 ^ 32) :
    InFile (fun lines => (found lines).map (BitVec.ofNat 32)) lines := by
  have hfile : (lines.map fun line => SavedLine.mk line false).map SavedLine.text = lines := by
    rw [List.map_map]
    exact List.map_id lines
  have hpos := h.pos (lines.map fun line => ⟨line, false⟩)
  have hle := h.le (lines.map fun line => ⟨line, false⟩)
  simp only [hfile, List.length_map] at hpos hle
  intro n hn
  obtain ⟨m, hm, rfl⟩ := List.mem_map.mp hn
  have hmpos := hpos m hm
  have hmle := hle m hm
  have hnat : (BitVec.ofNat 32 m).toNat = m := Nat.mod_eq_of_lt (by omega)
  refine ⟨fun hzero => ?_, by omega⟩
  rw [hzero] at hnat
  exact hmpos.ne hnat

/-- What the engine has told the reporter makes it count, for each line of code that is included, the
times that it has been executed. -/
theorem Tells.counts (hscript : IsScript cfg) (hpaths : RealPaths cfg.host)
    (hdiffer : HashesDiffer cfg.host names) (htrace : ∀ ref ∈ trace, ref.file ∈ names)
    (hopens : ∀ f ∈ names, Opens cfg (cfg.host.realPath f))
    (hin : ∀ f ∈ names, InFile codeLines (cfg.host.getLines f))
    (h : Tells cfg codeLines names files trace t) :
    ∃ s, Reporter.run cfg t.calls = some s ∧ ∀ ref,
      (s.getLineExecutionCount cfg ref.file ref.lineNr).hits =
        if !cfg.excluded ref && cfg.runFilters ref.file &&
            (codeLines (cfg.host.getLines ref.file)).contains ref.lineNr then
          BitVec.ofNat 32 (trace.countP (isAbout cfg.host ref))
        else 0 := by
  have hline : ∀ g n a, .line g n a ∈ t.calls → ∃ f ∈ names,
      (f ∈ files ∨ f ∈ trace.map LineRef.file) ∧ n ∈ codeLines (cfg.host.getLines f) ∧
        g = cfg.host.realPath f ∧ a = scriptAddress cfg.host ⟨f, n⟩ := by
    intro g n a hmem
    obtain ⟨f, hf, m, ⟨hparsed, hm⟩, heq⟩ := (h.knows.onLine _).mp ((h.lines g n a).mp hmem)
    obtain ⟨rfl, rfl, rfl⟩ : g = cfg.host.realPath f ∧ n = m ∧ a = scriptAddress cfg.host ⟨f, m⟩ := by
      simpa using heq
    exact ⟨f, hf, hparsed, hm, rfl, rfl⟩
  have hadmits : ∀ ev ∈ t.calls, Admits cfg ev := by
    intro ev hev
    cases ev with
    | line g n a =>
      obtain ⟨f, hf, -, hn, rfl, -⟩ := hline g n a hev
      have hopen := hopens f hf
      refine fun _ => ⟨?_, hopen⟩
      have hle := (hin f hf n hn).2
      rw [Opens, hpaths.getLines] at hopen
      rw [Fits]
      omega
    | _ => trivial
  have hscripts : ∀ ev ∈ t.calls, ScriptLine cfg ev := by
    intro ev hev
    cases ev with
    | line g n a =>
      obtain ⟨f, -, -, -, rfl, rfl⟩ := hline g n a hev
      exact (hpaths.scriptAddress f n).symm
    | _ => trivial
  obtain ⟨s, hrun⟩ := run_isSome hscript.database hadmits
  have hstate := scriptState_run hscript.hashFilename hscript.maxPossibleHits hscript.database
    hscripts hrun
  refine ⟨s, hrun, fun ref => ?_⟩
  rw [hits_eq hstate.wellFormed]
  cases hex : cfg.excluded ref with
  | true => rfl
  | false =>
    rw [Bool.not_false, Bool.true_and, if_neg Bool.false_ne_true]
    cases hreg : t.calls.any (registers cfg ref) with
    | false =>
      rw [hstate.counts_unknown hreg]
      refine (ite_eq_right_iff.mpr fun hcode => ?_).symm
      rw [Bool.and_eq_true, List.contains_iff_mem] at hcode
      have hnone : trace.countP (isAbout cfg.host ref) = 0 := by
        rw [List.countP_eq_zero]
        intro x hx habout
        simp only [isAbout, Bool.and_eq_true, decide_eq_true_iff] at habout
        have hmem : ref.lineNr ∈ codeLines (cfg.host.getLines x.file) := by
          rw [← hpaths.getLines, habout.1]
          exact hcode.2
        have hfound := (h.knows.onLine _).mpr ⟨x.file, htrace x hx, ref.lineNr,
          ⟨Or.inr (List.mem_map_of_mem hx), hmem⟩, rfl⟩
        rw [habout.1, ← h.lines] at hfound
        rw [any_registers.mpr ⟨hcode.1, _, hfound⟩] at hreg
        cases hreg
      rw [hnone]
      rfl
    | true =>
      obtain ⟨hfilter, a, hmem⟩ := any_registers.mp hreg
      obtain ⟨f, hf, -, hn, hfile, -⟩ := hline _ _ _ hmem
      obtain ⟨name, n⟩ := ref
      dsimp only at hfile hn hfilter
      subst hfile
      -- no other line has the address of the line
      have hfirst : firstLine cfg t.calls (scriptAddress cfg.host ⟨cfg.host.realPath f, n⟩) =
          some ⟨cfg.host.realPath f, n⟩ := by
        obtain ⟨⟨g, m⟩, hr⟩ := Option.isSome_iff_exists.mp (firstLine_isSome hscripts hreg)
        obtain ⟨f', hf', -, -, hfile', haddr⟩ := hline _ _ _ (firstLine_eq_some hr).1
        rw [hpaths.scriptAddress, scriptAddress, scriptAddress, addressParts] at haddr
        have hsame := hdiffer.contents f hf f' hf' haddr.1
        rw [hr, Option.some.injEq, LineRef.mk.injEq]
        exact ⟨hfile'.trans hsame.symm, haddr.2.symm⟩
      obtain ⟨line, hline?, haddrs⟩ := hstate.known _ hreg
      have hcount := h.hits f hf n hn (hin f hf n hn).1 hfilter
      rw [hpaths.scriptAddress] at hfirst haddrs
      rw [hfirst, if_pos rfl, hcount] at haddrs
      rw [counts_eq hline?, haddrs, hpaths.getLines, hfilter, Bool.true_and,
        if_pos (List.contains_iff_mem.mpr hn)]
      exact BitVec.add_zero _

end Hits

end Kcov.Scripts
