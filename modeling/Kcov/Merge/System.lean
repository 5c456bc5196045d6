import Kcov.Merge.Parser
import Kcov.Reporter.Compiled

/-! A run of one program: its reporter, the merge parser that listens to it, and the merge reporter
that listens to the merge parser. -/

namespace Kcov

open Bytes

namespace ReporterSetup

/-- The merge parser has the filter of the reporter. -/
def mergeParser (cfg : ReporterSetup) (mangleSourcePath : Text → Text) : MergeSetup :=
  { host := cfg.host, runFilters := cfg.runFilters, mangleSourcePath }

/-- The merge reporter has the basic filter, and the merge parser as its parser. -/
def mergeReporter (cfg : ReporterSetup) : ReporterSetup :=
  { cfg with
    runFilters := fun _ => true
    hashFilename := false
    maxPossibleHits := .single
    checksum := 0 }

end ReporterSetup

structure System where
  main : Reporter
  parser : MergeParser
  merged : Reporter

namespace System

def create (cfg : ReporterSetup) : System :=
  { main := .create cfg, parser := .create, merged := .create cfg.mergeReporter }

/-- A call of the reporter, with the calls of the listeners that follow from it. -/
def step (cfg : ReporterSetup) (mangleSourcePath : Text → Text) (sys : System)
    (ev : Reporter.Event) : Option System := do
  let main ← sys.main.step cfg ev
  let parser ← (main.notified.drop sys.main.notified.length).foldlM
    (MergeParser.onNotification (cfg.mergeParser mangleSourcePath)) sys.parser
  let merged ← (parser.reported.drop sys.parser.reported.length).foldlM
    (Reporter.step cfg.mergeReporter) sys.merged
  return { main, parser, merged }

def run (cfg : ReporterSetup) (mangleSourcePath : Text → Text) (evs : List Reporter.Event) :
    Option System :=
  evs.foldlM (step cfg mangleSourcePath) (create cfg)

/-! ### Addresses in the merge parser -/

/-- The address of a line in the merge parser. -/
def addrHash (cfg : ReporterSetup) (r : LineRef) : U64 :=
  hashAddress cfg.host r.file r.lineNr &&& ~~~hitBit

/-- The lines that are seen have their own numbers and their own addresses. -/
structure Distinct (cfg : ReporterSetup) (Seen : LineRef → Prop) : Prop where
  lineId : ∀ r r', Seen r → Seen r' → cfg.lineId r = cfg.lineId r' → r = r'
  addrHash : ∀ r r', Seen r → Seen r' → addrHash cfg r = addrHash cfg r' → r = r'

/-! ### The merge parser -/

/-- The maps of a merge parser that has been told about the lines `known`. -/
structure ParserFed (cfg : ReporterSetup) (Seen : LineRef → Prop) (known : LineRef → Bool)
    (p : MergeParser) : Prop where
  fileLine : ∀ r, known r = true → p.fileLineByAddress (cfg.lineId r) = some (addrHash cfg r)
  unknown : ∀ r, Seen r → known r = false → p.fileLineByAddress (cfg.lineId r) = none
  files : ∀ r, known r = true → p.filesByAddress (addrHash cfg r) = some r.file
  pending : ∀ r, Seen r → cfg.host.fileExists r.file = true → p.pendingHits (cfg.lineId r) = none
  readable : ∀ f, (p.files f).isSome → (cfg.host.readFile f).isSome

section Parser

variable {cfg : ReporterSetup} {mangle : Text → Text} {Seen : LineRef → Prop}
  {known : LineRef → Bool} {p q : MergeParser} {r : LineRef}

theorem parserFed_create : ParserFed cfg Seen (fun _ => false) .create :=
  ⟨fun _ h => by simp at h, fun _ _ _ => rfl, fun _ h => by simp at h, fun _ _ _ => rfl,
    fun _ h => by simp [MergeParser.create] at h⟩

theorem isSome_modifyFile (p : MergeParser) (f g : Text) (u : MergeFile → MergeFile) :
    ((p.modifyFile f u).files g).isSome = (p.files g).isSome := by
  rw [MergeParser.modifyFile_files]
  split
  next h => rw [h, Option.isSome_map]
  next => rfl

theorem ParserFed.onAddress_known (h : ParserFed cfg Seen known p) (hr : known r = true)
    (hits : U64) : ParserFed cfg Seen known (p.onAddress (cfg.lineId r) hits) ∧
      (p.onAddress (cfg.lineId r) hits).reported = p.reported ++ [.hit (addrHash cfg r) hits] := by
  have heq : p.onAddress (cfg.lineId r) hits = (p.modifyFile r.file fun file =>
      file.registerHits (addrHash cfg r) (hits.setWidth 32)).report (.hit (addrHash cfg r) hits) := by
    simp only [MergeParser.onAddress, h.fileLine r hr, h.files r hr]
  rw [heq]
  refine ⟨⟨h.fileLine, h.unknown, h.files, h.pending, fun f hf => h.readable f ?_⟩, rfl⟩
  rw [← isSome_modifyFile]
  exact hf

theorem ParserFed.onAddress_unknown (h : ParserFed cfg Seen known p) (hdistinct : Distinct cfg Seen)
    (hseen : Seen r) (hr : known r = false) (hex : cfg.host.fileExists r.file = false) (hits : U64) :
    ParserFed cfg Seen known (p.onAddress (cfg.lineId r) hits) ∧
      (p.onAddress (cfg.lineId r) hits).reported = p.reported := by
  have heq : p.onAddress (cfg.lineId r) hits =
      { p with pendingHits := Function.update p.pendingHits (cfg.lineId r) (some hits) } := by
    simp only [MergeParser.onAddress, h.unknown r hseen hr]
  rw [heq]
  refine ⟨⟨h.fileLine, h.unknown, h.files, fun r' hr' hex' => ?_, h.readable⟩, rfl⟩
  dsimp only
  rw [Function.update_apply, if_neg]
  · exact h.pending r' hr' hex'
  · intro hid
    rw [hdistinct.lineId r' r hr' hseen hid, hex] at hex'
    simp at hex'

theorem onLineReporter_missing (p : MergeParser) (hex : cfg.host.fileExists r.file = false)
    (id : U64) : p.onLineReporter (cfg.mergeParser mangle) r.file r.lineNr id = some p := by
  rw [MergeParser.onLineReporter, ReporterSetup.mergeParser]
  simp [hex]

/-- The call for a line of an existing file panics if and only if the file cannot be read. -/
theorem ParserFed.openFile (h : ParserFed cfg Seen known p) (f : Text) :
    (∃ q, p.openFile (cfg.mergeParser mangle) f = some q) ↔ (cfg.host.readFile f).isSome := by
  rw [MergeParser.openFile]
  cases hfile : p.files f with
  | some file => simpa using h.readable f (by rw [hfile]; rfl)
  | none =>
    simp only [MergeFile.create, ReporterSetup.mergeParser]
    cases cfg.host.readFile f <;> simp

theorem openFile_maps {mcfg : MergeSetup} {f : Text} (h : p.openFile mcfg f = some q) :
    q.fileLineByAddress = p.fileLineByAddress ∧ q.filesByAddress = p.filesByAddress ∧
      q.pendingHits = p.pendingHits ∧ q.reported = p.reported ∧
      ∀ g, (q.files g).isSome → g = f ∨ (p.files g).isSome := by
  rw [MergeParser.openFile] at h
  cases hfile : p.files f with
  | some file =>
    simp only [hfile, Option.some.injEq] at h
    subst h
    exact ⟨rfl, rfl, rfl, rfl, fun g hg => Or.inr hg⟩
  | none =>
    simp only [hfile, Option.bind_eq_bind, Option.bind_eq_some_iff, Option.pure_def,
      Option.some.injEq] at h
    obtain ⟨file, -, rfl⟩ := h
    refine ⟨rfl, rfl, rfl, rfl, fun g hg => ?_⟩
    dsimp only at hg
    rw [Function.update_apply] at hg
    split at hg
    next heq => exact Or.inl heq
    next => exact Or.inr hg

theorem ParserFed.onLineReporter (h : ParserFed cfg Seen known p) (hdistinct : Distinct cfg Seen)
    (hknown : ∀ r, known r = true → Seen r) (hseen : Seen r)
    (hfilter : cfg.runFilters r.file = true) (hex : cfg.host.fileExists r.file = true)
    (hread : (cfg.host.readFile r.file).isSome) :
    ∃ q, p.onLineReporter (cfg.mergeParser mangle) r.file r.lineNr (cfg.lineId r) = some q ∧
      ParserFed cfg Seen (fun r' => known r' || r' = r) q ∧
      q.reported = p.reported ++ [.line r.file r.lineNr (addrHash cfg r)] := by
  obtain ⟨p₁, hopen⟩ := (@ParserFed.openFile cfg mangle Seen known p h r.file).mpr hread
  obtain ⟨h1, h2, h3, h4, h5⟩ := openFile_maps hopen
  have hpending : p₁.pendingHits (cfg.lineId r) = none := by
    rw [h3]
    exact h.pending r hseen hex
  simp only [MergeParser.onLineReporter]
  rw [if_neg (by simp [ReporterSetup.mergeParser, hfilter]),
    if_neg (by simp [ReporterSetup.mergeParser, hex]), hopen]
  simp only [Option.bind_eq_bind, Option.bind_some, MergeParser.report, MergeParser.modifyFile,
    hpending, Option.pure_def, Option.some.injEq]
  refine ⟨_, rfl, ⟨fun r' hr' => ?_, fun r' hr' hnot => ?_, fun r' hr' => ?_, fun r' hr' hex' => ?_,
    fun f hf => ?_⟩, ?_⟩
  · dsimp only
    rw [Function.update_apply, h1]
    rcases Bool.or_eq_true_iff.mp hr' with hr' | hr'
    · split
      next hid => rw [hdistinct.lineId r' r (hknown r' hr') hseen hid]; rfl
      next => exact h.fileLine r' hr'
    · rw [decide_eq_true_eq.mp hr', if_pos rfl]
      rfl
  · dsimp only
    rw [Bool.or_eq_false_iff, decide_eq_false_iff_not] at hnot
    rw [Function.update_apply, if_neg, h1]
    · exact h.unknown r' hr' hnot.1
    · exact fun hid => hnot.2 (hdistinct.lineId r' r hr' hseen hid)
  · dsimp only
    rw [Function.update_apply, h2]
    rcases Bool.or_eq_true_iff.mp hr' with hr' | hr'
    · split
      next haddr => rw [hdistinct.addrHash r' r (hknown r' hr') hseen haddr]
      next => exact h.files r' hr'
    · rw [decide_eq_true_eq.mp hr']
      exact if_pos rfl
  · dsimp only
    rw [h3]
    exact h.pending r' hr' hex'
  · dsimp only at hf
    rw [Function.update_apply] at hf
    split at hf
    next hfr => rw [hfr]; exact hread
    next =>
      rcases h5 f hf with hfr | hf
      · rw [hfr]; exact hread
      · exact h.readable f hf
  · dsimp only
    rw [h4]
    rfl

end Parser

/-! ### The merge reporter -/

/-- A merge reporter that has been told about the lines `known`, of which `hit` were hit. -/
structure MergedFed (cfg : ReporterSetup) (known hit : LineRef → Bool) (m : Reporter) : Prop where
  wellFormed : m.WellFormed cfg.mergeReporter
  sized : Reporter.Sized cfg.mergeReporter m
  noPending : ∀ id, m.pendingFiles id = []
  counts : ∀ r, m.counts r =
    if known r then [(addrHash cfg r, if hit r then 1 else 0)] else []
  addrToLine : ∀ r, known r = true → m.addrToLine (addrHash cfg r) = [r]
  other : ∀ a, (∀ r, known r = true → addrHash cfg r ≠ a) → m.addrToLine a = []
  code : ∀ r line, m.line? r = some line → cfg.excluded r = false → line.addrs ≠ []

section Merged

variable {cfg : ReporterSetup} {Seen : LineRef → Prop} {known hit : LineRef → Bool}
  {m m' : Reporter} {r : LineRef}

theorem mergedFed_create : MergedFed cfg (fun _ => false) (fun _ => false)
    (.create cfg.mergeReporter) :=
  ⟨Reporter.wellFormed_create _, fun _ _ h => by simp [Reporter.sizeOf?, Reporter.create] at h,
    fun _ => rfl, fun _ => rfl, fun _ h => by simp at h, fun _ _ => rfl,
    fun _ _ h => by simp [Reporter.create, Reporter.line?] at h⟩

theorem MergedFed.line (h : MergedFed cfg known hit m) (hdistinct : Distinct cfg Seen)
    (hknown : ∀ r, known r = true → Seen r) (hseen : Seen r)
    (hhit : known r = false → hit r = false) (hsized : Reporter.Sized cfg.mergeReporter m')
    (hstep : Reporter.LineStep cfg.mergeReporter m r (addrHash cfg r) m') :
    MergedFed cfg (fun r' => known r' || r' = r) hit m' := by
  have haddr : m'.addrToLine = if known r then m.addrToLine
      else Function.update m.addrToLine (addrHash cfg r) [r] := by
    rw [hstep.addrToLine]
    cases hr : known r with
    | true => simp [h.addrToLine r hr]
    | false =>
      have hnil : m.addrToLine (addrHash cfg r) = [] := by
        apply h.other _
        intro r' hr' heq
        rw [hdistinct.addrHash r' r (hknown r' hr') hseen heq, hr] at hr'
        simp at hr'
      simp [hnil]
  refine ⟨hstep.wellFormed, hsized, fun id => ?_, fun r' => ?_, fun r' hr' => ?_, fun a ha => ?_,
    hstep.code h.code⟩
  · rw [hstep.pendingFiles, Function.update_apply, h.noPending, ite_self]
  · by_cases hr' : r' = r
    · subst hr'
      rw [hstep.counts_self, h.noPending, h.counts]
      change Counts.add _ _ = _
      cases hk : known r' with
      | true => simp [Counts.add]
      | false => simp [Counts.add, hhit hk]
    · rw [hstep.counts_other hr', h.counts]
      simp [hr']
  · rw [haddr]
    by_cases hrr : r' = r
    · subst hrr
      split
      next hk => exact h.addrToLine r' hk
      next => exact Function.update_self _ _ _
    · have hk : known r' = true := by simpa [hrr] using hr'
      split
      · exact h.addrToLine r' hk
      · rw [Function.update_of_ne, h.addrToLine r' hk]
        exact fun heq => hrr (hdistinct.addrHash r' r (hknown r' hk) hseen heq)
  · have hold := h.other a fun r' hr' => ha r' (by simp [hr'])
    rw [haddr]
    split
    · exact hold
    · rw [Function.update_of_ne (Ne.symm (ha r (by simp))), hold]

theorem MergedFed.addressHit (h : MergedFed cfg known hit m) (hr : known r = true) (hits : U64) :
    MergedFed cfg known (fun r' => hit r' || r' = r)
      (m.onAddressHit cfg.mergeReporter (addrHash cfg r) hits) := by
  have hstep := Reporter.onAddressHit_step h.wellFormed (addrHash cfg r) hits
  refine ⟨hstep.wellFormed, h.sized.congr (Reporter.sizeOf?_onAddressHit _ _ _), fun id => ?_,
    fun r' => ?_, fun r' hr' => ?_, fun a ha => ?_, hstep.code h.wellFormed h.code⟩
  · rw [hstep.pendingFiles]
    exact h.noPending id
  · rw [hstep.counts_hit h.wellFormed, h.addrToLine r hr, h.counts]
    by_cases hrr : r' = r
    · subst hrr
      simp [hr, Line.updateFirst, ReporterSetup.singleShot, ReporterSetup.mergeReporter]
    · simp [hrr]
  · rw [hstep.addrToLine]
    exact h.addrToLine r' hr'
  · rw [hstep.addrToLine]
    exact h.other a ha

theorem MergedFed.congr (h : MergedFed cfg known hit m) {known' hit' : LineRef → Bool}
    (hknown : known' = known) (hhit : ∀ r, known r = true → hit' r = hit r) :
    MergedFed cfg known' hit' m := by
  subst hknown
  refine ⟨h.wellFormed, h.sized, h.noPending, fun r => ?_, h.addrToLine, h.other, h.code⟩
  rw [h.counts]
  cases hr : known' r with
  | true => rw [hhit r hr]
  | false => rfl

end Merged

/-! ### A hit -/

section Hits

variable {cfg : ReporterSetup} {mangle : Text → Text} {Seen : LineRef → Prop}
  {known hit : LineRef → Bool} {p : MergeParser} {m : Reporter}

/-- The calls of the merge parser for the lines at a hit address. -/
theorem ParserFed.onAddresses (h : ParserFed cfg Seen known p) (hdistinct : Distinct cfg Seen)
    (refs : List LineRef) (hits : U64)
    (hrefs : ∀ r ∈ refs, Seen r ∧ known r = cfg.host.fileExists r.file) :
    ∃ q, (refs.map fun r => Notification.onAddress (cfg.lineId r) hits).foldlM
        (MergeParser.onNotification (cfg.mergeParser mangle)) p = some q ∧
      ParserFed cfg Seen known q ∧
      q.reported = p.reported ++
        (refs.filter known).map fun r => Reporter.Event.hit (addrHash cfg r) hits := by
  induction refs generalizing p with
  | nil => exact ⟨p, rfl, h, by simp⟩
  | cons r refs ih =>
    obtain ⟨⟨hseen, hex⟩, hrest⟩ := List.forall_mem_cons.mp hrefs
    have hone : ParserFed cfg Seen known (p.onAddress (cfg.lineId r) hits) ∧
        (p.onAddress (cfg.lineId r) hits).reported = p.reported ++
          ([r].filter known).map fun r => Reporter.Event.hit (addrHash cfg r) hits := by
      cases hr : known r with
      | true => simpa [hr] using h.onAddress_known hr hits
      | false => simpa [hr] using h.onAddress_unknown hdistinct hseen hr (hex ▸ hr) hits
    obtain ⟨q, hq, hfed, hreported⟩ := ih hone.1 hrest
    refine ⟨q, ?_, hfed, ?_⟩
    · rw [List.map_cons, List.foldlM_cons]
      exact hq
    · rw [hreported, hone.2, List.append_assoc, ← List.map_append, ← List.filter_append]
      rfl

/-- The calls of the merge reporter for these lines. -/
theorem MergedFed.hits (h : MergedFed cfg known hit m) (refs : List LineRef)
    (hrefs : ∀ r ∈ refs, known r = true) (hits : U64) :
    ∃ m', (refs.map fun r => Reporter.Event.hit (addrHash cfg r) hits).foldlM
        (Reporter.step cfg.mergeReporter) m = some m' ∧
      MergedFed cfg known (fun r => hit r || decide (r ∈ refs)) m' := by
  induction refs generalizing m hit with
  | nil => exact ⟨m, rfl, h.congr rfl fun r _ => by simp⟩
  | cons r refs ih =>
    obtain ⟨hr, hrest⟩ := List.forall_mem_cons.mp hrefs
    obtain ⟨m', hm', hfed⟩ := ih (h.addressHit hr hits) hrest
    refine ⟨m', ?_, hfed.congr rfl fun r' _ => ?_⟩
    · rw [List.map_cons, List.foldlM_cons]
      exact hm'
    · simp [Bool.or_assoc]

end Hits

end System

end Kcov
