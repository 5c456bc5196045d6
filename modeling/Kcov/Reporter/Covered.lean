import Kcov.Reporter.Retention
import Kcov.Reporter.Summary

/-! Covered lines over one run and over many: when a line that has hits keeps them. -/

namespace Kcov

open Bytes

namespace Counts

/-- The sum tells whether there are hits. -/
def Balanced (cs : Counts) : Prop := (∃ p ∈ cs, p.2 ≠ 0) → cs.total ≠ 0

/-- No sum becomes zero while the pending hits are counted one after the other. -/
def SumsAll (cs : Counts) : List PendingFileAddress → Prop
  | [] => True
  | p :: pending => (p.hits.setWidth 32 = 0 ∨ cs.total + p.hits.setWidth 32 ≠ 0) ∧
      (cs.bump p.index p.hits).SumsAll pending

variable {cs ds : Counts} {addr index hits : U64}

theorem total_cons (p : U64 × U32) (cs : Counts) : total (p :: cs) = p.2 + total cs := by
  rw [total, List.map_cons, List.sum_cons, total]

theorem total_add (cs : Counts) (addr : U64) : (cs.add addr).total = cs.total := by
  rw [add]
  split
  next => rfl
  next => simp [total, List.sum_append]

theorem Balanced.add (h : cs.Balanced) (addr : U64) : (cs.add addr).Balanced := by
  rintro ⟨p, hp, hne⟩
  rw [total_add]
  apply h
  rw [Counts.add] at hp
  split at hp
  next => exact ⟨p, hp, hne⟩
  next =>
    rcases List.mem_append.mp hp with hp | hp
    · exact ⟨p, hp, hne⟩
    · exact absurd (by rw [List.mem_singleton.mp hp]) hne

/-- A change of one count changes the sum by as much. -/
theorem total_modify {i : Nat} (hi : i < cs.length) (h : U32) :
    Counts.total (cs.modify i fun p => (p.1, p.2 + h)) = cs.total + h := by
  induction cs generalizing i with
  | nil => simp at hi
  | cons p cs ih =>
    cases i with
    | zero =>
      rw [List.modify_zero_cons, total_cons, total_cons]
      show p.2 + h + total cs = p.2 + total cs + h
      ac_rfl
    | succ i =>
      rw [List.modify_succ_cons, total_cons, total_cons, ih (by simpa using hi), BitVec.add_assoc]

theorem total_updateFirst (hmem : addr ∈ cs.map Prod.fst) (h : U32) :
    Counts.total (Line.updateFirst addr (fun c => c + h) cs) = cs.total + h := by
  induction cs with
  | nil => simp at hmem
  | cons p cs ih =>
    rw [Line.updateFirst]
    split
    next =>
      rw [total_cons, total_cons]
      show p.2 + h + total cs = p.2 + total cs + h
      ac_rfl
    next hp =>
      rw [total_cons, total_cons, ih (by simpa [Ne.symm hp] using hmem), BitVec.add_assoc]

/-- Hits are added to a count without making the sum zero. -/
theorem Balanced.added (h : cs.Balanced) {c : U32} (hsame : c = 0 → ds = cs)
    (htotal : ds.total = cs.total + c) (hsum : c = 0 ∨ cs.total + c ≠ 0) : ds.Balanced := by
  by_cases hc : c = 0
  · rw [hsame hc]
    exact h
  · intro _
    rw [htotal]
    exact hsum.resolve_left hc

theorem Takes.bump_balanced (htakes : cs.Takes index hits) (h : cs.Balanced)
    (hsum : hits.setWidth 32 = 0 ∨ cs.total + hits.setWidth 32 ≠ 0) :
    (cs.bump index hits).Balanced := by
  obtain ⟨p, hget, -⟩ := htakes
  obtain ⟨hlt, -⟩ := List.getElem?_eq_some_iff.mp hget
  refine h.added (fun hzero => ?_) (total_modify hlt _) hsum
  apply List.ext_getElem?
  intro i
  rw [Counts.bump, List.getElem?_modify, hzero]
  cases cs[i]? <;> simp

theorem Balanced.updateFirst (h : cs.Balanced) (hmem : addr ∈ cs.map Prod.fst)
    (hsum : hits.setWidth 32 = 0 ∨ cs.total + hits.setWidth 32 ≠ 0) :
    Balanced (Line.updateFirst addr (fun c => c + hits.setWidth 32) cs) := by
  refine h.added (fun hzero => ?_) (total_updateFirst hmem _) hsum
  rw [hzero]
  clear h hsum
  induction cs with
  | nil => simp at hmem
  | cons p cs ih =>
    rw [Line.updateFirst]
    split
    next hp => simp [← hp]
    next hp => rw [ih (by simpa [Ne.symm hp] using hmem)]

theorem TakesAll.replay_balanced {pending : List PendingFileAddress} (htakes : cs.TakesAll pending)
    (h : cs.Balanced) (hsums : cs.SumsAll pending) : (Counts.replay pending cs).Balanced := by
  induction pending generalizing cs with
  | nil => exact h
  | cons p pending ih => exact ih htakes.2 (htakes.1.bump_balanced h hsums.1) hsums.2

end Counts

namespace Reporter

/-! ### Steps -/

/-- The hit makes the sum of no line zero. -/
def HitSums (s : Reporter) (addr hits : U64) : Prop :=
  ∀ r ∈ s.addrToLine addr,
    hits.setWidth 32 = 0 ∨ (s.counts r).total + hits.setWidth 32 ≠ 0

/-- Loading the entry makes the sum of no line zero. -/
def EntrySums (s : Reporter) (e : Entry) : Prop :=
  match s.addrToLine e.addr with
  | [] => ∀ ref, s.lineIdToFile e.lineId = some ref →
      e.hits.setWidth 32 = 0 ∨ (s.counts ref).total + e.hits.setWidth 32 ≠ 0
  | _ :: _ => s.HitSums e.addr e.hits

/-- The step makes the sum of no line zero. -/
def StepSums (cfg : ReporterSetup) (s : Reporter) : Event → Prop
  | .file => s.unmarshallingDone = false → ∀ data, cfg.database = some data →
      Runs.AllSteps (fun pre e => e.hits ≠ 0 → (pre.foldl (loadEntry cfg) s).EntrySums e)
        (databaseEntries data)
  | .line f n a => cfg.runFilters f = true →
      ((s.counts ⟨f, n⟩).add a).SumsAll (s.pendingFiles (cfg.lineId ⟨f, n⟩))
  | .hit a hits => s.HitSums a hits

/-- The sums tell which lines have hits. -/
def AllBalanced (s : Reporter) : Prop := ∀ ref, (s.counts ref).Balanced

section Steps

variable {cfg : ReporterSetup} {s t : Reporter} {e : Entry} {addr hits : U64}

theorem AllBalanced.hit (h : s.AllBalanced) (hwf : s.WellFormed cfg)
    (hshot : cfg.singleShot = false) (hsums : s.HitSums addr hits) :
    (s.onAddressHit cfg addr hits).AllBalanced := by
  intro r
  rw [(onAddressHit_step hwf addr hits).counts_hit hwf, hshot]
  split
  next hr =>
    obtain ⟨line, hline, ha⟩ := hwf.addrToLine addr r hr
    exact (h r).updateFirst (counts_eq hline ▸ ha) (hsums r hr)
  next => exact h r

theorem AllBalanced.loadEntry (h : s.AllBalanced) (hwf : s.WellFormed cfg)
    (hshot : cfg.singleShot = false) (hhits : e.hits ≠ 0) (hkept : EntryKept cfg s e)
    (hsums : s.EntrySums e) : (s.loadEntry cfg e).AllBalanced := by
  rw [EntrySums] at hsums
  cases haddr : s.addrToLine e.addr with
  | nil =>
    rw [haddr] at hsums
    cases hid : s.lineIdToFile e.lineId with
    | none =>
      rw [loadEntry_pending hhits haddr hid]
      exact h
    | some ref =>
      intro r
      rw [counts_loadEntry_line hhits haddr hid]
      split
      next => exact (hkept.line haddr ref hid).bump_balanced (h ref) (hsums ref hid)
      next => exact h r
  | cons ref refs =>
    rw [haddr] at hsums
    rw [loadEntry_known hhits (by simp [haddr])]
    exact h.hit hwf hshot hsums

theorem AllBalanced.load (h : s.AllBalanced) (hwf : s.WellFormed cfg)
    (hshot : cfg.singleShot = false) {es : List Entry} (hkeeps : LoadKeeps cfg s es)
    (hsums : Runs.AllSteps
      (fun pre e => e.hits ≠ 0 → (pre.foldl (Reporter.loadEntry cfg) s).EntrySums e) es) :
    (es.foldl (Reporter.loadEntry cfg) s).AllBalanced := by
  induction es using List.reverseRecOn with
  | nil => exact h
  | append_singleton es e ih =>
    obtain ⟨hkeeps, hkept⟩ := Runs.allSteps_snoc.mp hkeeps
    obtain ⟨hsums, hsum⟩ := Runs.allSteps_snoc.mp hsums
    rw [List.foldl_append, List.foldl_cons, List.foldl_nil]
    have hes := ih hkeeps hsums
    by_cases hhits : e.hits = 0
    · rw [loadEntry_zero hhits]
      exact hes
    · exact hes.loadEntry (foldl_loadEntry_frame hwf es).wellFormed hshot hhits (hkept hhits)
        (hsum hhits)

/-- What loading can do: nothing, or taking in the entries of the database. -/
theorem counts_onFile (h : s.onFile cfg = some t) : (∀ ref, t.counts ref = s.counts ref) ∨
    s.unmarshallingDone = false ∧ ∃ data, cfg.database = some data ∧
      ∀ ref, t.counts ref = ((databaseEntries data).foldl (loadEntry cfg) s).counts ref := by
  rw [onFile] at h
  split at h
  next => exact Or.inl fun ref => by rw [Option.some.inj h]
  next hdone =>
    split at h
    next =>
      split at h
      next =>
        left
        cases h
        exact fun ref => rfl
      next data hdata =>
        simp only [Option.bind_eq_bind, Option.bind_eq_some_iff, Option.pure_def,
          Option.some.injEq, Prod.exists] at h
        obtain ⟨u, found, hload, rfl⟩ := h
        obtain ⟨-, rfl⟩ := unMarshal_eq_some hload
        cases found with
        | false => exact Or.inl fun ref => rfl
        | true => exact Or.inr ⟨by simpa using hdone, data, hdata, fun ref => rfl⟩
    next =>
      left
      cases h
      exact fun ref => rfl

theorem LoadKeeps.grows {es : List Entry} (h : LoadKeeps cfg s es) (hwf : s.WellFormed cfg)
    (ref : LineRef) : (s.counts ref).Grows ((es.foldl (loadEntry cfg) s).counts ref) := by
  induction es using List.reverseRecOn with
  | nil => exact Counts.Grows.refl _
  | append_singleton es e ih =>
    obtain ⟨hes, he⟩ := Runs.allSteps_snoc.mp h
    rw [List.foldl_append, List.foldl_cons, List.foldl_nil]
    by_cases hhits : e.hits = 0
    · rw [loadEntry_zero hhits]
      exact ih hes
    · have hone := ((he hhits).holds hhits (foldl_loadEntry_frame hwf es).wellFormed).1
      exact (ih hes).trans (hone ref)

/-- A step that loses no hits leaves hits where they were, and makes no sum zero. -/
theorem step_covers (hwf : s.WellFormed cfg) (hshot : cfg.singleShot = false)
    (hs : s.AllBalanced) {ev : Event} (hkeeps : StepKeeps cfg s ev) (hsums : StepSums cfg s ev)
    (h : s.step cfg ev = some t) :
    t.AllBalanced ∧ ∀ ref, (s.counts ref).Grows (t.counts ref) := by
  cases ev with
  | file =>
    rcases counts_onFile h with hsame | ⟨hdone, data, hdata, hload⟩
    · exact ⟨fun ref => hsame ref ▸ hs ref, fun ref => hsame ref ▸ Counts.Grows.refl _⟩
    · have hkept := hkeeps hdone data hdata
      exact ⟨fun ref => hload ref ▸ hs.load hwf hshot hkept (hsums hdone data hdata) ref,
        fun ref => hload ref ▸ hkept.grows hwf ref⟩
  | line f n a =>
    cases hf : cfg.runFilters f with
    | false =>
      rw [step, onLine_filtered hf, Option.some.injEq] at h
      exact h ▸ ⟨hs, fun ref => Counts.Grows.refl _⟩
    | true =>
      have hstep := onLine_eq_some hwf ⟨f, n⟩ hf h
      have htakes : Counts.TakesAll _ _ := hkeeps hf
      constructor
      · intro r
        by_cases hr : r = ⟨f, n⟩
        · rw [hr, hstep.counts_self]
          exact htakes.replay_balanced ((hs _).add a) (hsums hf)
        · rw [hstep.counts_other hr]
          exact hs r
      · intro r
        by_cases hr : r = ⟨f, n⟩
        · rw [hr, hstep.counts_self]
          exact (Counts.grows_add _ a).trans htakes.replay.1
        · rw [hstep.counts_other hr]
          exact Counts.Grows.refl _
  | hit a hits =>
    rw [step, Option.some.injEq] at h
    subst h
    exact ⟨hs.hit hwf hshot hsums, HitKeeps.grows hkeeps hwf⟩

end Steps

/-! ### Runs -/

/-- The steps of the run lose no hits, neither of an address nor of a line. -/
structure RunCovers (cfg : ReporterSetup) (evs : List Event) : Prop where
  keeps : RunKeeps cfg evs
  sums : Runs.AllSteps (fun pre ev => ∀ s, run cfg pre = some s → StepSums cfg s ev) evs

section Runs

variable {cfg : ReporterSetup} {evs pre mid : List Event} {s t : Reporter} {ref : LineRef}
variable {it : IterationOrder} {id index : U64}

theorem RunCovers.mono (h : RunCovers cfg evs) (hpre : pre <+: evs) : RunCovers cfg pre :=
  ⟨fun p ev hp => h.keeps p ev (hp.trans hpre), fun p ev hp => h.sums p ev (hp.trans hpre)⟩

theorem RunCovers.balanced (hshot : cfg.singleShot = false) (h : RunCovers cfg evs)
    (hrun : run cfg evs = some s) : s.AllBalanced := by
  induction evs using List.reverseRecOn generalizing s with
  | nil =>
    cases hrun
    rintro ref ⟨p, hp, -⟩
    cases hp
  | append_singleton evs ev ih =>
    obtain ⟨s₀, hs₀, hstep⟩ := run_snoc_eq_some hrun
    have hbefore := ih (h.mono (List.prefix_append _ _)) hs₀
    exact (step_covers (run_frame hs₀).1 hshot hbefore
      ((Runs.allSteps_snoc.mp h.keeps).2 s₀ hs₀) ((Runs.allSteps_snoc.mp h.sums).2 s₀ hs₀) hstep).1

/-- Later in the run there are hits where there were some. -/
theorem RunCovers.grows (hshot : cfg.singleShot = false) (h : RunCovers cfg (pre ++ mid))
    (hs : run cfg pre = some s) (ht : run cfg (pre ++ mid) = some t) (ref : LineRef) :
    (s.counts ref).Grows (t.counts ref) := by
  induction mid using List.reverseRecOn generalizing t with
  | nil =>
    rw [List.append_nil, hs, Option.some.injEq] at ht
    exact ht ▸ Counts.Grows.refl _
  | append_singleton mid ev ih =>
    rw [← List.append_assoc] at h ht
    obtain ⟨u, hu, hstep⟩ := run_snoc_eq_some ht
    have hbefore := h.mono (List.prefix_append (pre ++ mid) [ev])
    have hlast := (step_covers (run_frame hu).1 hshot (hbefore.balanced hshot hu)
      ((Runs.allSteps_snoc.mp h.keeps).2 u hu) ((Runs.allSteps_snoc.mp h.sums).2 u hu) hstep).2
    exact (ih hbefore hu).trans (hlast ref)

/-- A line is covered if and only if it is not excluded and one of its addresses has hits. -/
theorem hits_ne_zero_iff (hwf : s.WellFormed cfg) (hs : s.AllBalanced) (ref : LineRef) :
    (s.getLineExecutionCount cfg ref.file ref.lineNr).hits ≠ 0 ↔
      cfg.excluded ref = false ∧ ∃ p ∈ s.counts ref, p.2 ≠ 0 := by
  have htotal : ∀ cs : Counts, (∀ p ∈ cs, p.2 = 0) → cs.total = 0 := by
    intro cs hcs
    induction cs with
    | nil => rfl
    | cons p cs ih =>
      rw [Counts.total_cons, hcs p (by simp), ih fun q hq => hcs q (by simp [hq])]
      rfl
  rw [hits_eq hwf]
  cases cfg.excluded ref with
  | true => simp
  | false =>
    refine ⟨fun hne => ⟨rfl, ?_⟩, fun h => hs ref h.2⟩
    by_contra hall
    exact hne (htotal _ fun p hp => by_contra fun h => hall ⟨p, hp, h⟩)

/-- The executed lines that the summary counts are the covered ones. -/
theorem mem_executedNrs {f : Text} {n : U32} :
    n ∈ s.executedNrs cfg f ↔ (s.getLineExecutionCount cfg f n).hits ≠ 0 := by
  rw [executedNrs, Counting.mem_wordsWith, isExecuted, Bool.and_eq_true, bne_iff_ne]
  refine ⟨fun h => h.2, fun h => ⟨?_, h⟩⟩
  rw [getLineExecutionCount, line?] at h
  rw [lineIsCode]
  cases hfile : s.files f with
  | none => simp [hfile] at h
  | some file =>
    rw [hfile, Option.bind_some] at h
    dsimp only
    rw [File.lineIsCode]
    cases hline : file.getLine n with
    | none => simp [hline] at h
    | some line =>
      cases hun : line.unreachable with
      | true => simp [hline, hun] at h
      | false => simp [hun]

/-- An address of a line with the number `id` has hits, and its position is stored as `index`. -/
def StoredAt (cfg : ReporterSetup) (s : Reporter) (id index : U64) : Prop :=
  ∃ ref, ∃ e ∈ entriesOf (cfg.lineId ref) (s.counts ref), e.lineId = id ∧ e.index = index

theorem storedAt_iff (hrun : run cfg evs = some s) (it : IterationOrder) :
    StoredAt cfg s id index ↔ ∃ e ∈ databaseEntries (s.marshal cfg it),
      e.lineId = id ∧ e.index = index ∧ e.hits ≠ 0 := by
  have hmem := @mem_databaseEntries cfg s it (run_frame hrun).1 (run_sized hrun).1
  constructor
  · rintro ⟨ref, e, he, hid, hindex⟩
    obtain ⟨hdata, hhits⟩ := hmem.mpr ⟨ref, he⟩
    exact ⟨e, hdata, hid, hindex, hhits⟩
  · rintro ⟨e, he, hid, hindex, hhits⟩
    obtain ⟨ref, href⟩ := hmem.mp ⟨he, hhits⟩
    exact ⟨ref, e, href, hid, hindex⟩

theorem StoredAt.grows (h : StoredAt cfg s id index)
    (hgrows : ∀ ref, (s.counts ref).Grows (t.counts ref)) : StoredAt cfg t id index := by
  obtain ⟨ref, e, he, hid, hindex⟩ := h
  obtain ⟨i, p, hget, hne, rfl⟩ := mem_entriesOf.mp he
  obtain ⟨q, hq, hqne⟩ := hgrows ref i p hget hne
  exact ⟨ref, _, mem_entriesOf.mpr ⟨i, q, hq, hqne, rfl⟩, hid, hindex⟩

end Runs

/-! ### Runs one after the other -/

/-- A run of the program: its setup, with the database that it finds, and its calls. -/
structure AccumulatedRun where
  cfg : ReporterSetup
  evs : List Event

namespace AccumulatedRun

/-- A run that counts every hit, on top of what it finds. -/
structure Accumulates (x : AccumulatedRun) : Prop where
  unlimited : x.cfg.maxPossibleHits = .unlimited
  clean : x.cfg.cleanOutput = false
  positive : ∀ addr hits, .hit addr hits ∈ x.evs → hits ≠ 0

/-- The run `y` of the same program loads what the run `x` has written at its end. -/
structure Finds (x y : AccumulatedRun) : Prop where
  database : ∃ s it, run x.cfg x.evs = some s ∧ y.cfg.database = some (s.marshal x.cfg it)
  checksum : y.cfg.checksum = x.cfg.checksum
  loads : .file ∈ y.evs

/-- The run loses no hits: its own steps lose none, and it finds the line of each stored hit, which
is told apart by its number. -/
structure Keeps (x : AccumulatedRun) : Prop where
  covers : RunCovers x.cfg x.evs
  distinct : FilesDistinct x.cfg x.evs
  found : ∀ data, x.cfg.database = some data → ∀ e ∈ databaseEntries data, e.hits ≠ 0 →
    ∃ ref, x.cfg.lineId ref = e.lineId ∧ x.evs.any (registers x.cfg ref) = true

end AccumulatedRun

/-- The line at `ref'` is covered, and the addresses of the line at `ref` that had hits have some. -/
structure StillCovered (cfg : ReporterSetup) (s : Reporter) (ref : LineRef) (cfg' : ReporterSetup)
    (t : Reporter) (ref' : LineRef) : Prop where
  hits : (t.getLineExecutionCount cfg' ref'.file ref'.lineNr).hits ≠ 0
  executed : ref'.lineNr ∈ t.executedNrs cfg' ref'.file
  stored : ∀ it it', ∀ e ∈ databaseEntries (s.marshal cfg it), e.lineId = cfg.lineId ref →
    e.hits ≠ 0 → ∃ e' ∈ databaseEntries (t.marshal cfg' it'),
      e'.lineId = e.lineId ∧ e'.index = e.index ∧ e'.hits ≠ 0

/-- A line that is covered at some point of a run is covered at every later point: in the same run,
and in the later runs, if they do not exclude it, once they have loaded the database and found the
line, and so at their end. -/
def StaysCovered (runs : List AccumulatedRun) : Prop :=
  ∀ before x rest, runs = before ++ x :: rest →
  ∀ pre s, pre <+: x.evs → run x.cfg pre = some s →
  ∀ ref, (s.getLineExecutionCount x.cfg ref.file ref.lineNr).hits ≠ 0 →
    (∀ pre' t, pre <+: pre' → pre' <+: x.evs → run x.cfg pre' = some t →
      StillCovered x.cfg s ref x.cfg t ref) ∧
    ∀ mid y rest', rest = mid ++ y :: rest' →
    (∀ pre' t, pre' <+: y.evs → .file ∈ pre' → run y.cfg pre' = some t →
      ∀ ref', y.cfg.lineId ref' = x.cfg.lineId ref → pre'.any (registers y.cfg ref') = true →
        y.cfg.excluded ref' = false → StillCovered x.cfg s ref y.cfg t ref') ∧
    ∀ t, run y.cfg y.evs = some t → ∃ ref', y.cfg.lineId ref' = x.cfg.lineId ref ∧
      (y.cfg.excluded ref' = false → StillCovered x.cfg s ref y.cfg t ref')

section Chains

variable {x y : AccumulatedRun} {runs mid rest : List AccumulatedRun} {pre : List Event}
variable {s t u : Reporter} {ref ref' : LineRef} {id index : U64}

theorem AccumulatedRun.Accumulates.singleShot (h : x.Accumulates) : x.cfg.singleShot = false := by
  rw [ReporterSetup.singleShot, h.unlimited]
  rfl

/-- What a run has stored is found again by the next one, in the line with the same number. -/
theorem storedAt_next (hy : y.Accumulates) (hkeeps : y.Keeps) (hfinds : x.Finds y)
    (hx : run x.cfg x.evs = some s) (hs : StoredAt x.cfg s id index) (hpre : pre <+: y.evs)
    (hfile : .file ∈ pre) (ht : run y.cfg pre = some t) (hid : y.cfg.lineId ref' = id)
    (hreg : pre.any (registers y.cfg ref') = true) :
    StoredAt y.cfg t id index ∧ ∃ p ∈ t.counts ref', p.2 ≠ 0 := by
  obtain ⟨s', it, hs', hdata⟩ := hfinds.database
  obtain rfl : s = s' := Option.some.inj (hx.symm.trans hs')
  obtain ⟨e, he, rfl, rfl, hhits⟩ := (storedAt_iff hx it).mp hs
  have hheader : unMarshalHeader y.cfg (s.marshal x.cfg it) = some true := by
    rw [← @unMarshalHeader_marshal x.cfg s it]
    simp only [unMarshalHeader, hfinds.checksum]
  have hrunKeeps := (hkeeps.covers.mono hpre).keeps
  obtain ⟨hretained, hdone⟩ := retained_run hy.clean hdata hheader hrunKeeps ht
  obtain ⟨r, p, hr, hget, hne⟩ := hretained.hasHits (hdone hfile) ht he hhits hid hreg
  have hindex := (hretained.loaded (hdone hfile) e he hhits).1
  have hdistinct := distinctIds_run (hkeeps.distinct.mono hpre.subset) ht
  constructor
  · refine ⟨r, _, mem_entriesOf.mpr ⟨e.index.toNat, p, hget, hne, rfl⟩, hr, ?_⟩
    apply BitVec.eq_of_toNat_eq
    simp
    omega
  · -- The line with the hits is the one at `ref'`, since they have one number.
    have hrne := List.ne_nil_of_mem (List.mem_of_getElem? hget)
    obtain rfl : r = ref' := hdistinct r ref' hrne ((counts_ne_nil_iff ht ref').mpr hreg)
      (hr.trans hid.symm)
    exact ⟨p, List.mem_of_getElem? hget, hne⟩

/-- The next run finds a line for what is stored. -/
theorem found_next (hkeeps : y.Keeps) (hfinds : x.Finds y) (hx : run x.cfg x.evs = some s)
    (hs : StoredAt x.cfg s id index) :
    ∃ r, y.cfg.lineId r = id ∧ y.evs.any (registers y.cfg r) = true := by
  obtain ⟨s', it, hs', hdata⟩ := hfinds.database
  obtain rfl : s = s' := Option.some.inj (hx.symm.trans hs')
  obtain ⟨e, he, rfl, -, hhits⟩ := (storedAt_iff hx it).mp hs
  exact hkeeps.found _ hdata e he hhits

/-- What is stored is stored again at the end of the next run. -/
theorem storedAt_end (hy : y.Accumulates) (hkeeps : y.Keeps) (hfinds : x.Finds y)
    (hx : run x.cfg x.evs = some s) (hs : StoredAt x.cfg s id index)
    (hu : run y.cfg y.evs = some u) : StoredAt y.cfg u id index := by
  obtain ⟨r, hr, hreg⟩ := found_next hkeeps hfinds hx hs
  exact (storedAt_next hy hkeeps hfinds hx hs (List.prefix_refl _) hfinds.loads hu hr hreg).1

/-- A run that is not the last one of a chain ends. -/
theorem exists_run (h : List.IsChain AccumulatedRun.Finds (x :: (mid ++ y :: rest))) :
    ∃ u, run x.cfg x.evs = some u := by
  cases mid with
  | nil => exact (List.isChain_cons_cons.mp h).1.database.imp fun u h => h.choose_spec.1
  | cons _ _ => exact (List.isChain_cons_cons.mp h).1.database.imp fun u h => h.choose_spec.1

/-- What is stored is still stored when the run before `y` ends. -/
theorem storedAt_before (hruns : ∀ x ∈ runs, x.Accumulates) (hkeeps : ∀ x ∈ runs, x.Keeps)
    (hchain : List.IsChain AccumulatedRun.Finds (x :: runs)) (hsplit : runs = mid ++ y :: rest)
    (hx : run x.cfg x.evs = some s) (hs : StoredAt x.cfg s id index) :
    ∃ w u, AccumulatedRun.Finds w y ∧ run w.cfg w.evs = some u ∧ StoredAt w.cfg u id index := by
  induction mid generalizing x s runs with
  | nil =>
    rw [hsplit, List.nil_append] at hchain
    exact ⟨x, s, (List.isChain_cons_cons.mp hchain).1, hx, hs⟩
  | cons m mid ih =>
    rw [hsplit, List.cons_append] at hchain hruns hkeeps
    obtain ⟨hfinds, hchain⟩ := List.isChain_cons_cons.mp hchain
    obtain ⟨u, hu⟩ := exists_run hchain
    have hnext := storedAt_end (hruns m (by simp)) (hkeeps m (by simp)) hfinds hx hs hu
    exact ih (fun x hx => hruns x (by simp [hx])) (fun x hx => hkeeps x (by simp [hx])) hchain rfl
      hu hnext

/-- Covered lines stay covered over any number of runs that lose no hits. -/
theorem staysCovered (runs : List AccumulatedRun) (hruns : ∀ x ∈ runs, x.Accumulates)
    (hchain : List.IsChain AccumulatedRun.Finds runs) (hkeeps : ∀ x ∈ runs, x.Keeps) :
    StaysCovered runs := by
  rintro before x rest rfl pre s hpre hs ref hcovered
  have hx := hruns x (by simp)
  have hshot := hx.singleShot
  have hcovers := (hkeeps x (by simp)).covers
  have hwf := (run_frame hs).1
  obtain ⟨hex, p, hp, hne⟩ := (hits_ne_zero_iff hwf ((hcovers.mono hpre).balanced hshot hs) ref).mp
    hcovered
  constructor
  · rintro pre' t ⟨mid, rfl⟩ hpre' ht
    have hgrows := (hcovers.mono hpre').grows hshot hs ht
    have hbalanced := (hcovers.mono hpre').balanced hshot ht
    obtain ⟨i, hi⟩ := List.mem_iff_getElem?.mp hp
    obtain ⟨q, hq, hqne⟩ := hgrows ref i p hi hne
    have hhits := (hits_ne_zero_iff (run_frame ht).1 hbalanced ref).mpr
      ⟨hex, q, List.mem_of_getElem? hq, hqne⟩
    refine ⟨hhits, mem_executedNrs.mpr hhits, fun it it' e he _ hehits => ?_⟩
    have hstored := (storedAt_iff hs it).mpr ⟨e, he, rfl, rfl, hehits⟩
    exact (storedAt_iff ht it').mp (hstored.grows hgrows)
  · rintro mid y rest' rfl
    have hy : y ∈ before ++ x :: (mid ++ y :: rest') := by simp
    -- What is stored for the line at the point is stored when the run before `y` ends.
    obtain ⟨hxchain, -⟩ := List.isChain_append.mp hchain |>.2
    obtain ⟨u, hu⟩ := exists_run hxchain
    have hgrows : ∀ r, (s.counts r).Grows (u.counts r) := by
      obtain ⟨more, hmore⟩ := hpre
      rw [← hmore] at hu hcovers
      exact hcovers.grows hshot hs hu
    have hbefore : ∀ index, StoredAt x.cfg s (x.cfg.lineId ref) index → ∃ w v,
        AccumulatedRun.Finds w y ∧ run w.cfg w.evs = some v ∧
          StoredAt w.cfg v (x.cfg.lineId ref) index := fun index hstored =>
      storedAt_before (fun z hz => hruns z (by simp [hz])) (fun z hz => hkeeps z (by simp [hz]))
        hxchain rfl hu (hstored.grows hgrows)
    obtain ⟨i, hi⟩ := List.mem_iff_getElem?.mp hp
    obtain ⟨index, hstored⟩ : ∃ index, StoredAt x.cfg s (x.cfg.lineId ref) index :=
      ⟨_, ref, _, mem_entriesOf.mpr ⟨i, p, hi, hne, rfl⟩, rfl, rfl⟩
    have hstill : ∀ pre' t, pre' <+: y.evs → .file ∈ pre' → run y.cfg pre' = some t →
        ∀ ref', y.cfg.lineId ref' = x.cfg.lineId ref → pre'.any (registers y.cfg ref') = true →
          y.cfg.excluded ref' = false → StillCovered x.cfg s ref y.cfg t ref' := by
      intro pre' t hpre' hfile ht ref' hid hreg hex'
      have hlater : ∀ index, StoredAt x.cfg s (x.cfg.lineId ref) index →
          StoredAt y.cfg t (x.cfg.lineId ref) index ∧ ∃ p ∈ t.counts ref', p.2 ≠ 0 := by
        intro index hstored
        obtain ⟨w, v, hfinds, hv, hwv⟩ := hbefore index hstored
        exact storedAt_next (hruns y hy) (hkeeps y hy) hfinds hv hwv hpre' hfile ht hid hreg
      have hhits := (hits_ne_zero_iff (run_frame ht).1
        (((hkeeps y hy).covers.mono hpre').balanced (hruns y hy).singleShot ht) ref').mpr
          ⟨hex', (hlater _ hstored).2⟩
      refine ⟨hhits, mem_executedNrs.mpr hhits, fun it it' e he heid hehits => ?_⟩
      rw [heid]
      exact (storedAt_iff ht it').mp
        (hlater e.index ((storedAt_iff hs it).mpr ⟨e, he, heid, rfl, hehits⟩)).1
    refine ⟨hstill, fun t ht => ?_⟩
    obtain ⟨w, v, hfinds, hv, hwv⟩ := hbefore _ hstored
    obtain ⟨ref', hid, hreg⟩ := found_next (hkeeps y hy) hfinds hv hwv
    exact ⟨ref', hid, hstill y.evs t (List.prefix_refl _) hfinds.loads ht ref' hid hreg⟩

end Chains

/-! ### Two runs over one line -/

def countingSetup : ReporterSetup := { compiledSetup with maxPossibleHits := .unlimited }

/-- The first run counts one hit. -/
def hitRun : AccumulatedRun := ⟨countingSetup, [.line (ascii "/a") 1 16, .hit 16 1]⟩

/-- The entry that it stores. -/
def hitEntry : Entry := ⟨16, countingSetup.lineId ⟨ascii "/a", 1⟩, 0, 1⟩

/-- The database that it writes, with room for 31 entries more. -/
def hitData : List Byte :=
  marshalHeader countingSetup ++ ([hitEntry].flatMap Entry.encode ++ zeros (32 * 31))

/-- The second run finds the line again. -/
def againRun : AccumulatedRun :=
  ⟨countingSetup.reload hitData, [.file, .line (ascii "/a") 1 16]⟩

theorem run_hitRun : ∃ s, run hitRun.cfg hitRun.evs = some s ∧
    s.marshal hitRun.cfg foundOrder = hitData := by
  refine ⟨_, rfl, ?_⟩
  rw [marshal_eq]
  rfl

theorem databaseEntries_hitData :
    databaseEntries hitData = hitEntry :: List.replicate 31 Entry.blank := by
  obtain ⟨s, hs, hdata⟩ := run_hitRun
  have hentries : s.entries foundOrder = [hitEntry] := by
    cases hs
    rfl
  rw [← hdata, databaseEntries_marshal, hentries]
  rfl

/-- Before the hit the line has its address, with no hits. -/
theorem counts_hitRun {s : Reporter} (hs : run hitRun.cfg [.line (ascii "/a") 1 16] = some s) :
    s.addrToLine 16 = [⟨ascii "/a", 1⟩] ∧ s.counts ⟨ascii "/a", 1⟩ = [(16, 0)] := by
  cases hs
  exact ⟨rfl, rfl⟩

theorem keeps_hitRun : hitRun.Keeps where
  covers := by
    constructor
    case keeps =>
      refine Runs.allSteps_snoc.mpr ⟨Runs.allSteps_snoc.mpr ⟨Runs.allSteps_nil, ?_⟩, ?_⟩
      · rintro s hs -
        cases hs
        trivial
      · intro s hs
        obtain ⟨hlines, hcounts⟩ := counts_hitRun hs
        right
        intro r hr p hp _ hne
        obtain rfl := List.mem_singleton.mp (hlines ▸ hr)
        obtain rfl := List.mem_singleton.mp (hcounts ▸ hp)
        exact absurd rfl hne
    case sums =>
      refine Runs.allSteps_snoc.mpr ⟨Runs.allSteps_snoc.mpr ⟨Runs.allSteps_nil, ?_⟩, ?_⟩
      · rintro s hs -
        cases hs
        trivial
      · intro s hs
        obtain ⟨hlines, hcounts⟩ := counts_hitRun hs
        intro r hr
        obtain rfl := List.mem_singleton.mp (hlines ▸ hr)
        rw [hcounts]
        exact Or.inr (by decide)
  distinct := by
    intro f n a g m b hf hg _
    simp only [hitRun, List.mem_cons, Event.line.injEq, reduceCtorEq, List.not_mem_nil,
      or_false] at hf hg
    rw [hf.1, hg.1]
  found := by
    rintro data hdata
    cases hdata

/-- Of the entries in the database only the first one has hits. -/
theorem allSteps_hitData {P : List Entry → Entry → Prop} (h : P [] hitEntry) :
    Runs.AllSteps (fun pre e => e.hits ≠ 0 → P pre e) (databaseEntries hitData) := by
  rw [databaseEntries_hitData, Runs.allSteps_iff_getElem]
  intro i hi hhits
  cases i with
  | zero => exact h
  | succ i =>
    rw [List.getElem_cons_succ, List.getElem_replicate] at hhits
    exact absurd rfl hhits

/-- The hit waits for the line once the database is loaded. -/
theorem counts_againRun {s : Reporter} (hs : run againRun.cfg [.file] = some s) :
    (∀ ref, s.counts ref = []) ∧
      s.pendingFiles (againRun.cfg.lineId ⟨ascii "/a", 1⟩) = [⟨0, 1⟩] := by
  have hheader : unMarshalHeader countingSetup hitData = some true := by
    obtain ⟨s, -, hdata⟩ := run_hitRun
    exact hdata ▸ unMarshalHeader_marshal
  have hload := onFile_reload hheader
  have hfilter : (databaseEntries hitData).filter (fun e => e.hits ≠ 0) = [hitEntry] := by
    rw [databaseEntries_hitData]
    decide
  rw [hfilter, if_pos rfl] at hload
  have hs' : run againRun.cfg ([] ++ [.file]) = some s := hs
  obtain ⟨u, hu, hstep⟩ := run_snoc_eq_some hs'
  cases hu
  obtain rfl := Option.some.inj (hload.symm.trans hstep)
  exact ⟨fun _ => rfl, rfl⟩

theorem keeps_againRun : againRun.Keeps where
  covers := by
    constructor
    case keeps =>
      refine Runs.allSteps_snoc.mpr ⟨Runs.allSteps_snoc.mpr ⟨Runs.allSteps_nil, ?_⟩, ?_⟩
      · rintro s hs - data hdata
        cases hs
        cases hdata
        refine allSteps_hitData ⟨by decide, ?_, ?_⟩
        · exact fun h => absurd rfl h
        · exact fun _ ref h => by cases h
      · intro s hs _
        obtain ⟨hcounts, hpending⟩ := counts_againRun hs
        rw [hcounts, hpending]
        exact ⟨⟨(16, 0), rfl, by decide⟩, trivial⟩
    case sums =>
      refine Runs.allSteps_snoc.mpr ⟨Runs.allSteps_snoc.mpr ⟨Runs.allSteps_nil, ?_⟩, ?_⟩
      · rintro s hs - data hdata
        cases hs
        cases hdata
        exact allSteps_hitData fun ref h => by cases h
      · intro s hs _
        obtain ⟨hcounts, hpending⟩ := counts_againRun hs
        rw [hcounts, hpending]
        exact ⟨Or.inr (by decide), trivial⟩
  distinct := by
    intro f n a g m b hf hg _
    have hline : ∀ {f n a}, Event.line f n a ∈ againRun.evs → f = ascii "/a" := by
      intro f n a h
      simp only [againRun, List.mem_cons, Event.line.injEq, reduceCtorEq, List.not_mem_nil,
        false_or, or_false] at h
      exact h.1
    rw [hline hf, hline hg]
  found := by
    intro data hdata e he hhits
    obtain rfl : data = hitData := (Option.some.inj hdata).symm
    rw [databaseEntries_hitData] at he
    rcases List.mem_cons.mp he with rfl | he
    · exact ⟨⟨ascii "/a", 1⟩, rfl, by decide⟩
    · exact absurd (by rw [(List.mem_replicate.mp he).2]; rfl) hhits

/-- The line is covered in the second run, without a hit of its own. -/
theorem staysCovered_again : StaysCovered [hitRun, againRun] := by
  have hx : ∀ x ∈ [hitRun, againRun], x.Accumulates := by
    simp only [List.mem_cons, List.not_mem_nil, or_false, forall_eq_or_imp, forall_eq]
    refine ⟨⟨rfl, rfl, fun addr hits h => ?_⟩, ⟨rfl, rfl, fun addr hits h => ?_⟩⟩
    · simp only [hitRun, List.mem_cons, Event.hit.injEq, reduceCtorEq, List.not_mem_nil,
        false_or, or_false] at h
      rw [h.2]
      decide
    · simp [againRun] at h
  have hkeeps : ∀ x ∈ [hitRun, againRun], x.Keeps := by
    simp only [List.mem_cons, List.not_mem_nil, or_false, forall_eq_or_imp, forall_eq]
    exact ⟨keeps_hitRun, keeps_againRun⟩
  obtain ⟨s, hs, hdata⟩ := run_hitRun
  exact staysCovered [hitRun, againRun] hx
    (List.isChain_cons_cons.mpr ⟨⟨⟨s, foundOrder, hs, by rw [hdata]; rfl⟩, rfl, by decide⟩,
      List.IsChain.singleton _⟩) hkeeps

/-- One run, in which so many hits are reported at once that the count is zero again. -/
def wrapRun : AccumulatedRun :=
  ⟨countingSetup, [.line (ascii "/a") 1 16, .hit 16 1, .hit 16 0xffffffff]⟩

theorem not_staysCovered_wrap : wrapRun.Accumulates ∧ ¬StaysCovered [wrapRun] := by
  constructor
  · refine ⟨rfl, rfl, fun addr hits h => ?_⟩
    simp only [wrapRun, List.mem_cons, Event.hit.injEq, reduceCtorEq, List.not_mem_nil,
      false_or, or_false] at h
    rcases h with ⟨-, rfl⟩ | ⟨-, rfl⟩
    · decide
    · decide
  · intro h
    obtain ⟨s, hs, hhits⟩ : ∃ s, run countingSetup [.line (ascii "/a") 1 16, .hit 16 1] = some s ∧
        (s.getLineExecutionCount countingSetup (ascii "/a") 1).hits = 1 := ⟨_, rfl, by decide⟩
    obtain ⟨t, ht, hzero⟩ : ∃ t, run countingSetup wrapRun.evs = some t ∧
        (t.getLineExecutionCount countingSetup (ascii "/a") 1).hits = 0 := ⟨_, rfl, by decide⟩
    have hstart : [.line (ascii "/a") 1 16, .hit 16 1] <+: wrapRun.evs :=
      ⟨[.hit 16 0xffffffff], rfl⟩
    have hcovered := (h [] wrapRun [] rfl _ s hstart hs ⟨ascii "/a", 1⟩
      fun hzero => absurd (hhits.symm.trans hzero) (by decide)).1 _ t hstart (List.prefix_refl _) ht
    exact hcovered.hits hzero

end Reporter

end Kcov
