import Kcov.Reporter.Accumulation
import Kcov.Lib.Runs

/-! Which stored hits are still in the database that a later run writes. -/

namespace Kcov

open Bytes

namespace Counts

/-- Where there were hits there still are. -/
def Grows (cs ds : Counts) : Prop :=
  ∀ (i : Nat) (p : U64 × U32), cs[i]? = some p → p.2 ≠ 0 → ∃ q, ds[i]? = some q ∧ q.2 ≠ 0

/-- There is an address at `index`, and its count is not zero after `hits` more. -/
def Takes (cs : Counts) (index hits : U64) : Prop :=
  ∃ p, cs[index.toNat]? = some p ∧ p.2 + hits.setWidth 32 ≠ 0

/-- Each of the pending hits finds its address when they are counted one after the other. -/
def TakesAll (cs : Counts) : List PendingFileAddress → Prop
  | [] => True
  | p :: pending => cs.Takes p.index p.hits ∧ (cs.bump p.index p.hits).TakesAll pending

variable {cs ds es : Counts} {index hits : U64}

theorem Grows.refl (cs : Counts) : cs.Grows cs := fun _ p h hne => ⟨p, h, hne⟩

theorem Grows.trans (h : cs.Grows ds) (h' : ds.Grows es) : cs.Grows es := by
  intro i p hget hne
  obtain ⟨q, hq, hqne⟩ := h i p hget hne
  exact h' i q hq hqne

theorem grows_add (cs : Counts) (addr : U64) : cs.Grows (cs.add addr) := by
  intro i p hget hne
  rw [add]
  split
  · exact ⟨p, hget, hne⟩
  · obtain ⟨hlt, -⟩ := List.getElem?_eq_some_iff.mp hget
    exact ⟨p, by rw [List.getElem?_append_left hlt, hget], hne⟩

theorem Takes.bump (h : cs.Takes index hits) :
    ∃ q, (cs.bump index hits)[index.toNat]? = some q ∧ q.2 ≠ 0 := by
  obtain ⟨p, hget, hne⟩ := h
  exact ⟨(p.1, p.2 + hits.setWidth 32), by simp [Counts.bump, hget], hne⟩

theorem Takes.grows (h : cs.Takes index hits) : cs.Grows (cs.bump index hits) := by
  intro i p hget hne
  by_cases hi : index.toNat = i
  · exact hi ▸ h.bump
  · exact ⟨p, by simp [Counts.bump, hi, hget], hne⟩

theorem TakesAll.replay {pending : List PendingFileAddress} (h : cs.TakesAll pending) :
    cs.Grows (Counts.replay pending cs) ∧
      ∀ p ∈ pending, ∃ q, (Counts.replay pending cs)[p.index.toNat]? = some q ∧ q.2 ≠ 0 := by
  induction pending generalizing cs with
  | nil => exact ⟨Grows.refl cs, by simp⟩
  | cons p pending ih =>
    obtain ⟨hp, hrest⟩ := h
    obtain ⟨hgrows, hplaces⟩ := ih hrest
    refine ⟨hp.grows.trans hgrows, fun p' hmem => ?_⟩
    rcases List.mem_cons.mp hmem with rfl | hmem
    · obtain ⟨q, hq, hqne⟩ := hp.bump
      exact hgrows _ q hq hqne
    · exact hplaces p' hmem

end Counts

namespace Reporter

/-! ### Steps that lose nothing -/

/-- The hit makes no count zero that was not. -/
def HitKeeps (cfg : ReporterSetup) (s : Reporter) (addr hits : U64) : Prop :=
  cfg.singleShot = true ∨ ∀ r ∈ s.addrToLine addr, ∀ p ∈ s.counts r, p.1 = addr → p.2 ≠ 0 →
    p.2 + hits.setWidth 32 ≠ 0

/-- The entry is counted for the line and the index that it names, or waits for its line. -/
structure EntryKept (cfg : ReporterSetup) (s : Reporter) (e : Entry) : Prop where
  index : e.index.toNat < 2 ^ 32
  known : s.addrToLine e.addr ≠ [] → HitKeeps cfg s e.addr e.hits ∧
    ∃ ref ∈ s.addrToLine e.addr, cfg.lineId ref = e.lineId ∧
      ∃ p, (s.counts ref)[e.index.toNat]? = some p ∧ p.1 = e.addr ∧
        (cfg.singleShot = true ∨ p.2 + e.hits.setWidth 32 ≠ 0)
  line : s.addrToLine e.addr = [] → ∀ ref, s.lineIdToFile e.lineId = some ref →
    (s.counts ref).Takes e.index e.hits

/-- The entries are kept when they are loaded one after the other. -/
def LoadKeeps (cfg : ReporterSetup) (s : Reporter) (es : List Entry) : Prop :=
  Runs.AllSteps (fun pre e => e.hits ≠ 0 → EntryKept cfg (pre.foldl (loadEntry cfg) s) e) es

/-- The step loses no hits. -/
def StepKeeps (cfg : ReporterSetup) (s : Reporter) : Event → Prop
  | .file => s.unmarshallingDone = false → ∀ data, cfg.database = some data →
      LoadKeeps cfg s (databaseEntries data)
  | .line f n a => cfg.runFilters f = true →
      ((s.counts ⟨f, n⟩).add a).TakesAll (s.pendingFiles (cfg.lineId ⟨f, n⟩))
  | .hit a hits => HitKeeps cfg s a hits

/-! ### Places with hits -/

/-- The line and the index of the entry have hits. -/
def HasHits (cfg : ReporterSetup) (s : Reporter) (e : Entry) : Prop :=
  ∃ ref p, cfg.lineId ref = e.lineId ∧ (s.counts ref)[e.index.toNat]? = some p ∧ p.2 ≠ 0

/-- The entry has been counted or waits for its line. -/
def Holds (cfg : ReporterSetup) (s : Reporter) (e : Entry) : Prop :=
  e.index.toNat < 2 ^ 32 ∧
    (HasHits cfg s e ∨ ⟨e.index, e.hits⟩ ∈ s.pendingFiles e.lineId)

section Steps

variable {cfg : ReporterSetup} {s t : Reporter} {e : Entry}

theorem HasHits.grows (h : HasHits cfg s e) (hgrows : ∀ r, (s.counts r).Grows (t.counts r)) :
    HasHits cfg t e := by
  obtain ⟨ref, p, hid, hget, hne⟩ := h
  obtain ⟨q, hq, hqne⟩ := hgrows ref _ p hget hne
  exact ⟨ref, q, hid, hq, hqne⟩

theorem HitKeeps.grows {addr hits : U64} (h : HitKeeps cfg s addr hits) (hwf : s.WellFormed cfg)
    (r : LineRef) : (s.counts r).Grows ((s.onAddressHit cfg addr hits).counts r) := by
  by_cases hr : r ∈ s.addrToLine addr
  · intro i p hget hne
    refine ⟨_, by rw [counts_hit_eq_map hwf hits hr, List.getElem?_map, hget]; rfl, ?_⟩
    dsimp only
    by_cases hp : p.1 = addr
    · rw [if_pos hp]
      dsimp only
      split
      · simp
      next hshot => exact h.resolve_left hshot r hr p (List.mem_of_getElem? hget) hp hne
    · rw [if_neg hp]
      exact hne
  · rw [(onAddressHit_step hwf addr hits).counts_hit hwf, if_neg hr]
    exact Counts.Grows.refl _

/-- Loading an entry that is kept. -/
theorem EntryKept.holds (h : EntryKept cfg s e) (hhits : e.hits ≠ 0) (hwf : s.WellFormed cfg) :
    (∀ r, (s.counts r).Grows ((loadEntry cfg s e).counts r)) ∧
      (∀ id, s.pendingFiles id ⊆ (loadEntry cfg s e).pendingFiles id) ∧
      Holds cfg (loadEntry cfg s e) e := by
  by_cases haddr : s.addrToLine e.addr = []
  · cases hid : s.lineIdToFile e.lineId with
    | none =>
      rw [loadEntry_pending hhits haddr hid]
      refine ⟨fun r => Counts.Grows.refl _, fun id p hp => ?_, h.index, Or.inr ?_⟩
      · dsimp only
        rw [Function.update_apply]
        split
        next heq => exact List.mem_append_left _ (heq ▸ hp)
        next => exact hp
      · simp
    | some ref =>
      have htakes := h.line haddr ref hid
      have hcounts := @counts_loadEntry_line cfg s e hhits haddr ref hid
      have hpending : (loadEntry cfg s e).pendingFiles = s.pendingFiles := by
        rw [loadEntry_line hhits haddr hid]
        exact (modifyLine_links _ _ _).pendingFiles
      refine ⟨fun r => ?_, fun id => hpending ▸ List.Subset.refl _, h.index, Or.inl ?_⟩
      · rw [hcounts]
        split
        next hr => exact hr ▸ htakes.grows
        next => exact Counts.Grows.refl _
      · obtain ⟨q, hq, hqne⟩ := htakes.bump
        refine ⟨ref, q, (hwf.lineIdToFile _ _ hid).1, ?_, hqne⟩
        rw [hcounts, if_pos rfl, hq]
  · obtain ⟨hkeeps, ref, href, hid, p, hget, hp, hne⟩ := h.known haddr
    rw [loadEntry_known hhits haddr]
    refine ⟨hkeeps.grows hwf, fun id => ?_, h.index, Or.inl ⟨ref, _, hid, by
      rw [counts_hit_eq_map hwf e.hits href, List.getElem?_map, hget]; rfl, ?_⟩⟩
    · rw [(onAddressHit_step hwf e.addr e.hits).pendingFiles]
      exact List.Subset.refl _
    · dsimp only
      rw [if_pos hp]
      dsimp only
      split
      · simp
      next hshot => exact hne.resolve_left hshot

theorem Holds.mono (h : Holds cfg s e) (hgrows : ∀ r, (s.counts r).Grows (t.counts r))
    (hpending : ∀ id, s.pendingFiles id ⊆ t.pendingFiles id) : Holds cfg t e :=
  ⟨h.1, h.2.imp (fun hhits => hhits.grows hgrows) fun hwait => hpending _ hwait⟩

theorem LoadKeeps.holds {es : List Entry} (h : LoadKeeps cfg s es) (hwf : s.WellFormed cfg) :
    ∀ e ∈ es, e.hits ≠ 0 → Holds cfg (es.foldl (loadEntry cfg) s) e := by
  induction es using List.reverseRecOn with
  | nil => simp
  | append_singleton es e ih =>
    obtain ⟨hes, he⟩ := Runs.allSteps_snoc.mp h
    have hwf' := (foldl_loadEntry_frame hwf es).wellFormed
    intro e' he' hhits'
    rw [List.foldl_append, List.foldl_cons, List.foldl_nil]
    by_cases hhits : e.hits = 0
    · rw [loadEntry_zero hhits]
      rcases List.mem_append.mp he' with he' | he'
      · exact ih hes e' he' hhits'
      · rw [List.mem_singleton.mp he'] at hhits'
        exact absurd hhits hhits'
    · obtain ⟨hgrows, hpending, hself⟩ := (he hhits).holds hhits hwf'
      rcases List.mem_append.mp he' with he' | he'
      · exact (ih hes e' he' hhits').mono hgrows hpending
      · rw [List.mem_singleton.mp he']
        exact hself

end Steps

/-! ### Runs that lose nothing -/

section Runs

variable {cfg : ReporterSetup} {data : List Byte} {evs : List Event} {s t : Reporter}

/-- What a run leaves once the database `data` may have been loaded. -/
structure Retained (cfg : ReporterSetup) (data : List Byte) (s : Reporter) : Prop where
  wellFormed : s.WellFormed cfg
  loaded : s.unmarshallingDone = true → ∀ e ∈ databaseEntries data, e.hits ≠ 0 → Holds cfg s e
  known : ∀ id, (s.lineIdToFile id).isSome → s.pendingFiles id = []

theorem known_loadEntry {e : Entry} (h : ∀ id, (s.lineIdToFile id).isSome → s.pendingFiles id = [])
    (hwf : s.WellFormed cfg) (id : U64) (hid : ((loadEntry cfg s e).lineIdToFile id).isSome) :
    (loadEntry cfg s e).pendingFiles id = [] := by
  rw [(loadEntry_frame hwf e).lineIdToFile] at hid
  by_cases hhits : e.hits = 0
  · rw [loadEntry_zero hhits]
    exact h id hid
  by_cases haddr : s.addrToLine e.addr = []
  · cases hline : s.lineIdToFile e.lineId with
    | none =>
      rw [loadEntry_pending hhits haddr hline]
      dsimp only
      rw [Function.update_apply, if_neg]
      · exact h id hid
      · rintro rfl
        simp [hline] at hid
    | some ref =>
      rw [loadEntry_line hhits haddr hline, (modifyLine_links _ _ _).pendingFiles]
      exact h id hid
  · rw [loadEntry_known hhits haddr, (onAddressHit_step hwf e.addr e.hits).pendingFiles]
    exact h id hid

theorem known_foldl_loadEntry (h : ∀ id, (s.lineIdToFile id).isSome → s.pendingFiles id = [])
    (hwf : s.WellFormed cfg) (es : List Entry) :
    ∀ id, ((es.foldl (loadEntry cfg) s).lineIdToFile id).isSome →
      (es.foldl (loadEntry cfg) s).pendingFiles id = [] := by
  induction es generalizing s with
  | nil => exact h
  | cons e es ih => exact ih (known_loadEntry h hwf) (loadEntry_frame hwf e).wellFormed

theorem unmarshallingDone_onFile (h : s.onFile cfg = some t) : t.unmarshallingDone = true := by
  rw [onFile] at h
  split at h
  next hdone => exact Option.some.inj h ▸ hdone
  next =>
    split at h
    · split at h
      · cases h
        rfl
      · simp only [Option.bind_eq_bind, Option.bind_eq_some_iff, Option.pure_def,
          Option.some.injEq] at h
        obtain ⟨u, -, rfl⟩ := h
        rfl
    · cases h
      rfl

theorem Retained.file (h : Retained cfg data s) (hclean : cfg.cleanOutput = false)
    (hdata : cfg.database = some data) (hheader : unMarshalHeader cfg data = some true)
    (hkeeps : StepKeeps cfg s .file) (hstep : s.onFile cfg = some t) : Retained cfg data t := by
  rw [onFile] at hstep
  cases hdone : s.unmarshallingDone with
  | true =>
    simp only [hdone, if_true, Option.some.injEq] at hstep
    exact hstep ▸ h
  | false =>
    simp only [hdone, Bool.false_eq_true, if_false, hclean, Bool.not_false, if_true, hdata,
      Option.bind_eq_bind, Option.bind_eq_some_iff, Option.pure_def, Option.some.injEq,
      Prod.exists] at hstep
    obtain ⟨u, ok, hload, rfl⟩ := hstep
    obtain ⟨hfound, hu⟩ := unMarshal_eq_some hload
    rw [hheader, Option.some_inj] at hfound
    rw [← hfound, if_pos rfl] at hu
    subst hu
    exact ⟨(foldl_loadEntry_frame h.wellFormed _).wellFormed.congr rfl rfl rfl rfl rfl,
      fun _ => (hkeeps hdone data hdata).holds h.wellFormed,
      known_foldl_loadEntry h.known h.wellFormed _⟩

theorem Retained.line (h : Retained cfg data s) {ref : LineRef} {a : U64}
    (hkeeps : ((s.counts ref).add a).TakesAll (s.pendingFiles (cfg.lineId ref)))
    (hstep : LineStep cfg s ref a t) : Retained cfg data t := by
  obtain ⟨hgrows, hplaces⟩ := hkeeps.replay
  have hcounts : ∀ r, (s.counts r).Grows (t.counts r) := by
    intro r
    by_cases hr : r = ref
    · rw [hr, hstep.counts_self]
      exact (Counts.grows_add _ a).trans hgrows
    · rw [hstep.counts_other hr]
      exact Counts.Grows.refl _
  refine ⟨hstep.wellFormed, fun hdone e he hhits => ?_, fun id hid => ?_⟩
  · obtain ⟨hindex, hholds⟩ := h.loaded (hstep.unmarshallingDone ▸ hdone) e he hhits
    refine ⟨hindex, ?_⟩
    rcases hholds with hplace | hwait
    · exact Or.inl (hplace.grows hcounts)
    · by_cases hid : e.lineId = cfg.lineId ref
      · rw [hid] at hwait
        obtain ⟨q, hq, hqne⟩ := hplaces _ hwait
        exact Or.inl ⟨ref, q, hid.symm, by rw [hstep.counts_self, hq], hqne⟩
      · rw [hstep.pendingFiles, Function.update_apply, if_neg hid]
        exact Or.inr hwait
  · rw [hstep.lineIdToFile, Function.update_apply] at hid
    rw [hstep.pendingFiles, Function.update_apply]
    split
    · rfl
    next hne => exact h.known id (by rwa [if_neg hne] at hid)

theorem Retained.hit (h : Retained cfg data s) {a hits : U64} (hkeeps : HitKeeps cfg s a hits) :
    Retained cfg data (s.onAddressHit cfg a hits) := by
  have hstep := onAddressHit_step h.wellFormed a hits
  refine ⟨hstep.wellFormed, fun hdone e he hhits => ?_, fun id hid => ?_⟩
  · refine (h.loaded (hstep.unmarshallingDone ▸ hdone) e he hhits).mono
      (hkeeps.grows h.wellFormed) fun id => ?_
    rw [hstep.pendingFiles]
    exact List.Subset.refl _
  · rw [hstep.lineIdToFile] at hid
    rw [hstep.pendingFiles]
    exact h.known id hid

/-- A run whose steps lose nothing. -/
def RunKeeps (cfg : ReporterSetup) (evs : List Event) : Prop :=
  Runs.AllSteps (fun pre ev => ∀ s, run cfg pre = some s → StepKeeps cfg s ev) evs

theorem retained_run (hclean : cfg.cleanOutput = false) (hdata : cfg.database = some data)
    (hheader : unMarshalHeader cfg data = some true) (hkeeps : RunKeeps cfg evs)
    (hrun : run cfg evs = some s) :
    Retained cfg data s ∧ (.file ∈ evs → s.unmarshallingDone = true) := by
  induction evs using List.reverseRecOn generalizing s with
  | nil =>
    cases hrun
    exact ⟨⟨wellFormed_create cfg, by simp [create], fun _ _ => rfl⟩, by simp⟩
  | append_singleton evs ev ih =>
    obtain ⟨hpre, hlast⟩ := Runs.allSteps_snoc.mp hkeeps
    obtain ⟨s₀, hs₀, hstep⟩ := run_snoc_eq_some hrun
    obtain ⟨h, hdone⟩ := ih hpre hs₀
    have hkeep := hlast s₀ hs₀
    cases ev with
    | file =>
      exact ⟨h.file hclean hdata hheader hkeep hstep, fun _ => unmarshallingDone_onFile hstep⟩
    | line f n a =>
      cases hf : cfg.runFilters f with
      | false =>
        rw [step, onLine_filtered hf, Option.some.injEq] at hstep
        exact hstep ▸ ⟨h, fun hmem => hdone (by simpa using hmem)⟩
      | true =>
        have hline := onLine_eq_some h.wellFormed ⟨f, n⟩ hf hstep
        refine ⟨h.line (hkeep hf) hline, fun hmem => ?_⟩
        rw [hline.unmarshallingDone]
        exact hdone (by simpa using hmem)
    | hit a hits =>
      rw [step, Option.some.injEq] at hstep
      subst hstep
      refine ⟨h.hit hkeep, fun hmem => ?_⟩
      rw [(onAddressHit_step h.wellFormed a hits).unmarshallingDone]
      exact hdone (by simpa using hmem)

end Runs

theorem counts_ne_nil_iff {cfg : ReporterSetup} {evs : List Event} {s : Reporter}
    (hrun : run cfg evs = some s) (ref : LineRef) :
    s.counts ref ≠ [] ↔ evs.any (registers cfg ref) = true := by
  rw [← addressesOf_ne_nil, ← (run_frame hrun).2 ref, ne_eq, ne_eq, List.map_eq_nil_iff]

/-- Once the line of an entry is found, its hits no longer wait. -/
theorem Retained.hasHits {cfg : ReporterSetup} {data : List Byte} {evs : List Event} {s : Reporter}
    (h : Retained cfg data s) (hdone : s.unmarshallingDone = true) (hrun : run cfg evs = some s)
    {e : Entry} (he : e ∈ databaseEntries data) (hhits : e.hits ≠ 0) {ref : LineRef}
    (hid : cfg.lineId ref = e.lineId) (hreg : evs.any (registers cfg ref) = true) :
    HasHits cfg s e := by
  apply (h.loaded hdone e he hhits).2.resolve_right
  intro hwait
  have hcounts := (counts_ne_nil_iff hrun ref).mpr hreg
  obtain ⟨p, hp⟩ := List.exists_mem_of_ne_nil _ hcounts
  obtain ⟨i, hi⟩ := List.mem_iff_getElem?.mp hp
  obtain ⟨line, hline, haddrs⟩ := line?_of_counts hi
  have hknown := h.wellFormed.registered ref line hline (haddrs ▸ hcounts)
  rw [h.known e.lineId (hid ▸ hknown)] at hwait
  simp at hwait

/-- If no step loses hits, every stored hit is in the database of the later run if and only if the
line of each one is found during the run. -/
theorem stored_hits_kept_iff (cfg : ReporterSetup) (hclean : cfg.cleanOutput = false)
    (data : List Byte) (hdata : cfg.database = some data)
    (hheader : unMarshalHeader cfg data = some true) (evs : List Event) (hload : .file ∈ evs)
    {s : Reporter} (hrun : run cfg evs = some s) (hkeeps : RunKeeps cfg evs) (it : IterationOrder) :
    (∀ e ∈ databaseEntries data, e.hits ≠ 0 → ∃ e' ∈ databaseEntries (s.marshal cfg it),
      e'.lineId = e.lineId ∧ e'.index = e.index ∧ e'.hits ≠ 0) ↔
    ∀ e ∈ databaseEntries data, e.hits ≠ 0 →
      ∃ ref, cfg.lineId ref = e.lineId ∧ evs.any (registers cfg ref) = true := by
  obtain ⟨h, hdone⟩ := retained_run hclean hdata hheader hkeeps hrun
  have hmem := @mem_databaseEntries cfg s it h.wellFormed (run_sized hrun).1
  apply forall₃_congr
  intro e he hhits
  constructor
  · rintro ⟨e', he', hid, -, hhits'⟩
    obtain ⟨ref, href⟩ := hmem.mp ⟨he', hhits'⟩
    obtain ⟨i, p, hget, -, rfl⟩ := mem_entriesOf.mp href
    refine ⟨ref, hid, (counts_ne_nil_iff hrun ref).mp ?_⟩
    exact List.ne_nil_of_mem (List.mem_of_getElem? hget)
  · rintro ⟨ref, hid, hreg⟩
    have hindex := (h.loaded (hdone hload) e he hhits).1
    obtain ⟨ref', p, hid', hget, hne⟩ := h.hasHits (hdone hload) hrun he hhits hid hreg
    have hentry := hmem.mpr ⟨ref', mem_entriesOf.mpr ⟨e.index.toNat, p, hget, hne, rfl⟩⟩
    refine ⟨_, hentry.1, hid', ?_, hentry.2⟩
    apply BitVec.eq_of_toNat_eq
    simp
    omega

/-! ### A database with one entry -/

/-- One hit of the first address of the first line of `/a`. -/
def oneEntry : Entry := ⟨16, compiledSetup.lineId ⟨ascii "/a", 1⟩, 0, 1⟩

def oneEntryData : List Byte := marshalHeader compiledSetup ++ oneEntry.encode

def oneEntrySetup : ReporterSetup := compiledSetup.reload oneEntryData

theorem databaseEntries_oneEntryData : databaseEntries oneEntryData = [oneEntry] := by
  decide

theorem oneEntry_loaded : ∃ s, run oneEntrySetup [.file] = some s ∧
    Reloaded oneEntrySetup [oneEntry] [] s := by
  obtain ⟨s, hs, h⟩ := @reloaded_run compiledSetup [] oneEntryData (by decide) (by simp)
    (by simp) fun _ _ _ _ _ _ h => by simp at h
  rw [databaseEntries_oneEntryData] at h
  exact ⟨s, hs, h⟩

theorem runKeeps_oneEntry : RunKeeps oneEntrySetup [.file, .line (ascii "/a") 1 16] := by
  refine Runs.allSteps_snoc.mpr ⟨Runs.allSteps_snoc.mpr ⟨Runs.allSteps_nil, ?_⟩, ?_⟩
  · rintro s hs - data hdata
    cases hs
    cases hdata
    rw [databaseEntries_oneEntryData]
    refine Runs.allSteps_snoc.mpr ⟨Runs.allSteps_nil, fun _ => ⟨by decide, ?_, ?_⟩⟩
    · exact fun h => absurd rfl h
    · exact fun _ ref h => by simp [create] at h
  · intro s hs _
    obtain ⟨s', hs', h⟩ := oneEntry_loaded
    obtain rfl : s = s' := Option.some.inj (hs.symm.trans hs')
    rw [h.counts, h.unknown _ (by simp)]
    exact ⟨⟨(16, 0), rfl, by decide⟩, trivial⟩

/-- The entry is kept when its line is found. -/
theorem stored_hits_kept_one : ∃ s,
    run oneEntrySetup [.file, .line (ascii "/a") 1 16] = some s ∧
      ∃ e' ∈ databaseEntries (s.marshal oneEntrySetup foundOrder),
        e'.lineId = oneEntry.lineId ∧ e'.index = oneEntry.index ∧ e'.hits ≠ 0 := by
  refine ⟨_, rfl, (stored_hits_kept_iff oneEntrySetup rfl oneEntryData rfl (by decide)
    [.file, .line (ascii "/a") 1 16] (by simp) rfl runKeeps_oneEntry foundOrder).mpr
    (fun e he _ => ?_) oneEntry (by rw [databaseEntries_oneEntryData]; simp) (by decide)⟩
  rw [databaseEntries_oneEntryData, List.mem_singleton] at he
  exact ⟨⟨ascii "/a", 1⟩, by rw [he]; rfl, by decide⟩

/-- Without its line it is lost. -/
theorem not_stored_hits_kept_unparsed : unMarshalHeader oneEntrySetup oneEntryData = some true ∧
    oneEntry ∈ databaseEntries oneEntryData ∧ oneEntry.hits ≠ 0 ∧
    ∃ s, run oneEntrySetup [.file] = some s ∧
      ¬∃ e' ∈ databaseEntries (s.marshal oneEntrySetup foundOrder),
        e'.lineId = oneEntry.lineId ∧ e'.index = oneEntry.index ∧ e'.hits ≠ 0 := by
  obtain ⟨s, hs, h⟩ := oneEntry_loaded
  refine ⟨by decide, by rw [databaseEntries_oneEntryData]; simp, by decide, s, hs, ?_⟩
  rintro ⟨e', he', -, -, hhits⟩
  obtain ⟨ref, href⟩ := (mem_databaseEntries h.wellFormed h.sized).mp ⟨he', hhits⟩
  rw [h.counts] at href
  simp [addressesOf, reloadedCounts, entriesOf] at href

end Reporter

end Kcov
