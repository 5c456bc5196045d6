import Kcov.Reporter.Limited

/-! The hits of a compiled program in a later run that starts with the database of an earlier
one. -/

namespace Kcov

open Bytes

/-- The setup of a run that finds the database `data`. -/
def ReporterSetup.reload (cfg : ReporterSetup) (data : List Byte) : ReporterSetup :=
  { cfg with cleanOutput := false, database := some data }

namespace Reporter

/-! ### Numbers of lines -/

/-- Lines of different files have different numbers. -/
def FilesDistinct (cfg : ReporterSetup) (evs : List Event) : Prop :=
  ∀ f n a g m b, Event.line f n a ∈ evs → Event.line g m b ∈ evs →
    cfg.lineId ⟨f, n⟩ = cfg.lineId ⟨g, m⟩ → f = g

theorem FilesDistinct.mono {cfg : ReporterSetup} {evs evs' : List Event}
    (h : FilesDistinct cfg evs) (hsub : evs' ⊆ evs) : FilesDistinct cfg evs' :=
  fun f n a g m b hf hg => h f n a g m b (hsub hf) (hsub hg)

theorem makeId_inj {hash : U64} {n m : U32} (h : Line.makeId hash n = Line.makeId hash m) :
    n = m := by
  apply BitVec.eq_of_getLsbD_eq
  intro i hi
  have hbit := congrArg (fun x : U64 => x.getLsbD i) h
  simpa [Line.makeId, hi, show i < 64 by omega] using hbit

section Numbers

variable {cfg : ReporterSetup} {evs : List Event} {ref r r' : LineRef}

theorem exists_line_of_registers (h : evs.any (registers cfg r) = true) :
    ∃ a, Event.line r.file r.lineNr a ∈ evs :=
  (any_registers.mp h).2

theorem FilesDistinct.lineId_inj (hids : FilesDistinct cfg evs) (hr : evs.any (registers cfg r) = true)
    (hr' : evs.any (registers cfg r') = true) (h : cfg.lineId r = cfg.lineId r') : r = r' := by
  obtain ⟨a, ha⟩ := exists_line_of_registers hr
  obtain ⟨b, hb⟩ := exists_line_of_registers hr'
  obtain ⟨f, n⟩ := r
  obtain ⟨g, m⟩ := r'
  obtain rfl : f = g := hids _ _ _ _ _ _ ha hb h
  exact congrArg _ (makeId_inj h)

end Numbers

/-! ### The later run -/

/-- The call comes from the parser and is about a line. -/
def isLine : Event → Bool
  | .line _ _ _ => true
  | _ => false

/-- The counts of a line in the later run. -/
def reloadedCounts (pending : List PendingFileAddress) : List U64 → Counts
  | [] => []
  | a :: as => (a, firstHits pending) :: as.map fun a => (a, 0)

/-- What the calls `evs` of the parser leave in a reporter that has loaded `es` before. -/
structure Reloaded (cfg : ReporterSetup) (es : List Entry) (evs : List Event) (t : Reporter) :
    Prop where
  wellFormed : t.WellFormed cfg
  sized : Sized cfg t
  counts : ∀ ref, t.counts ref =
    reloadedCounts (waiting es (cfg.lineId ref)) (addressesOf cfg ref evs)
  known : ∀ ref, evs.any (registers cfg ref) = true → t.pendingFiles (cfg.lineId ref) = []
  unknown : ∀ id, (∀ ref, evs.any (registers cfg ref) = true → cfg.lineId ref ≠ id) →
    t.pendingFiles id = waiting es id

theorem reloadedCounts_add (pending : List PendingFileAddress) {as : List U64} (has : as ≠ [])
    (a : U64) : (reloadedCounts pending as).add a =
      reloadedCounts pending (if a ∈ as then as else as ++ [a]) := by
  obtain ⟨b, as, rfl⟩ := List.exists_cons_of_ne_nil has
  have hfst : (reloadedCounts pending (b :: as)).map Prod.fst = b :: as := by
    simp [reloadedCounts, Function.comp_def]
  rw [Counts.add, hfst]
  split
  · rfl
  · simp [reloadedCounts]

section Later

variable {cfg : ReporterSetup} {es : List Entry} {evs : List Event} {t u : Reporter}

theorem Reloaded.line (h : Reloaded cfg es evs t) {ref : LineRef} {a : U64}
    (hids : FilesDistinct cfg (evs ++ [.line ref.file ref.lineNr a]))
    (hfilter : cfg.runFilters ref.file = true) (hsized : Sized cfg u)
    (hstep : LineStep cfg t ref a u) :
    Reloaded cfg es (evs ++ [.line ref.file ref.lineNr a]) u := by
  have hany : ∀ r, (evs ++ [Event.line ref.file ref.lineNr a]).any (registers cfg r) = true ↔
      evs.any (registers cfg r) = true ∨ r = ref := by
    intro r
    rw [any_registers_line hfilter, Bool.or_eq_true, decide_eq_true_eq]
  refine ⟨hstep.wellFormed, hsized, fun r => ?_, fun r hr => ?_, fun id hid => ?_⟩
  · rw [addressesOf_snoc, addAddressOf_line hfilter]
    by_cases hr : r = ref
    · subst hr
      rw [hstep.counts_self, h.counts, if_pos rfl]
      by_cases hknown : evs.any (registers cfg r) = true
      · rw [h.known r hknown]
        exact reloadedCounts_add _ (addressesOf_ne_nil.mpr hknown) a
      · have hnil : addressesOf cfg r evs = [] := by
          by_contra hne
          exact hknown (addressesOf_ne_nil.mp hne)
        have hwait : t.pendingFiles (cfg.lineId r) = waiting es (cfg.lineId r) := by
          refine h.unknown _ fun r' hr' heq => hknown ?_
          rw [← hids.lineId_inj ((hany r').mpr (Or.inl hr')) ((hany r).mpr (Or.inr rfl)) heq]
          exact hr'
        rw [hnil, hwait]
        exact (replay_singleton _ a 0).trans (by simp [reloadedCounts])
    · rw [hstep.counts_other hr, h.counts, if_neg hr]
  · rw [hstep.pendingFiles, Function.update_apply]
    split
    · rfl
    next hne =>
      refine h.known r (((hany r).mp hr).resolve_right fun heq => hne ?_)
      rw [heq]
  · rw [hstep.pendingFiles, Function.update_apply, if_neg]
    · exact h.unknown id fun r hr => hid r ((hany r).mpr (Or.inl hr))
    · exact fun heq => hid ref ((hany ref).mpr (Or.inr rfl)) heq.symm

/-- A line of a file that is left out changes nothing. -/
theorem Reloaded.filtered (h : Reloaded cfg es evs t) {f : Text} {n : U32} {a : U64}
    (hfilter : cfg.runFilters f = false) : Reloaded cfg es (evs ++ [.line f n a]) t := by
  have hany : ∀ r, (evs ++ [Event.line f n a]).any (registers cfg r) =
      evs.any (registers cfg r) := fun r => any_registers_other (registers_filtered hfilter n a) evs
  have haddr : ∀ r, addressesOf cfg r (evs ++ [.line f n a]) = addressesOf cfg r evs := by
    intro r
    rw [addressesOf_snoc, addAddressOf_filtered hfilter]
  refine ⟨h.wellFormed, h.sized, fun r => ?_, fun r hr => ?_, fun id hid => ?_⟩
  · rw [haddr, h.counts]
  · exact h.known r (hany r ▸ hr)
  · exact h.unknown id fun r hr => hid r ((hany r).symm ▸ hr)

/-- The calls of the parser in the later run. -/
theorem reloaded_lines (ht : Reloaded cfg es [] t) (hlines : ∀ ev ∈ evs, ∃ f n a, ev = .line f n a)
    (hadmits : ∀ ev ∈ evs, Admits cfg ev) (hids : FilesDistinct cfg evs) :
    ∃ u, evs.foldlM (step cfg) t = some u ∧ Reloaded cfg es evs u := by
  induction evs using List.reverseRecOn with
  | nil => exact ⟨t, rfl, ht⟩
  | append_singleton evs ev ih =>
    obtain ⟨u, hu, h⟩ := ih (fun ev hev => hlines ev (List.mem_append_left _ hev))
      (fun ev hev => hadmits ev (List.mem_append_left _ hev))
      (hids.mono (List.subset_append_left _ _))
    obtain ⟨f, n, a, rfl⟩ := hlines ev (by simp)
    obtain ⟨v, hv, hsized⟩ := onLine_isSome h.sized (hadmits (.line f n a) (by simp))
    refine ⟨v, ?_, ?_⟩
    · rw [List.foldlM_append, hu]
      simpa [step] using hv
    · cases hf : cfg.runFilters f with
      | false =>
        rw [onLine_filtered hf, Option.some.injEq] at hv
        exact hv ▸ h.filtered hf
      | true =>
        have hstep := onLine_eq_some h.wellFormed ⟨f, n⟩ hf hv
        exact @Reloaded.line cfg es evs u v h ⟨f, n⟩ a hids hf hsized hstep

/-- What the first file of a later run takes in. -/
theorem onFile_reload {data : List Byte} {found : Bool}
    (hheader : unMarshalHeader cfg data = some found) :
    (create (cfg.reload data)).onFile (cfg.reload data) = some
      { create (cfg.reload data) with
        pendingFiles := if found
          then waiting ((databaseEntries data).filter fun e => e.hits ≠ 0) else fun _ => []
        unmarshallingDone := true } := by
  have hun : (create (cfg.reload data)).unMarshal (cfg.reload data) data =
      some ({ create (cfg.reload data) with
        pendingFiles := if found
          then waiting ((databaseEntries data).filter fun e => e.hits ≠ 0) else fun _ => [] },
        found) := by
    have hfold := @foldl_loadEntry_empty (cfg.reload data) (create (cfg.reload data))
      (fun _ => rfl) (fun _ => rfl) (databaseEntries data)
    have hheader' : unMarshalHeader (cfg.reload data) data = some found := hheader
    rw [unMarshal_eq, hheader', hfold]
    cases found <;> rfl
  rw [onFile]
  simp only [create, ReporterSetup.reload, Bool.false_eq_true, if_false, Bool.not_false, if_true]
  simp only [create, ReporterSetup.reload] at hun
  rw [hun]
  simp

/-- The later run, from the start. -/
theorem reloaded_run {data : List Byte} (hheader : unMarshalHeader cfg data = some true)
    (hlines : ∀ ev ∈ evs, ∃ f n a, ev = .line f n a)
    (hadmits : ∀ ev ∈ evs, Admits cfg ev) (hids : FilesDistinct cfg evs) :
    ∃ u, run (cfg.reload data) (.file :: evs) = some u ∧
      Reloaded (cfg.reload data) ((databaseEntries data).filter fun e => e.hits ≠ 0) evs u := by
  have hload := onFile_reload hheader
  rw [if_pos rfl] at hload
  have hempty : Reloaded (cfg.reload data) ((databaseEntries data).filter fun e => e.hits ≠ 0) []
      { create (cfg.reload data) with
        pendingFiles := waiting ((databaseEntries data).filter fun e => e.hits ≠ 0)
        unmarshallingDone := true } := by
    refine ⟨(wellFormed_create _).congr rfl rfl rfl rfl rfl, fun f size hsize => ?_, fun _ => rfl,
      fun _ h => by simp at h, fun _ _ => rfl⟩
    simp [sizeOf?, create] at hsize
  obtain ⟨u, hu, h⟩ := reloaded_lines hempty hlines hadmits hids
  refine ⟨u, ?_, h⟩
  rw [run, List.foldlM_cons, step, hload]
  exact hu

end Later

/-! ### The earlier run -/

/-- What a run without stored hits leaves for a parser that counts each address once. -/
structure OneShot (s : Reporter) : Prop where
  noPending : ∀ id, s.pendingFiles id = []
  counts : ∀ ref, ∀ p ∈ s.counts ref, p.2 = 0 ∨ p.2 = 1

section Earlier

variable {cfg : ReporterSetup} {evs : List Event} {s t : Reporter}

/-- Without pending hits, the counts are limited as in every run. -/
theorem OneShot.limited (h : OneShot s) : LimitedState cfg s :=
  ⟨h.counts, fun id => by rw [h.noPending]; exact Or.inl rfl, fun ref _ => h.noPending _⟩

theorem OneShot.line (h : OneShot s) {ref : LineRef} {a : U64} (hstep : LineStep cfg s ref a t) :
    OneShot t := by
  refine ⟨fun id => ?_, (h.limited.line hstep).counts⟩
  rw [hstep.pendingFiles, Function.update_apply, h.noPending, ite_self]

theorem OneShot.hit (h : OneShot s) (hwf : s.WellFormed cfg) (hshot : cfg.singleShot = true)
    (a hits : U64) : OneShot (s.onAddressHit cfg a hits) := by
  refine ⟨fun id => ?_, (h.limited.hit hwf hshot a hits).counts⟩
  rw [(onAddressHit_step hwf a hits).pendingFiles]
  exact h.noPending id

theorem oneShot_run (hshot : cfg.singleShot = true) (hevs : Event.file ∉ evs)
    (hrun : run cfg evs = some s) : OneShot s := by
  induction evs using List.reverseRecOn generalizing s with
  | nil =>
    cases hrun
    exact ⟨fun _ => rfl, fun _ _ hp => by simp [counts, create, line?] at hp⟩
  | append_singleton evs ev ih =>
    obtain ⟨s₀, hs₀, hstep⟩ := run_snoc_eq_some hrun
    have h := ih (fun hmem => hevs (List.mem_append_left _ hmem)) hs₀
    have hwf := (run_frame hs₀).1
    cases ev with
    | file => simp at hevs
    | line f n a =>
      cases hf : cfg.runFilters f with
      | false =>
        rw [step, onLine_filtered hf, Option.some.injEq] at hstep
        exact hstep ▸ h
      | true => exact h.line (onLine_eq_some hwf ⟨f, n⟩ hf hstep)
    | hit a hits =>
      rw [step, Option.some.injEq] at hstep
      exact hstep ▸ h.hit hwf hshot a hits

end Earlier

/-! ### Comparing the counts -/

/-- The number of addresses with hits whose index satisfies `keep`. -/
def hitAddresses (keep : Nat → Bool) (cs : Counts) : Nat :=
  cs.zipIdx.countP fun (p, i) => p.2 ≠ 0 && keep i

/-- The index is written as zero. -/
def storedFirst (i : Nat) : Bool := i % 2 ^ 32 = 0

theorem firstHits_entriesOf (id : U64) {cs : Counts} (hcs : ∀ p ∈ cs, p.2 = 0 ∨ p.2 = 1) :
    firstHits ((entriesOf id cs).map fun e => ⟨e.index, e.hits⟩) =
      BitVec.ofNat 32 (hitAddresses storedFirst cs) := by
  have hlist : ∀ l : List ((U64 × U32) × Nat), (∀ x ∈ l, x.1.2 = 0 ∨ x.1.2 = 1) →
      firstHits ((l.filterMap fun (p, i) => if p.2 = 0 then none else some
        (⟨p.1, id, (BitVec.ofNat 32 i).setWidth 64, p.2.signExtend 64⟩ : Entry)).map
          fun e => ⟨e.index, e.hits⟩) =
        BitVec.ofNat 32 (l.countP fun (p, i) => p.2 ≠ 0 && storedFirst i) := by
    intro l hl
    induction l with
    | nil => rfl
    | cons x l ih =>
      obtain ⟨⟨a, c⟩, i⟩ := x
      obtain ⟨hc, hrest⟩ := List.forall_mem_cons.mp hl
      have htail := ih hrest
      rcases hc with rfl | rfl
      · simpa using htail
      · have hindex : (BitVec.ofNat 32 i).setWidth 64 = (0 : U64) ↔ storedFirst i = true := by
          rw [storedFirst, decide_eq_true_eq, ← BitVec.toNat_inj]
          simp
          omega
        have hcons : ∀ g : (U64 × U32) × Nat → Option Entry,
            g ((a, 1), i) = some ⟨a, id, (BitVec.ofNat 32 i).setWidth 64, 1⟩ →
            (((a, 1), i) :: l).filterMap g =
              ⟨a, id, (BitVec.ofNat 32 i).setWidth 64, 1⟩ :: l.filterMap g :=
          fun g hg => List.filterMap_cons_some hg
        rw [hcons _ rfl, List.map_cons, firstHits, List.countP_cons]
        by_cases hi : storedFirst i = true
        · rw [List.filter_cons_of_pos (by simpa using hindex.mpr hi), List.map_cons, List.sum_cons]
          change _ + firstHits _ = _
          rw [htail]
          simp [hi, BitVec.ofNat_add, BitVec.add_comm]
        · rw [List.filter_cons_of_neg (by simpa using fun h => hi (hindex.mp h))]
          change firstHits _ = _
          rw [htail]
          simp [hi]
  exact hlist cs.zipIdx fun x hx => hcs x.1 (List.fst_mem_of_mem_zipIdx hx)

theorem total_eq {cs : Counts} (hcs : ∀ p ∈ cs, p.2 = 0 ∨ p.2 = 1) :
    cs.total = BitVec.ofNat 32 (hitAddresses (fun i => !storedFirst i) cs +
      hitAddresses storedFirst cs) := by
  have hlist : ∀ l : List ((U64 × U32) × Nat), (∀ x ∈ l, x.1.2 = 0 ∨ x.1.2 = 1) →
      ((l.map Prod.fst).map Prod.snd).sum = BitVec.ofNat 32
        ((l.countP fun (p, i) => p.2 ≠ 0 && !storedFirst i) +
          l.countP fun (p, i) => p.2 ≠ 0 && storedFirst i) := by
    intro l hl
    induction l with
    | nil => rfl
    | cons x l ih =>
      obtain ⟨⟨a, c⟩, i⟩ := x
      obtain ⟨hc, hrest⟩ := List.forall_mem_cons.mp hl
      rw [List.map_cons, List.map_cons, List.sum_cons, ih hrest, List.countP_cons, List.countP_cons]
      rcases hc with rfl | rfl
      · simp
      · have hone : ∀ k : Nat, (1 : U32) + BitVec.ofNat 32 k = BitVec.ofNat 32 (k + 1) := by
          intro k
          rw [BitVec.ofNat_add, BitVec.add_comm]
          rfl
        rw [hone]
        congr 1
        cases hi : storedFirst i <;> simp [hi] <;> omega
  have hzip := hlist cs.zipIdx fun x hx => hcs x.1 (List.fst_mem_of_mem_zipIdx hx)
  rw [List.zipIdx_map_fst] at hzip
  exact hzip

theorem total_reloadedCounts (pending : List PendingFileAddress) (as : List U64) :
    (reloadedCounts pending as).total = if as = [] then 0 else firstHits pending := by
  cases as with
  | nil => rfl
  | cons a as =>
    have hzero : ((as.map fun a => ((a, 0) : U64 × U32)).map Prod.snd).sum = 0 := by
      induction as with
      | nil => rfl
      | cons b as ih => simpa using ih
    rw [reloadedCounts, Counts.total, List.map_cons, List.sum_cons, hzero]
    simp

section Compare

variable {cfg : ReporterSetup} {evs : List Event} {s : Reporter}

theorem addressesOf_filter {ref : LineRef} (evs : List Event) :
    addressesOf cfg ref (evs.filter isLine) = addressesOf cfg ref evs := by
  induction evs using List.reverseRecOn with
  | nil => rfl
  | append_singleton evs ev ih =>
    rw [List.filter_append, addressesOf_snoc]
    cases ev with
    | line f n a => rw [← ih]; exact addressesOf_snoc _ _
    | _ => simpa [isLine, addAddressOf] using ih

theorem distinctIds_run (hids : FilesDistinct cfg evs) (hrun : run cfg evs = some s) :
    DistinctIds cfg s := by
  have hreg : ∀ r, s.counts r ≠ [] → evs.any (registers cfg r) = true := by
    intro r hr
    rw [← addressesOf_ne_nil, ← (run_frame hrun).2 r]
    simpa using hr
  exact fun r r' hr hr' h => hids.lineId_inj (hreg r hr) (hreg r' hr') h

/-- The counts in the later run. -/
theorem reloaded_hits (hevs : Event.file ∉ evs) (hshot : cfg.singleShot = true)
    (hids : FilesDistinct cfg evs) (hrun : run cfg evs = some s) (it : IterationOrder) :
    ∃ t, run (cfg.reload (s.marshal cfg it)) (.file :: evs.filter isLine) = some t ∧
      ∀ ref, (t.getLineExecutionCount cfg ref.file ref.lineNr).hits =
        if cfg.excluded ref then 0 else BitVec.ofNat 32 (hitAddresses storedFirst (s.counts ref)) := by
  obtain ⟨hwf, haddrs⟩ := run_frame hrun
  obtain ⟨hsized, hadmits⟩ := run_sized hrun
  have hlines : ∀ ev ∈ evs.filter isLine, ∃ f n a, ev = .line f n a := by
    intro ev hev
    cases ev with
    | line f n a => exact ⟨f, n, a, rfl⟩
    | _ => simp [isLine] at hev
  obtain ⟨t, ht, h⟩ := @reloaded_run cfg (evs.filter isLine) (s.marshal cfg it) unMarshalHeader_marshal
    hlines (fun ev hev => hadmits ev (List.mem_of_mem_filter hev))
    (hids.mono (List.filter_subset_self evs))
  refine ⟨t, ht, fun ref => ?_⟩
  have hsame : addressesOf (cfg.reload (s.marshal cfg it)) ref (evs.filter isLine) =
      (s.counts ref).map Prod.fst := by
    rw [haddrs]
    exact addressesOf_filter evs
  have hcount := hits_eq h.wellFormed ref
  rw [h.counts, filter_databaseEntries hwf hsized, hsame, total_reloadedCounts] at hcount
  refine hcount.trans ?_
  change (if cfg.excluded ref then 0 else _) = _
  split
  · rfl
  split
  next hnil =>
    rw [List.map_eq_nil_iff] at hnil
    rw [hnil]
    rfl
  next hne =>
    rw [List.map_eq_nil_iff] at hne
    rw [waiting]
    change firstHits (((s.entries it).filter fun e => e.lineId = cfg.lineId ref).map _) = _
    rw [filter_entries hwf hsized (distinctIds_run hids hrun) hne]
    exact firstHits_entriesOf _ ((oneShot_run hshot hevs hrun).counts ref)

/-- The counts come back in the later run if and only if the hit addresses whose index is not
stored as zero cancel out in each line. -/
theorem reloads_iff (cfg : ReporterSetup) (hmax : cfg.maxPossibleHits = .limited) (evs : List Event)
    (hevs : Event.file ∉ evs) (hids : FilesDistinct cfg evs) {s : Reporter}
    (hrun : run cfg evs = some s) (it : IterationOrder) :
    (∃ t, run (cfg.reload (s.marshal cfg it)) (.file :: evs.filter isLine) = some t ∧
      ∀ ref : LineRef, (t.getLineExecutionCount cfg ref.file ref.lineNr).hits =
        (s.getLineExecutionCount cfg ref.file ref.lineNr).hits) ↔
      ∀ ref, cfg.excluded ref = false →
        2 ^ 32 ∣ hitAddresses (fun i => !storedFirst i) (s.counts ref) := by
  have hshot : cfg.singleShot = true := by simp [ReporterSetup.singleShot, hmax]
  obtain ⟨t, ht, hlater⟩ := reloaded_hits hevs hshot hids hrun it
  have hearlier : ∀ ref : LineRef, (s.getLineExecutionCount cfg ref.file ref.lineNr).hits =
      if cfg.excluded ref then 0 else BitVec.ofNat 32
        (hitAddresses (fun i => !storedFirst i) (s.counts ref) +
          hitAddresses storedFirst (s.counts ref)) := by
    intro ref
    rw [hits_eq (run_frame hrun).1, total_eq ((oneShot_run hshot hevs hrun).counts ref)]
  have hiff : ∀ ref : LineRef, (t.getLineExecutionCount cfg ref.file ref.lineNr).hits =
      (s.getLineExecutionCount cfg ref.file ref.lineNr).hits ↔ (cfg.excluded ref = false →
        2 ^ 32 ∣ hitAddresses (fun i => !storedFirst i) (s.counts ref)) := by
    intro ref
    rw [hlater, hearlier]
    cases cfg.excluded ref with
    | true => simp
    | false =>
      simp only [Bool.false_eq_true, if_false, forall_const, ← BitVec.toNat_inj, BitVec.toNat_ofNat]
      omega
  constructor
  · rintro ⟨t', ht', h⟩ ref
    obtain rfl : t' = t := Option.some.inj (ht'.symm.trans ht)
    exact (hiff ref).mp (h ref)
  · exact fun h => ⟨t, ht, fun ref => (hiff ref).mpr (h ref)⟩

end Compare

/-! ### A line with two addresses -/

/-- The files in the order in which they were found. -/
def foundOrder : IterationOrder := ⟨id, fun _ => List.Perm.refl _⟩

/-- The first line of `/a` has the addresses 16 and 32, of which `addr` is hit. -/
def hitOne (addr : U64) : List Event :=
  [.line (ascii "/a") 1 16, .line (ascii "/a") 1 32, .hit addr 1]

theorem line_mem_hitOne {addr a : U64} {f : Text} {n : U32} (h : Event.line f n a ∈ hitOne addr) :
    f = ascii "/a" ∧ n = 1 := by
  simp only [hitOne, List.mem_cons, Event.line.injEq, List.not_mem_nil, or_false, reduceCtorEq] at h
  rcases h with ⟨hf, hn, -⟩ | ⟨hf, hn, -⟩ <;> exact ⟨hf, hn⟩

theorem filesDistinct_hitOne (addr : U64) : FilesDistinct compiledSetup (hitOne addr) := by
  intro f n a g m b hf hg _
  rw [(line_mem_hitOne hf).1, (line_mem_hitOne hg).1]

theorem run_hitOne (addr : U64) : ∃ s, run compiledSetup (hitOne addr) = some s := ⟨_, rfl⟩

/-- A hit of the first address comes back. -/
theorem reloads_first_address :
    ∃ s, run compiledSetup (hitOne 16) = some s ∧
      ∃ t, run (compiledSetup.reload (s.marshal compiledSetup foundOrder))
          (.file :: (hitOne 16).filter isLine) = some t ∧
        ∀ ref : LineRef, (t.getLineExecutionCount compiledSetup ref.file ref.lineNr).hits =
          (s.getLineExecutionCount compiledSetup ref.file ref.lineNr).hits := by
  obtain ⟨s, hs⟩ := run_hitOne 16
  refine ⟨s, hs, (reloads_iff compiledSetup rfl (hitOne 16) (by simp [hitOne])
    (filesDistinct_hitOne 16) hs foundOrder).mpr fun ref _ => ?_⟩
  by_cases href : (hitOne 16).any (registers compiledSetup ref) = true
  · obtain ⟨a, ha⟩ := exists_line_of_registers href
    obtain ⟨hf, hn⟩ := line_mem_hitOne ha
    have hcounts : (run compiledSetup (hitOne 16)).map (fun s => s.counts ⟨ascii "/a", 1⟩) =
        some [(16, 1), (32, 0)] := by decide
    rw [hs, Option.map_some, Option.some.injEq] at hcounts
    rw [show ref = ⟨ascii "/a", 1⟩ by rw [← hf, ← hn], hcounts]
    decide
  · have hnil : s.counts ref = [] := by
      rw [← addressesOf_ne_nil, not_not, ← (run_frame hs).2 ref] at href
      simpa using href
    rw [hnil]
    decide

/-- A hit of the second address is lost. -/
theorem not_reloads_second_address :
    FilesDistinct compiledSetup (hitOne 32) ∧
    ∃ s, run compiledSetup (hitOne 32) = some s ∧
      (s.getLineExecutionCount compiledSetup (ascii "/a") 1).hits = 1 ∧
      ∃ t, run (compiledSetup.reload (s.marshal compiledSetup foundOrder))
          (.file :: (hitOne 32).filter isLine) = some t ∧
        (t.getLineExecutionCount compiledSetup (ascii "/a") 1).hits = 0 := by
  obtain ⟨s, hs⟩ := run_hitOne 32
  have hcounts : (run compiledSetup (hitOne 32)).map (fun s => s.counts ⟨ascii "/a", 1⟩) =
      some [(16, 0), (32, 1)] := by decide
  rw [hs, Option.map_some, Option.some.injEq] at hcounts
  obtain ⟨t, ht, hhits⟩ := reloaded_hits (by simp [hitOne]) (by decide)
    (filesDistinct_hitOne 32) hs foundOrder
  refine ⟨filesDistinct_hitOne 32, s, hs, ?_, t, ht, ?_⟩
  · have hearlier := hits_eq (run_frame hs).1 ⟨ascii "/a", 1⟩
    rw [hcounts] at hearlier
    exact hearlier.trans (by decide)
  · have hlater := hhits ⟨ascii "/a", 1⟩
    rw [hcounts] at hlater
    exact hlater.trans (by decide)

end Reporter

end Kcov
