import Kcov.Reporter.Accumulation

/-! The reporter of a compiled program without stored hits: which addresses of each line were hit,
and the counts that follow from them. -/

namespace Kcov

open Bytes

/-! ### The hit addresses of a line -/

namespace Reporter

/-- The addresses of the line at `ref` and those of them that have been hit, after one more event. -/
def addHitOf (cfg : ReporterSetup) (ref : LineRef) (st : List U64 × List U64) (ev : Event) :
    List U64 × List U64 :=
  (addAddressOf cfg ref st.1 ev,
    match ev with
    | .hit a _ => if a ∈ st.1 ∧ a ∉ st.2 then st.2 ++ [a] else st.2
    | _ => st.2)

/-- The addresses that were hit after they had been registered with the line at `ref`, each once. -/
def hitAddressesOf (cfg : ReporterSetup) (ref : LineRef) (evs : List Event) : List U64 :=
  (evs.foldl (addHitOf cfg ref) ([], [])).2

section Hits

variable {cfg : ReporterSetup} {ref : LineRef} {evs : List Event} {ev : Event} {a hits : U64}

theorem foldl_addHitOf (evs : List Event) :
    evs.foldl (addHitOf cfg ref) ([], []) = (addressesOf cfg ref evs, hitAddressesOf cfg ref evs) := by
  have hfst : (evs.foldl (addHitOf cfg ref) ([], [])).1 = addressesOf cfg ref evs := by
    induction evs using List.reverseRecOn with
    | nil => rfl
    | append_singleton evs ev ih =>
      rw [List.foldl_append, List.foldl_cons, List.foldl_nil, addressesOf_snoc, ← ih]
      rfl
  exact Prod.ext hfst rfl

theorem hitAddressesOf_hit (evs : List Event) (a hits : U64) :
    hitAddressesOf cfg ref (evs ++ [.hit a hits]) =
      if a ∈ addressesOf cfg ref evs ∧ a ∉ hitAddressesOf cfg ref evs
      then hitAddressesOf cfg ref evs ++ [a] else hitAddressesOf cfg ref evs := by
  rw [hitAddressesOf, List.foldl_append, foldl_addHitOf]
  rfl

theorem hitAddressesOf_snoc (hev : ∀ a hits, ev ≠ .hit a hits) :
    hitAddressesOf cfg ref (evs ++ [ev]) = hitAddressesOf cfg ref evs := by
  rw [hitAddressesOf, List.foldl_append, foldl_addHitOf]
  cases ev with
  | hit a hits => exact absurd rfl (hev a hits)
  | _ => rfl

theorem mem_hitAddressesOf_hit {b : U64} : b ∈ hitAddressesOf cfg ref (evs ++ [.hit a hits]) ↔
    b ∈ hitAddressesOf cfg ref evs ∨ (b = a ∧ a ∈ addressesOf cfg ref evs) := by
  rw [hitAddressesOf_hit]
  split
  next h => simp [h.1]
  next h =>
    refine (or_iff_left_of_imp ?_).symm
    rintro ⟨rfl, hmem⟩
    by_contra hnot
    exact h ⟨hmem, hnot⟩

theorem line_mem_of_addressesOf {a : U64} (h : a ∈ addressesOf cfg ref evs) :
    Event.line ref.file ref.lineNr a ∈ evs := by
  induction evs using List.reverseRecOn with
  | nil => cases h
  | append_singleton evs ev ih =>
    rw [addressesOf_snoc] at h
    cases ev with
    | line f n b =>
      rw [addAddressOf] at h
      split at h
      next hreg =>
        rcases List.mem_append.mp h with h | h
        · exact List.mem_append_left _ (ih h)
        · simp only [registers, Bool.and_eq_true, decide_eq_true_eq] at hreg
          obtain ⟨⟨⟨-, rfl⟩, rfl⟩, -⟩ := hreg
          rw [List.mem_singleton.mp h]
          exact List.mem_append_right _ List.mem_cons_self
      next => exact List.mem_append_left _ (ih h)
    | _ => exact List.mem_append_left _ (ih h)

theorem nodup_addressesOf : (addressesOf cfg ref evs).Nodup := by
  induction evs using List.reverseRecOn with
  | nil => exact List.nodup_nil
  | append_singleton evs ev ih =>
    rw [addressesOf_snoc]
    cases ev with
    | line f n a =>
      rw [addAddressOf]
      split
      next h =>
        rw [Bool.and_eq_true, decide_eq_true_eq] at h
        exact (List.perm_append_singleton a _).nodup_iff.mpr (List.nodup_cons.mpr ⟨h.2, ih⟩)
      next => exact ih
    | _ => exact ih

theorem nodup_hitAddressesOf : (hitAddressesOf cfg ref evs).Nodup := by
  induction evs using List.reverseRecOn with
  | nil => exact List.nodup_nil
  | append_singleton evs ev ih =>
    cases ev with
    | hit a hits =>
      rw [hitAddressesOf_hit]
      split
      next h =>
        exact (List.perm_append_singleton a _).nodup_iff.mpr (List.nodup_cons.mpr ⟨h.2, ih⟩)
      next => exact ih
    | _ =>
      rw [hitAddressesOf_snoc (by simp)]
      exact ih

theorem addressesOf_subset_snoc (ev : Event) :
    addressesOf cfg ref evs ⊆ addressesOf cfg ref (evs ++ [ev]) := by
  intro a ha
  rw [addressesOf_snoc]
  cases ev with
  | line f n b =>
    rw [addAddressOf]
    split
    · exact List.mem_append_left _ ha
    · exact ha
  | _ => exact ha

theorem hitAddressesOf_subset : hitAddressesOf cfg ref evs ⊆ addressesOf cfg ref evs := by
  induction evs using List.reverseRecOn with
  | nil => exact List.Subset.refl _
  | append_singleton evs ev ih =>
    intro b hb
    apply addressesOf_subset_snoc
    cases ev with
    | hit a hits =>
      rcases mem_hitAddressesOf_hit.mp hb with hb | ⟨rfl, ha⟩
      · exact ih hb
      · exact ha
    | _ =>
      rw [hitAddressesOf_snoc (by simp)] at hb
      exact ih hb

theorem hitAddressesOf_eq_nil (h : evs.any (registers cfg ref) = false) :
    hitAddressesOf cfg ref evs = [] := by
  have hnil : addressesOf cfg ref evs = [] := by
    by_contra hne
    rw [addressesOf_ne_nil.mp hne] at h
    simp at h
  have hsub := @hitAddressesOf_subset cfg ref evs
  rwa [hnil, List.subset_nil] at hsub

end Hits

/-! ### The counts of a run without stored hits -/

/-- The counts of the line at `ref`. -/
def countsOf (cfg : ReporterSetup) (ref : LineRef) (evs : List Event) : Counts :=
  (addressesOf cfg ref evs).map fun a => (a, if a ∈ hitAddressesOf cfg ref evs then 1 else 0)

theorem total_countsOf (cfg : ReporterSetup) (ref : LineRef) (evs : List Event) :
    (countsOf cfg ref evs).total = BitVec.ofNat 32 (hitAddressesOf cfg ref evs).length := by
  have hsum : ∀ as : List U64, ((as.map fun a =>
      ((a, if a ∈ hitAddressesOf cfg ref evs then 1 else 0) : U64 × U32)).map Prod.snd).sum =
        BitVec.ofNat 32 (as.filter (· ∈ hitAddressesOf cfg ref evs)).length := by
    intro as
    induction as with
    | nil => rfl
    | cons a as ih =>
      rw [List.map_cons, List.map_cons, List.sum_cons, ih, List.filter_cons]
      by_cases ha : a ∈ hitAddressesOf cfg ref evs
      · simp only [ha, if_true, decide_true, List.length_cons]
        rw [BitVec.ofNat_add, BitVec.add_comm]
        rfl
      · simp [ha]
  have hperm : ((addressesOf cfg ref evs).filter (· ∈ hitAddressesOf cfg ref evs)).Perm
      (hitAddressesOf cfg ref evs) := by
    refine (List.perm_ext_iff_of_nodup (nodup_addressesOf.filter _) nodup_hitAddressesOf).mpr
      fun a => ?_
    rw [List.mem_filter, decide_eq_true_eq]
    exact and_iff_right_of_imp fun ha => hitAddressesOf_subset ha
  rw [countsOf, Counts.total, hsum, hperm.length_eq]

/-- Lines of different files that share an address have different numbers. -/
def SharersDistinct (cfg : ReporterSetup) (evs : List Event) : Prop :=
  ∀ f n g m a, Event.line f n a ∈ evs → Event.line g m a ∈ evs →
    cfg.lineId ⟨f, n⟩ = cfg.lineId ⟨g, m⟩ → f = g

/-- What a run without stored hits leaves in the reporter of a compiled program. -/
structure CompiledState (cfg : ReporterSetup) (evs : List Event) (s : Reporter) : Prop where
  wellFormed : s.WellFormed cfg
  noPending : ∀ id, s.pendingFiles id = []
  counts : ∀ r, s.counts r = countsOf cfg r evs
  addrToLine : ∀ r, ∀ a ∈ addressesOf cfg r evs, r ∈ s.addrToLine a
  code : ∀ r line, s.line? r = some line → cfg.excluded r = false → line.addrs ≠ []

section Compiled

variable {cfg : ReporterSetup} {evs : List Event} {s t : Reporter} {ref : LineRef} {a : U64}

theorem FilesDistinct.sharers (h : FilesDistinct cfg evs) : SharersDistinct cfg evs :=
  fun f n g m a hf hg => h f n a g m a hf hg

theorem SharersDistinct.mono {evs' : List Event} (h : SharersDistinct cfg evs)
    (hsub : evs' ⊆ evs) : SharersDistinct cfg evs' :=
  fun f n g m a hf hg => h f n g m a (hsub hf) (hsub hg)

theorem map_fst_countsOf : (countsOf cfg ref evs).map Prod.fst = addressesOf cfg ref evs := by
  rw [countsOf, List.map_map]
  exact List.map_id' _

/-- Every line that is not excluded has an address. -/
theorem LineStep.code (hstep : LineStep cfg s ref a t)
    (h : ∀ r line, s.line? r = some line → cfg.excluded r = false → line.addrs ≠ [])
    (r : LineRef) (line : Line) (hline : t.line? r = some line) (hex : cfg.excluded r = false) :
    line.addrs ≠ [] := by
  by_cases hr : r = ref
  · subst hr
    rw [hstep.line_self, Option.some.injEq] at hline
    rw [← hline]
    apply ne_nil_of_mem_addresses (a := a)
    rw [(replay_frame _ _).2.2]
    exact Line.mem_addresses_addAddress
  · rw [hstep.line_other r hr] at hline
    split at hline
    · simp [ReporterSetup.freshLine, hex] at hline
    · exact h r line hline hex

theorem HitStep.code {hits : U64} (hstep : HitStep cfg s a hits (s.addrToLine a) t)
    (hwf : s.WellFormed cfg)
    (h : ∀ r line, s.line? r = some line → cfg.excluded r = false → line.addrs ≠ [])
    (r : LineRef) (line : Line) (hline : t.line? r = some line) (hex : cfg.excluded r = false) :
    line.addrs ≠ [] := by
  obtain ⟨line₀, hline₀⟩ := Option.isSome_iff_exists.mp
    ((hstep.isSome r).symm.trans (by rw [hline]; rfl))
  have hne := h r line₀ hline₀ hex
  have hfst := hstep.map_fst_counts hwf r
  rw [counts_eq hline, counts_eq hline₀] at hfst
  rintro hnil
  rw [hnil, List.map_nil, eq_comm, List.map_eq_nil_iff] at hfst
  exact hne hfst

theorem countsOf_line (hfilter : cfg.runFilters ref.file = true) (r : LineRef) :
    countsOf cfg r (evs ++ [.line ref.file ref.lineNr a]) =
      if r = ref then (countsOf cfg ref evs).add a else countsOf cfg r evs := by
  rw [countsOf, hitAddressesOf_snoc (by simp), addressesOf_snoc, addAddressOf_line hfilter]
  by_cases hr : r = ref
  · subst hr
    rw [if_pos rfl, if_pos rfl, Counts.add, map_fst_countsOf]
    by_cases ha : a ∈ addressesOf cfg r evs
    · simp [ha, countsOf]
    · have hnot : a ∉ hitAddressesOf cfg r evs := fun h => ha (hitAddressesOf_subset h)
      simp [ha, hnot, countsOf]
  · rw [if_neg hr, if_neg hr]
    rfl

theorem countsOf_hit (hits : U64) : countsOf cfg ref (evs ++ [.hit a hits]) =
    (countsOf cfg ref evs).map fun p => if p.1 = a then (a, 1) else p := by
  rw [countsOf, addressesOf_snoc, countsOf, List.map_map]
  apply List.map_congr_left
  intro b hb
  have hb' : b ∈ addressesOf cfg ref evs := hb
  have hmem := @mem_hitAddressesOf_hit cfg ref evs a hits b
  simp only [Function.comp_apply, Prod.ext_iff]
  by_cases hba : b = a
  · subst hba
    simp [hmem, hb']
  · simp [hmem, hba]

theorem CompiledState.registers_of_mem (h : CompiledState cfg evs s) (hr : ref ∈ s.addrToLine a) :
    a ∈ addressesOf cfg ref evs := by
  obtain ⟨line, hline, ha⟩ := h.wellFormed.addrToLine a ref hr
  rw [← map_fst_countsOf, ← h.counts, counts_eq hline]
  exact ha

theorem CompiledState.filtered (h : CompiledState cfg evs s) {f : Text} {n : U32} {a : U64}
    (hfilter : cfg.runFilters f = false) : CompiledState cfg (evs ++ [.line f n a]) s := by
  have haddr : ∀ r, addressesOf cfg r (evs ++ [.line f n a]) = addressesOf cfg r evs := by
    intro r
    rw [addressesOf_snoc, addAddressOf_filtered hfilter]
  have hhits : ∀ r, hitAddressesOf cfg r (evs ++ [.line f n a]) = hitAddressesOf cfg r evs :=
    fun r => hitAddressesOf_snoc (by simp)
  refine ⟨h.wellFormed, h.noPending, fun r => ?_, fun r b hb => ?_, h.code⟩
  · rw [h.counts, countsOf, countsOf, haddr, hhits]
  · exact h.addrToLine r b (haddr r ▸ hb)

theorem CompiledState.line (h : CompiledState cfg evs s)
    (hids : SharersDistinct cfg (evs ++ [.line ref.file ref.lineNr a]))
    (hfilter : cfg.runFilters ref.file = true) (hstep : LineStep cfg s ref a t) :
    CompiledState cfg (evs ++ [.line ref.file ref.lineNr a]) t := by
  refine ⟨hstep.wellFormed, fun id => ?_, fun r => ?_, fun r b hb => ?_, hstep.code h.code⟩
  · rw [hstep.pendingFiles, Function.update_apply, h.noPending, ite_self]
  · rw [countsOf_line hfilter]
    by_cases hr : r = ref
    · rw [hr, if_pos rfl, hstep.counts_self, h.noPending, h.counts]
      rfl
    · rw [if_neg hr, hstep.counts_other hr, h.counts]
  · have hold : ∀ b, s.addrToLine b ⊆ t.addrToLine b := by
      intro b r hr
      rw [hstep.addrToLine]
      split
      · exact hr
      · rw [Function.update_apply]
        split
        next hb => exact List.mem_append_left _ (hb ▸ hr)
        next => exact hr
    have hself : ref ∈ t.addrToLine a := by
      rw [hstep.addrToLine]
      split
      next hdup =>
        obtain ⟨r', hr', hid⟩ := List.any_eq_true.mp hdup
        have hline := line_mem_of_addressesOf (h.registers_of_mem hr')
        have hfile := hids _ _ ref.file ref.lineNr a (List.mem_append_left _ hline) (by simp)
          (beq_iff_eq.mp hid)
        obtain ⟨f, n⟩ := ref
        obtain ⟨g, m⟩ := r'
        obtain rfl : g = f := hfile
        obtain rfl : m = n := makeId_inj (beq_iff_eq.mp hid)
        exact hr'
      next => simp
    rw [← map_fst_countsOf, countsOf_line hfilter] at hb
    by_cases hr : r = ref
    · rw [if_pos hr, Counts.map_fst_add, map_fst_countsOf] at hb
      split at hb
      · exact hold b (hr ▸ h.addrToLine ref b hb)
      · rcases List.mem_append.mp hb with hb | hb
        · exact hold b (hr ▸ h.addrToLine ref b hb)
        · rw [hr, List.mem_singleton.mp hb]
          exact hself
    · rw [if_neg hr, map_fst_countsOf] at hb
      exact hold b (h.addrToLine r b hb)

theorem CompiledState.hit (h : CompiledState cfg evs s) (hshot : cfg.singleShot = true)
    (a hits : U64) : CompiledState cfg (evs ++ [.hit a hits]) (s.onAddressHit cfg a hits) := by
  have hstep := onAddressHit_step h.wellFormed a hits
  refine ⟨hstep.wellFormed, fun id => ?_, fun r => ?_, fun r b hb => ?_,
    hstep.code h.wellFormed h.code⟩
  · rw [hstep.pendingFiles]
    exact h.noPending id
  · rw [countsOf_hit, ← h.counts]
    by_cases hr : r ∈ s.addrToLine a
    · rw [counts_hit_eq_map h.wellFormed hits hr, hshot]
      rfl
    · rw [hstep.counts_hit h.wellFormed, if_neg hr, List.map_congr_left (g := id), List.map_id]
      intro p hp
      refine if_neg fun hpa => hr ?_
      apply h.addrToLine r a
      rw [← hpa, ← map_fst_countsOf, ← h.counts]
      exact List.mem_map_of_mem hp
  · rw [hstep.addrToLine]
    exact h.addrToLine r b (by rwa [addressesOf_snoc] at hb)

theorem compiledState_create : CompiledState cfg [] (create cfg) :=
  ⟨wellFormed_create cfg, fun _ => rfl, fun _ => rfl, fun _ _ h => by simp [addressesOf] at h,
    fun _ _ h => by simp [create, line?] at h⟩

/-- A run that loads nothing and stays inside the vectors. -/
theorem compiledState_run (hshot : cfg.singleShot = true) (hids : SharersDistinct cfg evs)
    (hevs : Event.file ∉ evs) (hadmits : ∀ ev ∈ evs, Admits cfg ev) :
    ∃ s, run cfg evs = some s ∧ CompiledState cfg evs s := by
  induction evs using List.reverseRecOn with
  | nil => exact ⟨create cfg, rfl, compiledState_create⟩
  | append_singleton evs ev ih =>
    obtain ⟨s, hs, h⟩ := ih (hids.mono (List.subset_append_left _ _))
      (fun hmem => hevs (List.mem_append_left _ hmem))
      (fun ev hev => hadmits ev (List.mem_append_left _ hev))
    cases ev with
    | file => simp at hevs
    | line f n a =>
      obtain ⟨t, ht, -⟩ := onLine_isSome (run_sized hs).1 (hadmits (.line f n a) (by simp))
      refine ⟨t, by rw [run_snoc, hs]; exact ht, ?_⟩
      cases hf : cfg.runFilters f with
      | false =>
        rw [onLine_filtered hf, Option.some.injEq] at ht
        exact ht ▸ h.filtered hf
      | true =>
        exact @CompiledState.line cfg evs s t ⟨f, n⟩ a h hids hf
          (onLine_eq_some h.wellFormed ⟨f, n⟩ hf ht)
    | hit a hits => exact ⟨_, by rw [run_snoc, hs]; rfl, h.hit hshot a hits⟩

/-- The hits of a line that is not excluded are the addresses that were hit. -/
theorem CompiledState.hits (h : CompiledState cfg evs s) (ref : LineRef) :
    (s.getLineExecutionCount cfg ref.file ref.lineNr).hits = if cfg.excluded ref then 0
      else BitVec.ofNat 32 (hitAddressesOf cfg ref evs).length := by
  rw [hits_eq h.wellFormed, h.counts, total_countsOf]

/-- A line that is not excluded is code if and only if it has an address. -/
theorem lineIsCode_eq (hwf : s.WellFormed cfg)
    (hcode : ∀ r line, s.line? r = some line → cfg.excluded r = false → line.addrs ≠ [])
    (ref : LineRef) :
    s.lineIsCode ref.file ref.lineNr = (!cfg.excluded ref && !(s.counts ref).isEmpty) := by
  have hlook : s.lineIsCode ref.file ref.lineNr =
      (s.line? ref).any fun line => !line.unreachable := by
    cases hfile : s.files ref.file with
    | none => simp [lineIsCode, line?, hfile]
    | some file =>
      simp only [lineIsCode, line?, hfile, Option.bind_some, File.lineIsCode]
      cases file.getLine ref.lineNr <;> rfl
  rw [hlook]
  cases hline : s.line? ref with
  | none => simp [counts, hline]
  | some line =>
    rw [Option.any_some, hwf.unreachable ref line hline, counts_eq hline]
    cases hex : cfg.excluded ref with
    | true => rfl
    | false =>
      have hne := hcode ref line hline hex
      cases haddrs : line.addrs with
      | nil => exact absurd haddrs hne
      | cons _ _ => rfl

end Compiled

end Reporter

end Kcov
