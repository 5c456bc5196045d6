import Kcov.Reporter.Stored

/-! The counts of a compiled program: each address is hit at most once, also where stored hits wait
for their lines. -/

namespace Kcov

open Bytes

namespace Counts

/-- Each address was hit at most once. -/
def Limited (cs : Counts) : Prop := ∀ p ∈ cs, p.2 = 0 ∨ p.2 = 1

variable {cs : Counts}

theorem limited_nil : Limited [] := fun _ h => by simp at h

theorem Limited.add (h : cs.Limited) (addr : U64) : (cs.add addr).Limited := by
  intro p hp
  rw [Counts.add] at hp
  split at hp
  · exact h p hp
  · rcases List.mem_append.mp hp with hp | hp
    · exact h p hp
    · exact Or.inl (by rw [List.mem_singleton.mp hp])

theorem Limited.hit (h : cs.Limited) (addr : U64) :
    Limited (cs.map fun p => if p.1 = addr then (addr, 1) else p) := by
  intro q hq
  obtain ⟨p, hp, rfl⟩ := List.mem_map.mp hq
  split
  · exact Or.inr rfl
  · exact h p hp

theorem Limited.total_eq (h : cs.Limited) :
    cs.total = BitVec.ofNat 32 (cs.countP fun p => p.2 ≠ 0) := by
  induction cs with
  | nil => rfl
  | cons p cs ih =>
    obtain ⟨hp, hcs⟩ := List.forall_mem_cons.mp h
    have htail := ih hcs
    unfold Counts.total at htail ⊢
    rw [List.map_cons, List.sum_cons, htail, List.countP_cons]
    rcases hp with hp | hp
    · simp [hp]
    · simp [hp, BitVec.ofNat_add, BitVec.add_comm]

theorem Limited.total_le (h : cs.Limited) (hlen : cs.length < 2 ^ 32) :
    cs.total ≤ BitVec.ofNat 32 cs.length := by
  have hcount := List.countP_le_length (p := fun p : U64 × U32 => decide (p.2 ≠ 0)) (l := cs)
  rw [h.total_eq, BitVec.le_def, BitVec.toNat_ofNat, BitVec.toNat_ofNat, Nat.mod_eq_of_lt hlen,
    Nat.mod_eq_of_lt (by omega)]
  exact hcount

end Counts

namespace Reporter

/-! ### Pending hits -/

/-- The hits that wait for the line with the number `id` once `es` are loaded. -/
def waiting (es : List Entry) (id : U64) : List PendingFileAddress :=
  (es.filter fun e => e.lineId = id).map fun e => ⟨e.index, e.hits⟩

/-- The hits among them that belong to the first address of the line. -/
def firstHits (pending : List PendingFileAddress) : U32 :=
  ((pending.filter fun p => p.index = 0).map fun p => p.hits.setWidth 32).sum

section Pending

variable {cfg : ReporterSetup} {s : Reporter}

/-- In a reporter without lines all hits have to wait. -/
theorem foldl_loadEntry_empty (haddr : ∀ a, s.addrToLine a = []) (hid : ∀ id, s.lineIdToFile id = none)
    (es : List Entry) : es.foldl (loadEntry cfg) s = { s with
      pendingFiles := fun id => s.pendingFiles id ++ waiting (es.filter fun e => e.hits ≠ 0) id } := by
  induction es generalizing s with
  | nil => simp [waiting]
  | cons e es ih =>
    rw [List.foldl_cons]
    by_cases hhits : e.hits = 0
    · rw [loadEntry_zero hhits, ih haddr hid]
      simp [hhits]
    · rw [loadEntry_pending hhits (haddr e.addr) (hid e.lineId)]
      refine (ih (by exact haddr) (by exact hid)).trans ?_
      congr 1
      funext id
      dsimp only
      rw [Function.update_apply, List.filter_cons_of_pos (by simpa using hhits), waiting, waiting,
        List.filter_cons]
      by_cases h : id = e.lineId
      · subst h
        simp
      · simp [h, Ne.symm h]

/-- A line with one address takes only the hits of its first address. -/
theorem replay_singleton (pending : List PendingFileAddress) (a : U64) (c : U32) :
    Counts.replay pending [(a, c)] = [(a, c + firstHits pending)] := by
  induction pending generalizing c with
  | nil => simp [Counts.replay, firstHits]
  | cons p pending ih =>
    rw [Counts.replay, List.foldl_cons]
    change Counts.replay pending _ = _
    by_cases hp : p.index = 0
    · have hbump : Counts.bump [(a, c)] p.index p.hits = [(a, c + p.hits.setWidth 32)] := by
        simp [Counts.bump, hp]
      rw [hbump, ih, firstHits, firstHits, List.filter_cons_of_pos (by simpa using hp), List.map_cons,
        List.sum_cons, BitVec.add_assoc]
    · have hbump : Counts.bump [(a, c)] p.index p.hits = [(a, c)] := by
        have hpos : p.index.toNat ≠ 0 := fun h => hp (BitVec.eq_of_toNat_eq h)
        rw [Counts.bump, List.modify_eq_self (by simpa using Nat.one_le_iff_ne_zero.mpr hpos)]
      rw [hbump, ih, firstHits, firstHits, List.filter_cons_of_neg (by simpa using hp)]

end Pending

/-! ### One run -/

/-- What holds in a run that has loaded a database before its first line: the hits that wait for a
line come to at most one for its first address, and they are gone once it has one. -/
structure LimitedState (cfg : ReporterSetup) (s : Reporter) : Prop where
  counts : ∀ ref, (s.counts ref).Limited
  pending : ∀ id, firstHits (s.pendingFiles id) = 0 ∨ firstHits (s.pendingFiles id) = 1
  known : ∀ ref, s.counts ref ≠ [] → s.pendingFiles (cfg.lineId ref) = []

section Run

variable {cfg : ReporterSetup} {s t : Reporter} {ref : LineRef} {a : U64}

theorem LimitedState.line (h : LimitedState cfg s) (hstep : LineStep cfg s ref a t) :
    LimitedState cfg t := by
  have hself : (t.counts ref).Limited := by
    rw [hstep.counts_self]
    by_cases hnil : s.counts ref = []
    · rw [hnil]
      change (Counts.replay _ [(a, 0)]).Limited
      rw [replay_singleton]
      intro p hp
      rw [List.mem_singleton.mp hp]
      simpa using h.pending (cfg.lineId ref)
    · rw [h.known ref hnil]
      exact (h.counts ref).add a
  refine ⟨fun r => ?_, fun id => ?_, fun r hr => ?_⟩
  · by_cases hr : r = ref
    · exact hr ▸ hself
    · rw [hstep.counts_other hr]
      exact h.counts r
  · rw [hstep.pendingFiles, Function.update_apply]
    split
    · exact Or.inl rfl
    · exact h.pending id
  · rw [hstep.pendingFiles, Function.update_apply]
    split
    · rfl
    next hid =>
      rw [hstep.counts_other (fun heq => hid (by rw [heq]))] at hr
      exact h.known r hr

theorem LimitedState.hit (h : LimitedState cfg s) (hwf : s.WellFormed cfg)
    (hshot : cfg.singleShot = true) (a hits : U64) :
    LimitedState cfg (s.onAddressHit cfg a hits) := by
  have hstep := onAddressHit_step hwf a hits
  refine ⟨fun r => ?_, fun id => ?_, fun r hr => ?_⟩
  · by_cases hr : r ∈ s.addrToLine a
    · rw [counts_hit_eq_map hwf hits hr, hshot]
      exact (h.counts r).hit a
    · rw [hstep.counts_hit hwf, if_neg hr]
      exact h.counts r
  · rw [hstep.pendingFiles]
    exact h.pending id
  · rw [hstep.pendingFiles]
    refine h.known r fun hnil => hr ?_
    have hfst := hstep.map_fst_counts hwf r
    rwa [hnil, List.map_nil, List.map_eq_nil_iff] at hfst

theorem limited_calls {evs : List Event} (hshot : cfg.singleShot = true)
    (hevs : Event.file ∉ evs) (hwf : s.WellFormed cfg) (h : LimitedState cfg s)
    (hrun : evs.foldlM (step cfg) s = some t) : LimitedState cfg t := by
  induction evs generalizing s with
  | nil =>
    cases hrun
    exact h
  | cons ev evs ih =>
    rw [List.foldlM_cons, Option.bind_eq_bind, Option.bind_eq_some_iff] at hrun
    obtain ⟨u, hu, hrun⟩ := hrun
    have hwf' := (step_frame hwf hu).1
    rw [List.mem_cons, not_or] at hevs
    refine ih hevs.2 hwf' ?_ hrun
    cases ev with
    | file => exact absurd rfl hevs.1
    | line f n a =>
      cases hf : cfg.runFilters f with
      | false =>
        rw [step, onLine_filtered hf, Option.some.injEq] at hu
        exact hu ▸ h
      | true => exact h.line (onLine_eq_some hwf ⟨f, n⟩ hf hu)
    | hit a hits =>
      rw [step, Option.some.injEq] at hu
      exact hu ▸ h.hit hwf hshot a hits

end Run

end Reporter

end Kcov
