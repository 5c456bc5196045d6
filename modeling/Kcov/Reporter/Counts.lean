import Kcov.Reporter.Steps
import Kcov.Reporter.Unmarshal
import Mathlib.Data.BitVec

/-! The counts of the addresses of each line, and what a run of a reporter does to them. -/

namespace Kcov

open Bytes

/-- The addresses of a line with their counts. -/
abbrev Counts := List (U64 × U32)

namespace Counts

def add (cs : Counts) (addr : U64) : Counts :=
  if addr ∈ cs.map Prod.fst then cs else cs ++ [(addr, 0)]

def bump (cs : Counts) (index hits : U64) : Counts :=
  cs.modify index.toNat fun p => (p.1, p.2 + hits.setWidth 32)

def replay (pending : List PendingFileAddress) (cs : Counts) : Counts :=
  pending.foldl (fun cs p => cs.bump p.index p.hits) cs

def total (cs : Counts) : U32 := (cs.map Prod.snd).sum

theorem map_fst_add (cs : Counts) (addr : U64) : (cs.add addr).map Prod.fst =
    if addr ∈ cs.map Prod.fst then cs.map Prod.fst else cs.map Prod.fst ++ [addr] := by
  rw [add]
  split <;> simp

theorem map_fst_bump (cs : Counts) (index hits : U64) :
    (cs.bump index hits).map Prod.fst = cs.map Prod.fst := by
  apply List.ext_getElem?
  intro i
  simp only [bump, List.getElem?_map, List.getElem?_modify]
  split
  · cases cs[i]? <;> rfl
  · simp

theorem map_fst_replay (pending : List PendingFileAddress) (cs : Counts) :
    (replay pending cs).map Prod.fst = cs.map Prod.fst := by
  induction pending generalizing cs with
  | nil => rfl
  | cons p pending ih => exact (ih _).trans (map_fst_bump cs p.index p.hits)

end Counts

namespace Line

variable {l : Line}

theorem addrs_addAddress (l : Line) (addr : U64) :
    (l.addAddress addr).addrs = Counts.add l.addrs addr := by
  rw [addAddress, Counts.add]
  split <;> rfl

theorem addrs_registerHitIndex (l : Line) (index hits : U64) :
    (l.registerHitIndex index hits).addrs = Counts.bump l.addrs index hits := by
  rw [registerHitIndex, Counts.bump]
  split
  next h => rw [List.modify_eq_self h]
  next => rfl

theorem hits_eq_total (l : Line) : l.hits = Counts.total l.addrs := by
  have hfold : ∀ (cs : Counts) (n : U32),
      cs.foldl (fun out p => out + p.2) n = n + (cs.map Prod.snd).sum := by
    intro cs
    induction cs with
    | nil => simp
    | cons p cs ih =>
      intro n
      rw [List.foldl_cons, ih, List.map_cons, List.sum_cons, BitVec.add_assoc]
  rw [hits, hfold, Counts.total, show (0 : U32) = 0#32 from rfl, BitVec.zero_add]

theorem updateFirst_eq_map {addr : U64} {count : U32 → U32} {cs : Counts}
    (hnodup : (cs.map Prod.fst).Nodup) (hmem : addr ∈ cs.map Prod.fst) :
    updateFirst addr count cs = cs.map fun p => if p.1 = addr then (addr, count p.2) else p := by
  induction cs with
  | nil => simp at hmem
  | cons p cs ih =>
    rw [List.map_cons, List.nodup_cons] at hnodup
    rw [updateFirst, List.map_cons]
    by_cases hp : p.1 = addr
    · rw [if_pos hp, if_pos hp, List.map_congr_left (g := id), List.map_id]
      intro q hq
      rw [if_neg, id]
      rintro rfl
      exact hnodup.1 (hp ▸ List.mem_map_of_mem hq)
    · rw [if_neg hp, if_neg hp, ih hnodup.2]
      simpa [Ne.symm hp] using hmem

end Line

namespace Reporter

theorem addrs_replay (pending : List PendingFileAddress) (line : Line) :
    (replay pending line).addrs = Counts.replay pending line.addrs := by
  induction pending generalizing line with
  | nil => rfl
  | cons p pending ih =>
    rw [Counts.replay, List.foldl_cons, ← Line.addrs_registerHitIndex]
    exact ih _

/-- The counts of the line at `ref`, or none. -/
def counts (s : Reporter) (ref : LineRef) : Counts := ((s.line? ref).map Line.addrs).getD []

section Steps

variable {cfg : ReporterSetup} {s t : Reporter} {ref r : LineRef} {addr : U64}

theorem counts_eq {line : Line} (h : s.line? ref = some line) : s.counts ref = line.addrs := by
  rw [counts, h, Option.map_some, Option.getD_some]

theorem line?_of_counts {p : U64 × U32} {i : Nat} (h : (s.counts ref)[i]? = some p) :
    ∃ line, s.line? ref = some line ∧ line.addrs = s.counts ref := by
  cases hline : s.line? ref with
  | none => simp [counts, hline] at h
  | some line => exact ⟨line, rfl, (counts_eq hline).symm⟩

/-- The count of a line that is not excluded is the sum over its addresses. -/
theorem hits_eq (hwf : s.WellFormed cfg) (ref : LineRef) :
    (s.getLineExecutionCount cfg ref.file ref.lineNr).hits =
      if cfg.excluded ref then 0 else (s.counts ref).total := by
  rw [getLineExecutionCount]
  cases hline : s.line? ref with
  | none => simp [counts, hline, Counts.total]
  | some line =>
    simp only [← hwf.unreachable ref line hline, counts_eq hline]
    split
    · rfl
    · exact line.hits_eq_total

theorem LineStep.other {line : Line} (hstep : LineStep cfg s ref addr t) (hr : r ≠ ref)
    (hline : s.line? r = some line) : t.line? r = some line := by
  rw [hstep.line_other r hr, if_neg, hline]
  rintro ⟨hfile, hnone⟩
  simp [line?, hfile, hnone] at hline

theorem LineStep.counts_self (hstep : LineStep cfg s ref addr t) : t.counts ref =
    Counts.replay (s.pendingFiles (cfg.lineId ref)) ((s.counts ref).add addr) := by
  rw [counts_eq hstep.line_self, addrs_replay, Line.addrs_addAddress, baseLine, counts]
  cases s.line? ref <;> rfl

theorem LineStep.counts_other (hstep : LineStep cfg s ref addr t) (hr : r ≠ ref) :
    t.counts r = s.counts r := by
  rw [counts, counts, hstep.line_other r hr]
  split
  next hnew =>
    have hnone : s.line? r = none := by simp [line?, hnew.1, hnew.2]
    rw [hnone, ReporterSetup.freshLine]
    split <;> rfl
  next => rfl

theorem HitStep.counts_hit {hits : U64} (hstep : HitStep cfg s addr hits (s.addrToLine addr) t)
    (hwf : s.WellFormed cfg) (r : LineRef) : t.counts r =
      if r ∈ s.addrToLine addr then Line.updateFirst addr
        (fun c => if cfg.singleShot then 1 else c + hits.setWidth 32) (s.counts r)
      else s.counts r := by
  cases hline : s.line? r with
  | none =>
    have hnot : r ∉ s.addrToLine addr := by
      intro hr
      obtain ⟨line, hsome, -⟩ := hwf.addrToLine addr r hr
      simp [hline] at hsome
    have hnone : t.line? r = none := by
      rw [← Option.not_isSome_iff_eq_none, hstep.isSome, hline]
      simp
    rw [if_neg hnot, counts, counts, hline, hnone]
  | some line =>
    obtain ⟨order, ht⟩ := hstep.line r line hline
    rw [counts_eq ht, counts_eq hline]
    split <;> rfl

theorem HitStep.map_fst_counts {hits : U64}
    (hstep : HitStep cfg s addr hits (s.addrToLine addr) t) (hwf : s.WellFormed cfg)
    (r : LineRef) : (t.counts r).map Prod.fst = (s.counts r).map Prod.fst := by
  rw [hstep.counts_hit hwf]
  split
  next hr =>
    obtain ⟨line, hline, ha⟩ := hwf.addrToLine addr r hr
    exact Line.map_fst_updateFirst (counts_eq hline ▸ ha)
  next => rfl

/-- The counts of a line at one of whose addresses there is a hit. -/
theorem counts_hit_eq_map (hwf : s.WellFormed cfg) {addr : U64} (hits : U64) {r : LineRef}
    (hr : r ∈ s.addrToLine addr) : (s.onAddressHit cfg addr hits).counts r =
      (s.counts r).map fun p => if p.1 = addr
        then (addr, if cfg.singleShot then 1 else p.2 + hits.setWidth 32) else p := by
  obtain ⟨line, hline, ha⟩ := hwf.addrToLine addr r hr
  rw [(onAddressHit_step hwf addr hits).counts_hit hwf, if_pos hr, Line.updateFirst_eq_map]
  · rw [counts_eq hline]
    exact hwf.addresses r line hline
  · rw [counts_eq hline]
    exact ha

end Steps

/-! ### Taking in stored hits -/

section Load

variable {cfg : ReporterSetup} {s : Reporter} {e : Entry}

/-- What taking in an entry leaves alone. -/
structure LoadFrame (cfg : ReporterSetup) (s t : Reporter) : Prop where
  wellFormed : t.WellFormed cfg
  addrToLine : t.addrToLine = s.addrToLine
  lineIdToFile : t.lineIdToFile = s.lineIdToFile
  addresses : ∀ r, (t.counts r).map Prod.fst = (s.counts r).map Prod.fst

theorem loadEntry_zero (hhits : e.hits = 0) : loadEntry cfg s e = s := if_pos hhits

theorem loadEntry_known (hhits : e.hits ≠ 0) (haddr : s.addrToLine e.addr ≠ []) :
    loadEntry cfg s e = s.onAddressHit cfg e.addr e.hits := by
  rw [loadEntry, if_neg hhits]
  cases h : s.addrToLine e.addr with
  | nil => exact absurd h haddr
  | cons _ _ => rfl

theorem loadEntry_pending (hhits : e.hits ≠ 0) (haddr : s.addrToLine e.addr = [])
    (hid : s.lineIdToFile e.lineId = none) : loadEntry cfg s e = { s with
      pendingFiles := Function.update s.pendingFiles e.lineId
        (s.pendingFiles e.lineId ++ [⟨e.index, e.hits⟩]) } := by
  simp only [loadEntry, if_neg hhits, haddr, hid]

theorem loadEntry_line (hhits : e.hits ≠ 0) (haddr : s.addrToLine e.addr = []) {ref : LineRef}
    (hid : s.lineIdToFile e.lineId = some ref) : loadEntry cfg s e =
      (s.notify (.onAddress e.lineId e.hits)).modifyLine ref
        fun line => line.registerHitIndex e.index e.hits := by
  simp only [loadEntry, if_neg hhits, haddr, hid]

theorem counts_loadEntry_line (hhits : e.hits ≠ 0) (haddr : s.addrToLine e.addr = [])
    {ref : LineRef} (hid : s.lineIdToFile e.lineId = some ref) (r : LineRef) :
    (loadEntry cfg s e).counts r =
      if r = ref then (s.counts ref).bump e.index e.hits else s.counts r := by
  rw [loadEntry_line hhits haddr hid, counts, line?_modifyLine]
  split
  next hr =>
    subst hr
    show (((s.line? r).map _).map Line.addrs).getD [] = _
    cases hline : s.line? r with
    | none => simp [counts, hline, Counts.bump]
    | some line => exact (line.addrs_registerHitIndex _ _).trans (by rw [counts_eq hline])
  next => rfl

theorem loadEntry_frame (hwf : s.WellFormed cfg) (e : Entry) :
    LoadFrame cfg s (loadEntry cfg s e) := by
  by_cases hhits : e.hits = 0
  · rw [loadEntry_zero hhits]
    exact ⟨hwf, rfl, rfl, fun _ => rfl⟩
  by_cases haddr : s.addrToLine e.addr = []
  · cases hid : s.lineIdToFile e.lineId with
    | none =>
      rw [loadEntry_pending hhits haddr hid]
      exact ⟨hwf.congr rfl rfl rfl rfl rfl, rfl, rfl, fun _ => rfl⟩
    | some ref =>
      have hcounts := @counts_loadEntry_line cfg s e hhits haddr ref hid
      rw [loadEntry_line hhits haddr hid] at hcounts ⊢
      have hlinks := modifyLine_links (s.notify (.onAddress e.lineId e.hits)) ref
        fun line => line.registerHitIndex e.index e.hits
      have hwf' : (s.notify (.onAddress e.lineId e.hits)).WellFormed cfg :=
        hwf.congr rfl rfl rfl rfl rfl
      refine ⟨hwf'.modifyCounts ref fun line _ => ⟨Line.lineId_registerHitIndex,
        Line.unreachable_registerHitIndex, Line.addresses_registerHitIndex⟩, hlinks.addrToLine,
        hlinks.lineIdToFile, fun r => ?_⟩
      rw [hcounts]
      split
      next hr => rw [Counts.map_fst_bump, hr]
      next => rfl
  · rw [loadEntry_known hhits haddr]
    have hstep := onAddressHit_step hwf e.addr e.hits
    exact ⟨hstep.wellFormed, hstep.addrToLine, hstep.lineIdToFile, hstep.map_fst_counts hwf⟩

theorem foldl_loadEntry_frame (hwf : s.WellFormed cfg) (es : List Entry) :
    LoadFrame cfg s (es.foldl (loadEntry cfg) s) := by
  induction es generalizing s with
  | nil => exact ⟨hwf, rfl, rfl, fun _ => rfl⟩
  | cons e es ih =>
    have hone := loadEntry_frame hwf e
    have hrest := ih hone.wellFormed
    exact ⟨hrest.wellFormed, hrest.addrToLine.trans hone.addrToLine,
      hrest.lineIdToFile.trans hone.lineIdToFile,
      fun r => (hrest.addresses r).trans (hone.addresses r)⟩

theorem onFile_frame (hwf : s.WellFormed cfg) {t : Reporter} (h : s.onFile cfg = some t) :
    LoadFrame cfg s t := by
  have hsame : LoadFrame cfg s { s with unmarshallingDone := true } :=
    ⟨hwf.congr rfl rfl rfl rfl rfl, rfl, rfl, fun _ => rfl⟩
  rw [onFile] at h
  split at h
  · cases h
    exact ⟨hwf, rfl, rfl, fun _ => rfl⟩
  split at h
  · split at h
    · cases h
      exact hsame
    · simp only [Option.bind_eq_bind, Option.bind_eq_some_iff, Option.pure_def, Option.some.injEq,
        Prod.exists] at h
      obtain ⟨u, ok, hload, rfl⟩ := h
      rw [(unMarshal_eq_some hload).2]
      split
      · obtain ⟨h1, h2, h3, h4⟩ := foldl_loadEntry_frame hwf (databaseEntries _)
        exact ⟨h1.congr rfl rfl rfl rfl rfl, h2, h3, h4⟩
      · exact hsame
  · cases h
    exact hsame

theorem onFile_none (hdb : cfg.database = none) (s : Reporter) :
    s.onFile cfg = some { s with unmarshallingDone := true } := by
  rw [onFile]
  split
  next hdone => rw [← hdone]
  next => split <;> simp [hdb]

end Load

/-! ### Runs -/

/-- The event registers the line at `ref`. -/
def registers (cfg : ReporterSetup) (ref : LineRef) : Event → Bool
  | .line f n _ => cfg.runFilters f && f = ref.file && n = ref.lineNr
  | _ => false

theorem any_registers {cfg : ReporterSetup} {r : LineRef} {evs : List Event} :
    evs.any (registers cfg r) = true ↔
      cfg.runFilters r.file = true ∧ ∃ a, Event.line r.file r.lineNr a ∈ evs := by
  rw [List.any_eq_true]
  constructor
  · rintro ⟨ev, hev, hreg⟩
    cases ev with
    | line f n a =>
      simp only [registers, Bool.and_eq_true, decide_eq_true_eq] at hreg
      obtain ⟨⟨hf, rfl⟩, rfl⟩ := hreg
      exact ⟨hf, a, hev⟩
    | file => cases hreg
    | hit _ _ => cases hreg
  · rintro ⟨hf, a, hev⟩
    exact ⟨_, hev, by simp [registers, hf]⟩

/-- The addresses of the line at `ref` after one more event. -/
def addAddressOf (cfg : ReporterSetup) (ref : LineRef) (as : List U64) (ev : Event) : List U64 :=
  match ev with
  | .line _ _ a => if registers cfg ref ev && a ∉ as then as ++ [a] else as
  | _ => as

/-- The addresses that are registered with the line at `ref`, each once. -/
def addressesOf (cfg : ReporterSetup) (ref : LineRef) (evs : List Event) : List U64 :=
  evs.foldl (addAddressOf cfg ref) []

section Runs

variable {cfg : ReporterSetup} {s t : Reporter} {ref r : LineRef} {addr : U64}

theorem run_snoc (evs : List Event) (ev : Event) :
    run cfg (evs ++ [ev]) = (run cfg evs).bind fun s => s.step cfg ev := by
  simp [run, List.foldlM_append]

theorem run_snoc_eq_some {evs : List Event} {ev : Event} {t : Reporter}
    (h : run cfg (evs ++ [ev]) = some t) : ∃ s, run cfg evs = some s ∧ s.step cfg ev = some t := by
  rw [run_snoc, Option.bind_eq_some_iff] at h
  exact h

theorem registers_line (hfilter : cfg.runFilters r.file = true) (addr : U64) :
    registers cfg ref (.line r.file r.lineNr addr) = decide (ref = r) := by
  obtain ⟨f, n⟩ := ref
  obtain ⟨f', n'⟩ := r
  simp only [registers, hfilter, Bool.true_and, LineRef.mk.injEq, Bool.decide_and, eq_comm]

theorem registers_filtered {f : Text} (hfilter : cfg.runFilters f = false) (n : U32) (addr : U64) :
    registers cfg ref (.line f n addr) = false := by
  simp [registers, hfilter]

theorem any_registers_line (hfilter : cfg.runFilters r.file = true) (addr : U64)
    (evs : List Event) : (evs ++ [Event.line r.file r.lineNr addr]).any (registers cfg ref) =
      (evs.any (registers cfg ref) || decide (ref = r)) := by
  rw [List.any_append, List.any_cons, List.any_nil, Bool.or_false, registers_line hfilter]

theorem any_registers_other {ev : Event} (h : registers cfg ref ev = false) (evs : List Event) :
    (evs ++ [ev]).any (registers cfg ref) = evs.any (registers cfg ref) := by
  rw [List.any_append, List.any_cons, List.any_nil, Bool.or_false, h, Bool.or_false]

theorem addAddressOf_line (hfilter : cfg.runFilters r.file = true) (addr : U64) (as : List U64) :
    addAddressOf cfg ref as (.line r.file r.lineNr addr) =
      if ref = r then if addr ∈ as then as else as ++ [addr] else as := by
  rw [addAddressOf, registers_line hfilter]
  by_cases hr : ref = r
  · simp [hr]
  · simp [hr]

theorem addAddressOf_filtered {f : Text} (hfilter : cfg.runFilters f = false) (n : U32)
    (addr : U64) (as : List U64) : addAddressOf cfg ref as (.line f n addr) = as := by
  rw [addAddressOf, registers_filtered hfilter]
  rfl

theorem addressesOf_snoc (evs : List Event) (ev : Event) :
    addressesOf cfg ref (evs ++ [ev]) = addAddressOf cfg ref (addressesOf cfg ref evs) ev := by
  rw [addressesOf, List.foldl_append]
  rfl

theorem addressesOf_ne_nil {evs : List Event} : addressesOf cfg ref evs ≠ [] ↔
    evs.any (registers cfg ref) = true := by
  induction evs using List.reverseRecOn with
  | nil => simp [addressesOf]
  | append_singleton evs ev ih =>
    rw [addressesOf_snoc, List.any_append, Bool.or_eq_true, ← ih, List.any_cons, List.any_nil,
      Bool.or_false]
    cases ev with
    | line f n a =>
      rw [addAddressOf]
      cases hreg : registers cfg ref (.line f n a) with
      | false => simp
      | true =>
        by_cases hmem : a ∈ addressesOf cfg ref evs
        · simp [hmem, List.ne_nil_of_mem hmem]
        · simp [hmem]
    | _ => simp [addAddressOf, registers]

/-- What a step does to a well-formed reporter, and to the addresses of its lines. -/
theorem step_frame (hwf : s.WellFormed cfg) {ev : Event} (h : s.step cfg ev = some t) :
    t.WellFormed cfg ∧ ∀ r, (t.counts r).map Prod.fst =
      addAddressOf cfg r ((s.counts r).map Prod.fst) ev := by
  cases ev with
  | file =>
    have hframe := onFile_frame hwf h
    exact ⟨hframe.wellFormed, hframe.addresses⟩
  | line f n a =>
    cases hf : cfg.runFilters f with
    | false =>
      rw [step, onLine_filtered hf, Option.some.injEq] at h
      subst h
      exact ⟨hwf, fun r => (addAddressOf_filtered hf n a _).symm⟩
    | true =>
      have hstep := onLine_eq_some hwf ⟨f, n⟩ hf h
      refine ⟨hstep.wellFormed, fun r => ?_⟩
      rw [addAddressOf_line (r := ⟨f, n⟩) hf]
      split
      next hr => rw [hr, hstep.counts_self, Counts.map_fst_replay, Counts.map_fst_add]
      next hr => rw [hstep.counts_other hr]
  | hit a hits =>
    rw [step, Option.some.injEq] at h
    subst h
    have hstep := onAddressHit_step hwf a hits
    exact ⟨hstep.wellFormed, hstep.map_fst_counts hwf⟩

/-- After a run, a line has the addresses that were registered with it. -/
theorem run_frame {evs : List Event} (h : run cfg evs = some s) :
    s.WellFormed cfg ∧ ∀ r, (s.counts r).map Prod.fst = addressesOf cfg r evs := by
  induction evs using List.reverseRecOn generalizing s with
  | nil =>
    cases h
    exact ⟨wellFormed_create cfg, fun _ => rfl⟩
  | append_singleton evs ev ih =>
    obtain ⟨s₀, hs₀, hstep⟩ := run_snoc_eq_some h
    obtain ⟨hwf, haddrs⟩ := ih hs₀
    obtain ⟨hwf', haddrs'⟩ := step_frame hwf hstep
    exact ⟨hwf', fun r => by rw [haddrs', haddrs, addressesOf_snoc]⟩

end Runs

end Reporter

end Kcov
