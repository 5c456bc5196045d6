import Mathlib.Data.Set.Function
import Kcov.Lib.Ranking
import Kcov.Lib.Runs
import Kcov.Reporter.Bounds

/-! The order of the lines: which lines are registered by a run, one after the other, and the rank
that each line gets from its first registration. -/

namespace Kcov

open Bytes Ranking

namespace Line

variable {l : Line} {addr index hits : U64} {singleShot : Bool}

theorem order_addAddress : (l.addAddress addr).order = l.order := by
  rw [addAddress]
  split <;> rfl

theorem order_registerHitIndex : (l.registerHitIndex index hits).order = l.order := by
  rw [registerHitIndex]
  split <;> rfl

end Line

namespace Reporter

/-! ### What is registered -/

/-- A call of the parser or of the collector, or of `unMarshal` by itself. -/
inductive Call where
  | event (ev : Event)
  | unMarshal (data : List Byte)
  deriving DecidableEq, Repr

section Registered

variable (cfg : ReporterSetup)

def call (s : Reporter) : Call → Option Reporter
  | .event ev => s.step cfg ev
  | .unMarshal data => (s.unMarshal cfg data).map Prod.fst

/-- The lines for which `onAddressHit` calls `registerHit` while the entries are taken in. -/
def loadRefs : Reporter → List Entry → List LineRef
  | _, [] => []
  | s, e :: es =>
    (if e.hits = 0 then [] else s.addrToLine e.addr) ++ loadRefs (s.loadEntry cfg e) es

def unMarshalRefs (s : Reporter) (data : List Byte) : List LineRef :=
  if unMarshalHeader cfg data = some true then loadRefs cfg s (databaseEntries data) else []

/-- The lines for which `onAddressHit` calls `registerHit` in a call, in this order. -/
def callRefs (s : Reporter) : Call → List LineRef
  | .event .file =>
    match s.unmarshallingDone, cfg.cleanOutput, cfg.database with
    | false, false, some data => unMarshalRefs cfg s data
    | _, _, _ => []
  | .event (.line _ _ _) => []
  | .event (.hit addr _) => s.addrToLine addr
  | .unMarshal data => unMarshalRefs cfg s data

/-- A call, and the lines that are registered before and in it. -/
def callTraced (p : Reporter × List LineRef) (c : Call) : Option (Reporter × List LineRef) :=
  (p.1.call cfg c).map fun t => (t, p.2 ++ p.1.callRefs cfg c)

/-- The reporter after some calls, and the lines that have been registered by then. -/
def runTraced (calls : List Call) : Option (Reporter × List LineRef) :=
  calls.foldlM (callTraced cfg) (create cfg, [])

end Registered

/-! ### The rank of a line -/

/-- The lines have their ranks among the registered ones, and the next rank is known. -/
structure Ranked (trace : List LineRef) (s : Reporter) : Prop where
  known : ∀ ref ∈ trace, (s.line? ref).isSome
  order : s.order = BitVec.ofNat 64 (distinct trace + 1)
  line : ∀ ref line, s.line? ref = some line → line.order = BitVec.ofNat 64 (rank trace ref)

/-- The line objects have addresses of their own. -/
structure Allocated (alloc : LineRef → U64) (s : Reporter) : Prop where
  nonnull : ∀ ref, (s.line? ref).isSome → alloc ref ≠ 0
  injective : ∀ ref ref', (s.line? ref).isSome → (s.line? ref').isSome →
    alloc ref = alloc ref' → ref = ref'

section Ranked

variable {cfg : ReporterSetup} {alloc : LineRef → U64} {trace refs : List LineRef} {s t : Reporter}
variable {addr hits : U64} {ref : LineRef} {line : Line}

theorem Allocated.mono (h : Allocated alloc t)
    (hmono : ∀ ref, (s.line? ref).isSome → (t.line? ref).isSome) : Allocated alloc s where
  nonnull ref href := h.nonnull ref (hmono ref href)
  injective ref ref' href href' := h.injective ref ref' (hmono ref href) (hmono ref' href')

theorem ranked_create : Ranked [] (create cfg) where
  known := by simp
  order := rfl
  line := by
    intro ref line hline
    cases hline

/-- There are less lines than 64-bit numbers, so that no rank is cut off. -/
theorem Ranked.distinct_lt (h : Ranked trace s) (halloc : Allocated alloc s) :
    distinct trace < 2 ^ 64 := by
  have hlt := distinct_lt_card (l := trace) (f := fun ref => (alloc ref).toFin) (x := 0)
    (fun ref href heq => halloc.nonnull ref (h.known ref href) (BitVec.toFin_inj.mp heq))
    (fun ref href ref' href' heq => halloc.injective ref ref' (h.known ref href)
      (h.known ref' href') (BitVec.toFin_inj.mp heq))
  rwa [Fintype.card_fin] at hlt

theorem Ranked.toNat_order (h : Ranked trace s) (halloc : Allocated alloc s)
    (hline : s.line? ref = some line) : line.order.toNat = rank trace ref := by
  have hlt := h.distinct_lt halloc
  have hle : rank trace ref ≤ distinct trace := rank_le_distinct
  rw [h.line ref line hline, BitVec.toNat_ofNat, Nat.mod_eq_of_lt (hle.trans_lt hlt)]

theorem Ranked.order_eq_zero (h : Ranked trace s) (halloc : Allocated alloc s)
    (hline : s.line? ref = some line) : line.order = 0 ↔ ref ∉ trace := by
  rw [← rank_eq_zero, ← h.toNat_order halloc hline]
  exact BitVec.toNat_inj.symm

theorem known_of_sameLayout (h : SameLayout s t) {ref : LineRef} (href : (s.line? ref).isSome) :
    (t.line? ref).isSome := by
  rwa [(isSome_of_sameLayout h ref).2]

theorem Allocated.sameLayout (halloc : Allocated alloc s) (h : SameLayout s t) :
    Allocated alloc t :=
  halloc.mono fun ref href => by rwa [← (isSome_of_sameLayout h ref).2]

/-! ### One call -/

/-- No line is registered and none is lost. New lines have the order zero. -/
structure SameOrders (s t : Reporter) : Prop where
  known : ∀ ref, (s.line? ref).isSome → (t.line? ref).isSome
  order : t.order = s.order
  line : ∀ ref line, t.line? ref = some line →
    line.order = ((s.line? ref).map Line.order).getD 0

theorem SameOrders.of_lines (hlines : ∀ ref, (t.line? ref).map Line.order =
    (s.line? ref).map Line.order) (horder : t.order = s.order) : SameOrders s t where
  known ref href := by
    rwa [← Option.isSome_map (f := Line.order), hlines, Option.isSome_map]
  order := horder
  line ref line hline := by
    rw [← hlines, hline]
    rfl

theorem Ranked.sameOrders (h : Ranked trace s) (hsame : SameOrders s t) : Ranked trace t where
  known ref href := hsame.known ref (h.known ref href)
  order := hsame.order.trans h.order
  line ref line hline := by
    rw [hsame.line ref line hline]
    cases hs : s.line? ref with
    | some line' => exact h.line ref line' hs
    | none =>
      have hnot : ref ∉ trace := by
        intro href
        have hknown := h.known ref href
        rw [hs] at hknown
        cases hknown
      rw [rank_eq_zero.mpr hnot]
      rfl

theorem order_replay (pending : List PendingFileAddress) (line : Line) :
    (replay pending line).order = line.order := by
  induction pending generalizing line with
  | nil => rfl
  | cons p pending ih => exact (ih _).trans Line.order_registerHitIndex

theorem LineStep.sameOrders (h : LineStep cfg s ref addr t) : SameOrders s t where
  known r hr := by
    by_cases heq : r = ref
    · rw [heq, h.line_self]
      rfl
    · rw [h.line_other r heq]
      split
      next hnew =>
        rw [line?, hnew.1, hnew.2] at hr
        cases hr
      next => exact hr
  order := h.order
  line r line hline := by
    by_cases heq : r = ref
    · rw [heq, h.line_self, Option.some_inj] at hline
      rw [← hline, order_replay, Line.order_addAddress, baseLine, heq]
      cases s.line? ref <;> rfl
    · rw [h.line_other r heq] at hline
      split at hline
      next hnew =>
        have hnone : s.line? r = none := by rw [line?, hnew.1, hnew.2, Option.bind_none]
        rw [ReporterSetup.freshLine] at hline
        split at hline
        · rw [← Option.some.inj hline, hnone]
          rfl
        · cases hline
      next =>
        rw [hline]
        rfl

/-- A line that is registered for the first time gets the next rank. -/
theorem Ranked.hitLine (h : Ranked trace s) (halloc : Allocated alloc s)
    (hline : s.line? ref = some line) :
    Ranked (trace ++ [ref]) (hitLine cfg addr hits s ref) := by
  have hlayout := @sameLayout_hitLine cfg addr hits s ref
  have hfirst := h.order_eq_zero halloc hline
  have hhit : Reporter.hitLine cfg addr hits s ref = { s.modifyLine ref fun l =>
        if line.order = 0 then { l.registerHit addr hits cfg.singleShot with order := s.order }
        else l.registerHit addr hits cfg.singleShot with
      order := if line.order = 0 then s.order + 1 else s.order
      notified := s.notified ++ [.onAddress line.lineId hits] } := by
    simp only [Reporter.hitLine, hline]
  constructor
  case known =>
    intro r hr
    apply known_of_sameLayout hlayout
    rw [List.mem_append, List.mem_singleton] at hr
    rcases hr with hr | rfl
    · exact h.known r hr
    · rw [hline]
      rfl
  case order =>
    rw [hhit, distinct_snoc]
    show (if line.order = 0 then s.order + 1 else s.order) = _
    by_cases hmem : ref ∈ trace
    · rw [if_pos hmem, if_neg (fun hzero => hfirst.mp hzero hmem), h.order]
    · rw [if_neg hmem, if_pos (hfirst.mpr hmem), h.order]
      exact (BitVec.ofNat_add _ _).symm
  case line =>
    intro r l hl
    rw [hhit] at hl
    replace hl := (line?_modifyLine s ref r _).symm.trans hl
    by_cases hr : r = ref
    · rw [if_pos hr, hline, Option.map_some, Option.some_inj] at hl
      rw [← hl, hr]
      by_cases hmem : ref ∈ trace
      · rw [if_neg (fun hzero => hfirst.mp hzero hmem), rank_snoc_of_mem hmem]
        exact h.line ref line hline
      · rw [if_pos (hfirst.mpr hmem), rank_snoc_self hmem]
        exact h.order
    · rw [if_neg hr] at hl
      rw [rank_snoc_of_ne hr]
      exact h.line r l hl

theorem Ranked.foldl_hitLine (h : Ranked trace s) (halloc : Allocated alloc s)
    (hrefs : ∀ ref ∈ refs, (s.line? ref).isSome) :
    Ranked (trace ++ refs) (refs.foldl (Reporter.hitLine cfg addr hits) s) := by
  induction refs generalizing s trace with
  | nil => rwa [List.append_nil]
  | cons ref refs ih =>
    obtain ⟨line, hline⟩ := Option.isSome_iff_exists.mp (hrefs ref List.mem_cons_self)
    have hlayout := @sameLayout_hitLine cfg addr hits s ref
    have hrest := ih (h.hitLine halloc hline) (halloc.sameLayout hlayout) fun r hr =>
      known_of_sameLayout hlayout (hrefs r (List.mem_cons_of_mem ref hr))
    rwa [List.append_assoc] at hrest

theorem Ranked.onAddressHit (h : Ranked trace s) (halloc : Allocated alloc s)
    (hwf : s.WellFormed cfg) (addr hits : U64) :
    Ranked (trace ++ s.addrToLine addr) (s.onAddressHit cfg addr hits) := by
  apply h.foldl_hitLine halloc
  intro ref href
  obtain ⟨line, hline, -⟩ := hwf.addrToLine addr ref href
  rw [hline]
  rfl

/-- An entry registers the lines of its address, or counts without changing an order. -/
theorem Ranked.loadEntry (h : Ranked trace s) (halloc : Allocated alloc s)
    (hwf : s.WellFormed cfg) (e : Entry) :
    Ranked (trace ++ if e.hits = 0 then [] else s.addrToLine e.addr) (s.loadEntry cfg e) := by
  by_cases hhits : e.hits = 0
  · rw [if_pos hhits, List.append_nil, loadEntry_zero hhits]
    exact h
  rw [if_neg hhits]
  by_cases haddr : s.addrToLine e.addr = []
  · rw [haddr, List.append_nil]
    cases hid : s.lineIdToFile e.lineId with
    | none =>
      rw [loadEntry_pending hhits haddr hid]
      exact h.sameOrders (.of_lines (fun _ => rfl) rfl)
    | some ref =>
      rw [loadEntry_line hhits haddr hid]
      refine h.sameOrders (.of_lines (fun r => ?_) (modifyLine_links _ _ _).order)
      rw [line?_modifyLine]
      by_cases hr : r = ref
      · rw [if_pos hr, Option.map_map, hr]
        exact Option.map_congr fun line _ => Line.order_registerHitIndex
      · rw [if_neg hr]
        rfl
  · rw [loadEntry_known hhits haddr]
    exact h.onAddressHit halloc hwf e.addr e.hits

theorem Ranked.loadEntries (h : Ranked trace s) (halloc : Allocated alloc s)
    (hwf : s.WellFormed cfg) (es : List Entry) :
    Ranked (trace ++ loadRefs cfg s es) (es.foldl (Reporter.loadEntry cfg) s) := by
  induction es generalizing s trace with
  | nil => rwa [loadRefs, List.append_nil]
  | cons e es ih =>
    rw [loadRefs, ← List.append_assoc]
    exact ih (h.loadEntry halloc hwf e) (halloc.sameLayout (sameLayout_loadEntry s e))
      (loadEntry_frame hwf e).wellFormed

/-- What a call does to the lines: none is lost, and the registered ones get their ranks. -/
structure RankStep (cfg : ReporterSetup) (s t : Reporter) (refs : List LineRef) : Prop where
  wellFormed : t.WellFormed cfg
  known : ∀ ref, (s.line? ref).isSome → (t.line? ref).isSome
  ranked : ∀ {alloc trace}, Allocated alloc s → Ranked trace s → Ranked (trace ++ refs) t

theorem rankStep_of_sameOrders (hwf : t.WellFormed cfg) (h : SameOrders s t) :
    RankStep cfg s t [] where
  wellFormed := hwf
  known := h.known
  ranked _ hranked := by
    rw [List.append_nil]
    exact hranked.sameOrders h

theorem rankStep_unMarshal (hwf : s.WellFormed cfg) {data : List Byte} {found : Bool}
    (h : s.unMarshal cfg data = some (t, found)) :
    RankStep cfg s t (unMarshalRefs cfg s data) := by
  obtain ⟨hheader, rfl⟩ := unMarshal_eq_some h
  rw [unMarshalRefs, hheader]
  cases found with
  | false => exact rankStep_of_sameOrders hwf (.of_lines (fun _ => rfl) rfl)
  | true =>
    have hlayout := @sameLayout_foldl_loadEntry cfg (databaseEntries data) s
    exact ⟨(foldl_loadEntry_frame hwf _).wellFormed, fun _ => known_of_sameLayout hlayout,
      fun halloc hranked => hranked.loadEntries halloc hwf _⟩

theorem rankStep_onFile (hwf : s.WellFormed cfg) (h : s.onFile cfg = some t) :
    RankStep cfg s t (s.callRefs cfg (.event .file)) := by
  have hdone : ∀ {u refs}, RankStep cfg s u refs →
      RankStep cfg s { u with unmarshallingDone := true } refs := fun hu =>
    ⟨hu.wellFormed.congr rfl rfl rfl rfl rfl, hu.known,
      fun halloc hranked => (hu.ranked halloc hranked).sameOrders (.of_lines (fun _ => rfl) rfl)⟩
  have hsame : RankStep cfg s s [] := rankStep_of_sameOrders hwf (.of_lines (fun _ => rfl) rfl)
  rw [onFile] at h
  rw [callRefs]
  cases hunmarshalled : s.unmarshallingDone with
  | true =>
    rw [hunmarshalled, if_pos rfl] at h
    exact Option.some.inj h ▸ hsame
  | false =>
    rw [hunmarshalled, if_neg Bool.false_ne_true] at h
    cases hclean : cfg.cleanOutput with
    | true =>
      rw [hclean] at h
      exact Option.some.inj h ▸ hdone hsame
    | false =>
      cases hdatabase : cfg.database with
      | none =>
        simp only [hclean, hdatabase, Bool.not_false, if_true] at h
        exact Option.some.inj h ▸ hdone hsame
      | some data =>
        simp only [hclean, hdatabase, Bool.not_false, if_true, Option.bind_eq_bind,
          Option.bind_eq_some_iff, Option.pure_def, Option.some.injEq, Prod.exists] at h
        obtain ⟨u, found, hload, rfl⟩ := h
        exact hdone (rankStep_unMarshal hwf hload)

theorem rankStep_call (hwf : s.WellFormed cfg) {c : Call} (h : s.call cfg c = some t) :
    RankStep cfg s t (s.callRefs cfg c) := by
  match c with
  | .event .file => exact rankStep_onFile hwf h
  | .event (.line file lineNr addr) =>
    cases hfilter : cfg.runFilters file with
    | false =>
      rw [call, step, onLine_filtered hfilter] at h
      exact Option.some.inj h ▸ rankStep_of_sameOrders hwf (.of_lines (fun _ => rfl) rfl)
    | true =>
      have hstep := onLine_eq_some hwf ⟨file, lineNr⟩ hfilter h
      exact rankStep_of_sameOrders hstep.wellFormed hstep.sameOrders
  | .event (.hit addr hits) =>
    have hlayout := @sameLayout_onAddressHit cfg s addr hits
    rw [call, step, Option.some_inj] at h
    subst h
    exact ⟨(onAddressHit_step hwf addr hits).wellFormed, fun _ => known_of_sameLayout hlayout,
      fun halloc hranked => hranked.onAddressHit halloc hwf addr hits⟩
  | .unMarshal data =>
    rw [call, Option.map_eq_some_iff] at h
    obtain ⟨⟨u, found⟩, hload, rfl⟩ := h
    exact rankStep_unMarshal hwf hload

/-! ### Runs -/

variable {calls pre rest : List Call} {c : Call}

theorem runTraced_snoc (h : runTraced cfg (calls ++ [c]) = some (t, trace)) :
    ∃ s before, runTraced cfg calls = some (s, before) ∧ s.call cfg c = some t ∧
      trace = before ++ s.callRefs cfg c := by
  obtain ⟨⟨s, before⟩, hbefore, hlast⟩ := Runs.foldlM_snoc.mp h
  rw [callTraced, Option.map_eq_some_iff] at hlast
  obtain ⟨u, hcall, heq⟩ := hlast
  obtain ⟨rfl, rfl⟩ := Prod.mk.inj heq
  exact ⟨s, before, hbefore, hcall, rfl⟩

theorem runTraced_ranked (h : runTraced cfg calls = some (t, trace)) :
    t.WellFormed cfg ∧ ∀ alloc, Allocated alloc t → Ranked trace t := by
  induction calls using List.reverseRecOn generalizing t trace with
  | nil =>
    rw [runTraced, List.foldlM_nil, Option.pure_def, Option.some_inj, Prod.mk.injEq] at h
    obtain ⟨rfl, rfl⟩ := h
    exact ⟨wellFormed_create cfg, fun _ _ => ranked_create⟩
  | append_singleton calls c ih =>
    obtain ⟨s, before, hbefore, hcall, rfl⟩ := runTraced_snoc h
    obtain ⟨hwf, hranked⟩ := ih hbefore
    have hstep := rankStep_call hwf hcall
    refine ⟨hstep.wellFormed, fun alloc halloc => ?_⟩
    have halloc' := halloc.mono hstep.known
    exact hstep.ranked halloc' (hranked alloc halloc')

/-- Later calls register more, and lose no line. -/
theorem runTraced_append (hpre : runTraced cfg pre = some (s, refs))
    (h : runTraced cfg (pre ++ rest) = some (t, trace)) :
    (∀ ref, (s.line? ref).isSome → (t.line? ref).isSome) ∧ ∃ more, trace = refs ++ more := by
  induction rest using List.reverseRecOn generalizing t trace with
  | nil =>
    rw [List.append_nil, hpre, Option.some_inj, Prod.mk.injEq] at h
    obtain ⟨rfl, rfl⟩ := h
    exact ⟨fun _ href => href, [], (List.append_nil _).symm⟩
  | append_singleton rest c ih =>
    rw [← List.append_assoc] at h
    obtain ⟨u, before, hbefore, hcall, rfl⟩ := runTraced_snoc h
    obtain ⟨hknown, more, rfl⟩ := ih hbefore
    have hstep := rankStep_call (runTraced_ranked hbefore).1 hcall
    exact ⟨fun ref href => hstep.known ref (hknown ref href), more ++ u.callRefs cfg c,
      List.append_assoc _ _ _⟩

/-! ### The order of the lines -/

/-- What the orders of the lines say about the registered ones. -/
structure OrdersHits (trace : List LineRef) (t : Reporter) : Prop where
  distinct : ∀ ref ref' line line', t.line? ref = some line → t.line? ref' = some line' →
    line.order ≠ 0 → line.order = line'.order → ref = ref'
  range : ∀ n : U64, (n ≠ 0 ∧ ∃ ref line, t.line? ref = some line ∧ line.order = n) ↔
    1 ≤ n ∧ n ≤ t.order - 1
  zero : ∀ ref line, t.line? ref = some line → (line.order = 0 ↔ ref ∉ trace)
  earlier : ∀ ref ref' line line', t.line? ref = some line → t.line? ref' = some line' →
    line.order ≠ 0 → line'.order ≠ 0 →
    (line.order < line'.order ↔ trace.idxOf ref < trace.idxOf ref')

/-- The order of a line does not change once it is set. -/
def KeepsOrders (s t : Reporter) : Prop :=
  ∀ ref line, s.line? ref = some line → line.order ≠ 0 →
    ∃ line', t.line? ref = some line' ∧ line'.order = line.order

theorem Ranked.ordersHits (h : Ranked trace t) (halloc : Allocated alloc t) :
    OrdersHits trace t := by
  have hmem : ∀ ref line, t.line? ref = some line → line.order ≠ 0 → ref ∈ trace := by
    intro ref line hline hne
    by_contra hnot
    exact hne ((h.order_eq_zero halloc hline).mpr hnot)
  have hlast : (t.order - 1).toNat = Ranking.distinct trace := by
    have horder : t.order = BitVec.ofNat 64 (Ranking.distinct trace) + 1 :=
      h.order.trans (BitVec.ofNat_add _ _)
    rw [horder, BitVec.add_sub_cancel, BitVec.toNat_ofNat, Nat.mod_eq_of_lt (h.distinct_lt halloc)]
  constructor
  case distinct =>
    intro ref ref' line line' hline hline' hne heq
    apply eq_of_rank_eq (hmem ref line hline hne)
    rw [← h.toNat_order halloc hline, ← h.toNat_order halloc hline', heq]
  case range =>
    intro n
    rw [BitVec.le_def, BitVec.le_def, hlast]
    constructor
    · rintro ⟨hne, ref, line, hline, rfl⟩
      refine ⟨Nat.one_le_iff_ne_zero.mpr fun hzero => hne (BitVec.eq_of_toNat_eq hzero), ?_⟩
      rw [h.toNat_order halloc hline]
      exact rank_le_distinct
    · rintro ⟨hpos, hle⟩
      obtain ⟨ref, href, hrank⟩ := exists_rank_eq hpos hle
      obtain ⟨line, hline⟩ := Option.isSome_iff_exists.mp (h.known ref href)
      have horder : line.order = n :=
        BitVec.eq_of_toNat_eq ((h.toNat_order halloc hline).trans hrank)
      refine ⟨?_, ref, line, hline, horder⟩
      rintro rfl
      exact absurd hpos (by decide)
  case zero =>
    intro ref line hline
    exact h.order_eq_zero halloc hline
  case earlier =>
    intro ref ref' line line' hline hline' hne hne'
    rw [BitVec.lt_def, h.toNat_order halloc hline, h.toNat_order halloc hline',
      rank_lt_rank (hmem ref line hline hne) (hmem ref' line' hline' hne')]

/-- The lines are ordered by their first hits, after every run. -/
theorem ordersHits_run {calls : List Call} {t : Reporter} {trace : List LineRef}
    (hrun : runTraced cfg calls = some (t, trace)) (halloc : Allocated alloc t) :
    OrdersHits trace t ∧ ∀ pre rest s refs, calls = pre ++ rest →
      runTraced cfg pre = some (s, refs) → KeepsOrders s t := by
  have hranked := (runTraced_ranked hrun).2 alloc halloc
  refine ⟨hranked.ordersHits halloc, ?_⟩
  rintro pre rest s refs rfl hpre ref line hline hne
  obtain ⟨hknown, more, rfl⟩ := runTraced_append hpre hrun
  have hallocs := halloc.mono hknown
  have hrankeds := (runTraced_ranked hpre).2 alloc hallocs
  obtain ⟨line', hline'⟩ := Option.isSome_iff_exists.mp (hknown ref (by rw [hline]; rfl))
  have hmem : ref ∈ refs := by
    by_contra hnot
    exact hne ((hrankeds.order_eq_zero hallocs hline).mpr hnot)
  refine ⟨line', hline', ?_⟩
  rw [hranked.line ref line' hline', rank_append_of_mem hmem, hrankeds.line ref line hline]

end Ranked

/-- Two lines, of which the second one is hit first, and the first one by a stored hit. -/
def secondFirst : List Call :=
  [.event (.line (ascii "/a") 1 0x10), .event (.line (ascii "/a") 2 0x20), .event (.hit 0x20 1),
    .unMarshal (marshalHeader compiledSetup ++ Entry.encode ⟨0x10, 1, 0, 1⟩)]

theorem runTraced_secondFirst : ∃ t, runTraced compiledSetup secondFirst =
    some (t, [⟨ascii "/a", 2⟩, ⟨ascii "/a", 1⟩]) ∧ t.line? ⟨ascii "/a", 0⟩ = none ∧
      ∀ q, q ≠ ascii "/a" → t.files q = none := by
  refine ⟨_, rfl, rfl, fun q hq => ?_⟩
  -- four calls, which change the file seven times
  iterate 7 refine (Function.update_of_ne hq _ _).trans ?_
  rfl

theorem ordersHits_run_secondFirst : ∃ t,
    runTraced compiledSetup secondFirst = some (t, [⟨ascii "/a", 2⟩, ⟨ascii "/a", 1⟩]) ∧
      OrdersHits [⟨ascii "/a", 2⟩, ⟨ascii "/a", 1⟩] t ∧
      ∀ pre rest s refs, secondFirst = pre ++ rest →
        runTraced compiledSetup pre = some (s, refs) → KeepsOrders s t := by
  obtain ⟨t, hrun, hzero, hfiles⟩ := runTraced_secondFirst
  have hline : ∀ ref, (t.line? ref).isSome → ref.file = ascii "/a" ∧ ref.lineNr ≠ 0 := by
    rintro ⟨file, lineNr⟩ href
    have hfile : file = ascii "/a" := by
      by_contra hne
      rw [line?, hfiles file hne] at href
      cases href
    refine ⟨hfile, ?_⟩
    rintro rfl
    rw [hfile, hzero] at href
    cases href
  have halloc : Allocated (fun ref => ref.lineNr.setWidth 64) t := by
    constructor
    case nonnull =>
      intro ref href heq
      have hne := (hline ref href).2
      bv_omega
    case injective =>
      rintro ⟨file, lineNr⟩ ⟨file', lineNr'⟩ href href' heq
      obtain rfl : file = file' := (hline _ href).1.trans (hline _ href').1.symm
      obtain rfl : lineNr = lineNr' := by
        dsimp only at heq
        bv_omega
      rfl
  exact ⟨t, hrun, ordersHits_run hrun halloc⟩
end Reporter

end Kcov
