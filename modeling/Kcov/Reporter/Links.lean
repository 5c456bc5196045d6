import Kcov.Lib.Runs
import Kcov.Reporter.Accumulation
import Kcov.Reporter.HitOrder

/-! The links between lines and addresses: the lines of an address, the addresses of a line, and
the line of a number. -/

namespace Kcov.Reporter

open Bytes

variable {cfg : ReporterSetup} {s t : Reporter} {ref : LineRef} {addr hits : U64}

/-- The addresses of the line at `ref`, in their order. -/
def addressesAt (s : Reporter) (ref : LineRef) : List U64 := (s.counts ref).map Prod.fst

theorem addressesAt_ne_nil : s.addressesAt ref ≠ [] ↔ s.counts ref ≠ [] := by
  rw [addressesAt, ne_eq, List.map_eq_nil_iff]

theorem mem_addressesAt {a : U64} : a ∈ s.addressesAt ref ↔
    ∃ line, s.line? ref = some line ∧ a ∈ line.addresses := by
  rw [addressesAt, counts]
  cases s.line? ref with
  | none => simp
  | some line => simp [Line.addresses]

/-- The two directions of the links agree, and the line of a number is the one with it. -/
structure LinksAgree (s : Reporter) : Prop where
  mem_iff : ∀ a ref, ref ∈ s.addrToLine a ↔ a ∈ s.addressesAt ref
  lines_nodup : ∀ a, (s.addrToLine a).Nodup
  addresses_nodup : ∀ ref, (s.addressesAt ref).Nodup
  lineId : ∀ id ref, s.lineIdToFile id = some ref →
    ∃ line, s.line? ref = some line ∧ line.lineId = id
  registered : ∀ ref line, s.line? ref = some line → line.addresses ≠ [] →
    s.lineIdToFile line.lineId = some ref

/-- What is left to show of a reporter that is well formed. -/
structure Linked (cfg : ReporterSetup) (s : Reporter) : Prop where
  lines : ∀ ref, ∀ a ∈ s.addressesAt ref, ref ∈ s.addrToLine a
  registered : ∀ ref, s.addressesAt ref ≠ [] → s.lineIdToFile (cfg.lineId ref) = some ref

theorem linked_create : Linked cfg (create cfg) := by
  constructor
  case lines =>
    intro ref a ha
    cases ha
  case registered => exact fun ref h => absurd rfl h

theorem Linked.linksAgree (h : Linked cfg s) (hwf : s.WellFormed cfg) : LinksAgree s where
  mem_iff a ref := ⟨fun href => mem_addressesAt.mpr (hwf.addrToLine a ref href), h.lines ref a⟩
  lines_nodup a := List.Nodup.of_map cfg.lineId (hwf.addrToLine_nodup a)
  addresses_nodup ref := by
    rw [addressesAt, counts]
    cases hline : s.line? ref with
    | none => simp
    | some line => exact hwf.addresses ref line hline
  lineId id ref href := by
    obtain ⟨hid, line, hline, -⟩ := hwf.lineIdToFile id ref href
    exact ⟨line, hline, (hwf.lineId ref line hline).trans hid⟩
  registered ref line hline hne := by
    rw [hwf.lineId ref line hline]
    apply h.registered
    rw [addressesAt, counts_eq hline]
    exact hne

/-! ### Steps -/

/-- What a call does to the links: the addresses of a line grow at their end, and lines with
numbers of their own stay linked. -/
structure LinkStep (cfg : ReporterSetup) (s t : Reporter) : Prop where
  wellFormed : t.WellFormed cfg
  grows : ∀ ref, s.addressesAt ref <+: t.addressesAt ref
  linked : DistinctIds cfg t → Linked cfg s → Linked cfg t

theorem LinkStep.distinctIds (h : LinkStep cfg s t) (hids : DistinctIds cfg t) :
    DistinctIds cfg s := by
  have hne : ∀ ref, s.counts ref ≠ [] → t.counts ref ≠ [] := by
    intro ref href
    rw [← addressesAt_ne_nil] at href ⊢
    exact (h.grows ref).ne_nil href
  exact fun r r' hr hr' => hids r r' (hne r hr) (hne r' hr')

theorem linkStep_of_loadFrame (h : LoadFrame cfg s t) : LinkStep cfg s t where
  wellFormed := h.wellFormed
  grows ref := by rw [addressesAt, addressesAt, h.addresses]
  linked _ hs := by
    have hsame : ∀ ref, t.addressesAt ref = s.addressesAt ref := h.addresses
    constructor
    case lines =>
      intro ref a ha
      rw [h.addrToLine]
      exact hs.lines ref a (hsame ref ▸ ha)
    case registered =>
      intro ref hne
      rw [h.lineIdToFile]
      exact hs.registered ref (hsame ref ▸ hne)

theorem LineStep.addressesAt (h : LineStep cfg s ref addr t) (r : LineRef) :
    t.addressesAt r = if r = ref ∧ addr ∉ s.addressesAt ref
      then s.addressesAt ref ++ [addr] else s.addressesAt r := by
  by_cases hr : r = ref
  · rw [hr, Reporter.addressesAt, h.counts_self, Counts.map_fst_replay, Counts.map_fst_add]
    show (if addr ∈ s.addressesAt ref then s.addressesAt ref else s.addressesAt ref ++ [addr]) = _
    by_cases ha : addr ∈ s.addressesAt ref
    · rw [if_pos ha, if_neg fun hnot => hnot.2 ha]
    · rw [if_neg ha, if_pos ⟨rfl, ha⟩]
  · rw [if_neg fun h => hr h.1, Reporter.addressesAt, h.counts_other hr]
    rfl

theorem LineStep.mem_addressesAt_self (h : LineStep cfg s ref addr t) :
    addr ∈ t.addressesAt ref := by
  rw [h.addressesAt]
  split
  next => simp
  next hnot =>
    by_contra ha
    exact hnot ⟨rfl, ha⟩

theorem LineStep.linkStep (hwf : s.WellFormed cfg) (h : LineStep cfg s ref addr t) :
    LinkStep cfg s t := by
  have hgrows : ∀ r, s.addressesAt r <+: t.addressesAt r := by
    intro r
    rw [h.addressesAt]
    split
    next hr => exact hr.1 ▸ List.prefix_append _ _
    next => exact List.prefix_refl _
  have hself : t.counts ref ≠ [] := addressesAt_ne_nil.mp (List.ne_nil_of_mem h.mem_addressesAt_self)
  refine ⟨h.wellFormed, hgrows, fun hids hs => ⟨fun r a ha => ?_, fun r hne => ?_⟩⟩
  · -- Only the line itself can pass for a duplicate.
    have hdup : ∀ r' ∈ s.addrToLine addr, cfg.lineId r' = cfg.lineId ref → r' = ref := by
      intro r' hr' hid
      have hmem := mem_addressesAt.mpr (hwf.addrToLine addr r' hr')
      apply hids r' ref _ hself hid
      exact addressesAt_ne_nil.mp ((hgrows r').ne_nil (List.ne_nil_of_mem hmem))
    rw [h.addressesAt] at ha
    rw [h.addrToLine]
    by_cases hany : ((s.addrToLine addr).any fun r' => cfg.lineId r' == cfg.lineId ref) = true
    · rw [if_pos hany]
      obtain ⟨r', hr', hid⟩ := List.any_eq_true.mp hany
      obtain rfl := hdup r' hr' (beq_iff_eq.mp hid)
      split at ha
      next hnew =>
        exact absurd (mem_addressesAt.mpr (hwf.addrToLine addr r' hr')) hnew.2
      next => exact hs.lines r a ha
    · rw [if_neg hany, Function.update_apply]
      split at ha
      next hnew =>
        rcases List.mem_append.mp ha with ha | ha
        · have hmem := hs.lines ref a ha
          split
          next heq => simp [hnew.1]
          next => exact hnew.1 ▸ hmem
        · rw [if_pos (List.mem_singleton.mp ha), hnew.1]
          simp
      next =>
        have hmem := hs.lines r a ha
        split
        next heq => exact List.mem_append_left _ (heq ▸ hmem)
        next => exact hmem
  · rw [h.lineIdToFile, Function.update_apply]
    split
    next hid => rw [hids r ref (addressesAt_ne_nil.mp hne) hself hid]
    next hid =>
      have hr : r ≠ ref := fun heq => hid (by rw [heq])
      rw [h.addressesAt, if_neg fun h => hr h.1] at hne
      exact hs.registered r hne

theorem linkStep_onAddressHit (hwf : s.WellFormed cfg) (addr hits : U64) :
    LinkStep cfg s (s.onAddressHit cfg addr hits) := by
  have hstep := onAddressHit_step hwf addr hits
  exact linkStep_of_loadFrame ⟨hstep.wellFormed, hstep.addrToLine, hstep.lineIdToFile,
    hstep.map_fst_counts hwf⟩

theorem linkStep_unMarshal (hwf : s.WellFormed cfg) {data : List Byte} {found : Bool}
    (h : s.unMarshal cfg data = some (t, found)) : LinkStep cfg s t := by
  obtain ⟨-, rfl⟩ := unMarshal_eq_some h
  cases found with
  | false => exact linkStep_of_loadFrame ⟨hwf, rfl, rfl, fun _ => rfl⟩
  | true => exact linkStep_of_loadFrame (foldl_loadEntry_frame hwf _)

theorem linkStep_call (hwf : s.WellFormed cfg) {c : Call} (h : s.call cfg c = some t) :
    LinkStep cfg s t := by
  match c with
  | .event .file => exact linkStep_of_loadFrame (onFile_frame hwf h)
  | .event (.line file lineNr addr) =>
    cases hfilter : cfg.runFilters file with
    | false =>
      rw [call, step, onLine_filtered hfilter] at h
      exact Option.some.inj h ▸ linkStep_of_loadFrame ⟨hwf, rfl, rfl, fun _ => rfl⟩
    | true => exact (onLine_eq_some hwf ⟨file, lineNr⟩ hfilter h).linkStep hwf
  | .event (.hit addr hits) =>
    rw [call, step, Option.some_inj] at h
    exact h ▸ linkStep_onAddressHit hwf addr hits
  | .unMarshal data =>
    rw [call, Option.map_eq_some_iff] at h
    obtain ⟨⟨u, found⟩, hload, rfl⟩ := h
    exact linkStep_unMarshal hwf hload

/-! ### The addresses that are registered -/

section Registered

variable (cfg)

/-- The lines for which `onAddressHit` calls `registerHit`, as they are then, and the address. -/
def hitArguments (addr hits : U64) : Reporter → List LineRef → List (Line × U64)
  | _, [] => []
  | s, ref :: refs =>
    ((s.line? ref).map fun line => (line, addr)).toList ++
      hitArguments addr hits (hitLine cfg addr hits s ref) refs

/-- The same while entries are taken in. -/
def loadArguments : Reporter → List Entry → List (Line × U64)
  | _, [] => []
  | s, e :: es =>
    (if e.hits = 0 then [] else hitArguments cfg e.addr e.hits s (s.addrToLine e.addr)) ++
      loadArguments (s.loadEntry cfg e) es

def unMarshalArguments (s : Reporter) (data : List Byte) : List (Line × U64) :=
  if unMarshalHeader cfg data = some true then loadArguments cfg s (databaseEntries data) else []

/-- The same in a call. -/
def callArguments (s : Reporter) : Call → List (Line × U64)
  | .event .file =>
    match s.unmarshallingDone, cfg.cleanOutput, cfg.database with
    | false, false, some data => unMarshalArguments cfg s data
    | _, _, _ => []
  | .event (.line _ _ _) => []
  | .event (.hit addr hits) => hitArguments cfg addr hits s (s.addrToLine addr)
  | .unMarshal data => unMarshalArguments cfg s data

end Registered

theorem mem_hitArguments (hwf : s.WellFormed cfg) {refs : List LineRef}
    (hrefs : ∀ r ∈ refs, ∃ line, s.line? r = some line ∧ addr ∈ line.addresses)
    {p : Line × U64} (hp : p ∈ hitArguments cfg addr hits s refs) : p.2 ∈ p.1.addresses := by
  induction refs generalizing s with
  | nil => cases hp
  | cons ref refs ih =>
    obtain ⟨⟨line, hline, haddr⟩, hrefs⟩ := List.forall_mem_cons.mp hrefs
    rw [hitArguments, hline] at hp
    rcases List.mem_append.mp hp with hp | hp
    · obtain rfl : p = (line, addr) := by simpa using hp
      exact haddr
    · have hone := hitLine_step hwf hits hline haddr
      refine ih hone.wellFormed (fun r hr => ?_) hp
      obtain ⟨l, hl, ha⟩ := hrefs r hr
      obtain ⟨order, ht⟩ := hone.line r l hl
      refine ⟨_, ht, ?_⟩
      -- registering a known address leaves the addresses as they are
      split
      next => exact (Line.addresses_registerHit hits cfg.singleShot ha).symm ▸ ha
      next => exact ha

theorem mem_loadArguments (hwf : s.WellFormed cfg) {es : List Entry} {p : Line × U64}
    (hp : p ∈ loadArguments cfg s es) : p.2 ∈ p.1.addresses := by
  induction es generalizing s with
  | nil => cases hp
  | cons e es ih =>
    rcases List.mem_append.mp hp with hp | hp
    · split at hp
      next => cases hp
      next => exact mem_hitArguments hwf (hwf.addrToLine e.addr) hp
    · exact ih (loadEntry_frame hwf e).wellFormed hp

theorem mem_unMarshalArguments (hwf : s.WellFormed cfg) {data : List Byte} {p : Line × U64}
    (hp : p ∈ unMarshalArguments cfg s data) : p.2 ∈ p.1.addresses := by
  rw [unMarshalArguments] at hp
  split at hp
  next => exact mem_loadArguments hwf hp
  next => cases hp

/-- `registerHit` is only called with addresses that the line has. -/
theorem mem_callArguments (hwf : s.WellFormed cfg) {c : Call} {p : Line × U64}
    (hp : p ∈ s.callArguments cfg c) : p.2 ∈ p.1.addresses := by
  match c with
  | .event .file =>
    rw [callArguments] at hp
    split at hp
    next => exact mem_unMarshalArguments hwf hp
    next => cases hp
  | .event (.line _ _ _) => cases hp
  | .event (.hit addr _) => exact mem_hitArguments hwf (hwf.addrToLine addr) hp
  | .unMarshal _ => exact mem_unMarshalArguments hwf hp

/-! ### Runs -/

/-- A new reporter after some calls. -/
def runCalls (cfg : ReporterSetup) (calls : List Call) : Option Reporter :=
  calls.foldlM (call cfg) (create cfg)

variable {calls : List Call}

theorem runCalls_wellFormed (h : runCalls cfg calls = some t) : t.WellFormed cfg :=
  Runs.foldlM_invariant (I := WellFormed cfg)
    (fun _ _ _ hwf hcall => (linkStep_call hwf hcall).wellFormed) (wellFormed_create cfg) h

theorem runCalls_linked (h : runCalls cfg calls = some t) (hids : DistinctIds cfg t) :
    Linked cfg t := by
  induction calls using List.reverseRecOn generalizing t with
  | nil =>
    cases h
    exact linked_create
  | append_singleton calls c ih =>
    obtain ⟨s, hs, hcall⟩ := Runs.foldlM_snoc.mp h
    have hstep := linkStep_call (runCalls_wellFormed hs) hcall
    exact hstep.linked hids (ih hs (hstep.distinctIds hids))

theorem addressesAt_isPrefix (hwf : s.WellFormed cfg) (h : calls.foldlM (call cfg) s = some t)
    (ref : LineRef) : s.addressesAt ref <+: t.addressesAt ref := by
  induction calls generalizing s with
  | nil =>
    cases h
    exact List.prefix_refl _
  | cons c calls ih =>
    rw [List.foldlM_cons, Option.bind_eq_bind, Option.bind_eq_some_iff] at h
    obtain ⟨u, hu, h⟩ := h
    have hstep := linkStep_call hwf hu
    exact (hstep.grows ref).trans (ih hstep.wellFormed h)

/-- The links of lines with numbers of their own agree after every run, the addresses of a line
keep their positions in it, and no hit is registered at an address that the line does not have. -/
theorem linksAgree_runCalls (h : runCalls cfg calls = some t) (hids : DistinctIds cfg t) :
    LinksAgree t ∧ ∀ pre rest s, calls = pre ++ rest → runCalls cfg pre = some s →
      (∀ ref, s.addressesAt ref <+: t.addressesAt ref) ∧
      ∀ c ∈ rest.head?, ∀ p ∈ s.callArguments cfg c, p.2 ∈ p.1.addresses := by
  refine ⟨(runCalls_linked h hids).linksAgree (runCalls_wellFormed h), ?_⟩
  rintro pre rest s rfl hpre
  have hwf := runCalls_wellFormed hpre
  rw [runCalls, List.foldlM_append, Option.bind_eq_bind, Option.bind_eq_some_iff] at h
  obtain ⟨u, hu, hrest⟩ := h
  obtain rfl : u = s := Option.some.inj (hu.symm.trans hpre)
  exact ⟨addressesAt_isPrefix hwf hrest, fun c _ p hp => mem_callArguments hwf hp⟩

theorem linksAgree_runCalls_secondFirst : ∃ t, runCalls compiledSetup secondFirst = some t ∧
    LinksAgree t ∧ ∀ pre rest s, secondFirst = pre ++ rest → runCalls compiledSetup pre = some s →
      (∀ ref, s.addressesAt ref <+: t.addressesAt ref) ∧
      ∀ c ∈ rest.head?, ∀ p ∈ s.callArguments compiledSetup c, p.2 ∈ p.1.addresses := by
  have hrun : ∃ t, runCalls compiledSetup secondFirst = some t ∧
      ∀ q, q ≠ ascii "/a" → t.files q = none := by
    refine ⟨_, rfl, fun q hq => ?_⟩
    iterate 7 refine (Function.update_of_ne hq _ _).trans ?_
    rfl
  obtain ⟨t, ht, hfiles⟩ := hrun
  refine ⟨t, ht, linksAgree_runCalls ht ?_⟩
  have hfile : ∀ r, t.counts r ≠ [] → r.file = ascii "/a" := by
    intro r hr
    by_contra hne
    rw [counts, line?, hfiles r.file hne] at hr
    exact hr rfl
  rintro ⟨f, n⟩ ⟨f', n'⟩ hr hr' hid
  obtain rfl : f = f' := (hfile _ hr).trans (hfile _ hr').symm
  obtain rfl : n = n' := makeId_inj hid
  rfl

end Kcov.Reporter
