import Kcov.Reporter.Accumulation
import Kcov.Reporter.ScriptHits

/-! The hits of scripts over several runs. A script is parsed when its first line is executed, so
some lines are registered before the database of the run before is taken in, and some after. -/

namespace Kcov.Reporter

open Bytes

/-! ### The database of a script -/

/-- What a reporter for scripts is created with. -/
structure ScriptSetup (cfg : ReporterSetup) : Prop where
  hashFilename : cfg.hashFilename = false
  maxPossibleHits : cfg.maxPossibleHits = .unlimited
  checksum : cfg.checksum = 0

/-- The database that a run over the lines of scripts writes. -/
def ScriptDatabase (data : List Byte) : Prop :=
  ∃ (cfg : ReporterSetup) (evs : List Event) (s : Reporter) (it : IterationOrder),
    ScriptSetup cfg ∧ (∀ ev ∈ evs, ScriptLine cfg ev) ∧ run cfg evs = some s ∧
      data = s.marshal cfg it

/-- The hits that the entries give the line with the number `id`. -/
def entryHits (es : List Entry) (id : U64) : Nat :=
  ((es.filter fun e => e.lineId = id).map fun e => e.hits.toNat).sum

/-- The hits that are stored for the line with the number `id`. -/
def storedHits (data : List Byte) (id : U64) : Nat := entryHits (databaseEntries data) id

/-- The scripts whose lines are registered have different contents, and the hash tells them
apart. -/
def DistinctContents (cfg : ReporterSetup) (evs : List Event) : Prop :=
  ∀ r r', evs.any (registers cfg r) = true → evs.any (registers cfg r') = true →
    contentHash cfg.host r.file = contentHash cfg.host r'.file → r.file = r'.file

/-- An entry with hits for the only address of a line of a script. -/
def ScriptEntry (e : Entry) : Prop :=
  e.hits ≠ 0 ∧ e.index = 0 ∧ ∃ crc n : U32, e.addr = crc.setWidth 64 ||| (n.setWidth 64 <<< 32) ∧
    e.lineId = Line.makeId (crc.setWidth 64) n

section Entries

variable {cfg : ReporterSetup} {evs : List Event} {es : List Entry} {r r' : LineRef}

/-- The number of a line is made of the same parts as its address. -/
theorem makeId_content {c c' n n' : U32} :
    Line.makeId (c.setWidth 64) n = Line.makeId (c'.setWidth 64) n' ↔ c = c' ∧ n = n' := by
  rw [Line.makeId, Line.makeId, BitVec.or_comm, BitVec.or_comm (c'.setWidth 64 <<< 32), addressParts,
    and_comm]

/-- An entry has the address of the line that has its number. -/
theorem ScriptEntry.addr_iff (hhash : cfg.hashFilename = false) {e : Entry} (he : ScriptEntry e) :
    scriptAddress cfg.host r = e.addr ↔ cfg.lineId r = e.lineId := by
  obtain ⟨-, -, crc, n, haddr, hid⟩ := he
  rw [haddr, hid, ReporterSetup.lineId, fileHash_script hhash, makeId_content, scriptAddress,
    addressParts]

theorem DistinctContents.mono {evs' : List Event} (h : DistinctContents cfg evs)
    (hsub : evs' ⊆ evs) : DistinctContents cfg evs' := by
  intro r r' hr hr'
  have hany : ∀ r, evs'.any (registers cfg r) = true → evs.any (registers cfg r) = true := by
    intro r hr
    obtain ⟨ev, hev, hreg⟩ := List.any_eq_true.mp hr
    exact List.any_eq_true.mpr ⟨ev, hsub hev, hreg⟩
  exact h r r' (hany r hr) (hany r' hr')

theorem DistinctContents.lineId_inj (h : DistinctContents cfg evs)
    (hhash : cfg.hashFilename = false) (hr : evs.any (registers cfg r) = true)
    (hr' : evs.any (registers cfg r') = true) (hid : cfg.lineId r = cfg.lineId r') : r = r' := by
  rw [ReporterSetup.lineId, ReporterSetup.lineId, fileHash_script hhash, fileHash_script hhash,
    makeId_content] at hid
  obtain ⟨f, n⟩ := r
  obtain ⟨g, m⟩ := r'
  exact LineRef.mk.injEq .. ▸ ⟨h _ _ hr hr' hid.1, hid.2⟩

theorem entryHits_snoc (e : Entry) (id : U64) :
    entryHits (es ++ [e]) id = entryHits es id + if e.lineId = id then e.hits.toNat else 0 := by
  rw [entryHits, List.filter_append, List.map_append, List.sum_append, ← entryHits]
  by_cases h : e.lineId = id <;> simp [h]

theorem waiting_snoc (e : Entry) (id : U64) : waiting (es ++ [e]) id =
    waiting es id ++ if e.lineId = id then [⟨e.index, e.hits⟩] else [] := by
  rw [waiting, List.filter_append, List.map_append, ← waiting]
  by_cases h : e.lineId = id <;> simp [h]

/-- Entries without hits count nothing. -/
theorem entryHits_filter (es : List Entry) (id : U64) :
    entryHits (es.filter fun e => e.hits ≠ 0) id = entryHits es id := by
  induction es using List.reverseRecOn with
  | nil => rfl
  | append_singleton es e ih =>
    rw [List.filter_append, entryHits_snoc, ← ih]
    by_cases hhits : e.hits = 0
    · rw [List.filter_cons_of_neg (by simpa using hhits), hhits]
      simp
    · rw [List.filter_cons_of_pos (by simpa using hhits)]
      exact entryHits_snoc e id

/-- The hits that wait for the only address of a line. -/
theorem firstHits_waiting (hes : ∀ e ∈ es, ScriptEntry e) (id : U64) :
    firstHits (waiting es id) = BitVec.ofNat 32 (entryHits es id) := by
  induction es with
  | nil => rfl
  | cons e es ih =>
    obtain ⟨he, hes⟩ := List.forall_mem_cons.mp hes
    have htail := ih hes
    rw [waiting, entryHits, List.filter_cons]
    split
    · rw [List.map_cons, List.map_cons, List.sum_cons, firstHits,
        List.filter_cons_of_pos (by simpa using he.2.1), List.map_cons, List.sum_cons,
        BitVec.ofNat_add, ← entryHits, ← htail, waiting, firstHits]
      rfl
    · exact htail

end Entries

/-! ### A run with a database -/

/-- What the calls `evs` leave in a reporter that has taken in the entries `es`, at any time. -/
structure AccumState (cfg : ReporterSetup) (es : List Entry) (evs : List Event) (s : Reporter) :
    Prop where
  wellFormed : s.WellFormed cfg
  counts : ∀ ref, s.counts ref = if evs.any (registers cfg ref) then
    [(scriptAddress cfg.host ref, BitVec.ofNat 32 (entryHits es (cfg.lineId ref) +
      hitsSince cfg ref (scriptAddress cfg.host ref) false evs))] else []
  addrToLine : ∀ a ref, ref ∈ s.addrToLine a ↔
    evs.any (registers cfg ref) = true ∧ scriptAddress cfg.host ref = a
  known : ∀ ref, evs.any (registers cfg ref) = true → s.pendingFiles (cfg.lineId ref) = []
  unknown : ∀ id, (∀ ref, evs.any (registers cfg ref) = true → cfg.lineId ref ≠ id) →
    s.pendingFiles id = waiting es id

section Steps

variable {cfg : ReporterSetup} {evs : List Event} {es : List Entry} {s t : Reporter}

theorem accumState_create : AccumState cfg [] [] (create cfg) :=
  ⟨wellFormed_create cfg, fun _ => rfl, by simp [create], by simp, fun _ _ => rfl⟩

/-- An event that neither registers a line nor counts changes nothing. -/
theorem AccumState.other (h : AccumState cfg es evs s) (ev : Event)
    (hreg : ∀ ref, registers cfg ref ev = false) (hhits : ∀ a, hitsAt a ev = 0) :
    AccumState cfg es (evs ++ [ev]) s := by
  have hany : ∀ ref, (evs ++ [ev]).any (registers cfg ref) = evs.any (registers cfg ref) :=
    fun ref => any_registers_other (hreg ref) evs
  have hsum : ∀ ref a, hitsSince cfg ref a false (evs ++ [ev]) = hitsSince cfg ref a false evs := by
    intro ref a
    rw [hitsSince_snoc, hhits, ite_self, Nat.add_zero]
  refine ⟨h.wellFormed, fun ref => ?_, fun a ref => ?_, fun ref hr => ?_, fun id hid => ?_⟩
  · rw [hany, hsum]
    exact h.counts ref
  · rw [hany]
    exact h.addrToLine a ref
  · rw [hany] at hr
    exact h.known ref hr
  · exact h.unknown id fun ref hr => hid ref ((hany ref).trans hr)

/-- Registering a line again changes nothing, and a new line takes the hits that wait for it. -/
theorem AccumState.line (hhash : cfg.hashFilename = false) (hes : ∀ e ∈ es, ScriptEntry e)
    (h : AccumState cfg es evs s) {ref : LineRef} (hfilter : cfg.runFilters ref.file = true)
    (hdistinct : DistinctContents cfg
      (evs ++ [.line ref.file ref.lineNr (scriptAddress cfg.host ref)]))
    (hstep : LineStep cfg s ref (scriptAddress cfg.host ref) t) :
    AccumState cfg es (evs ++ [.line ref.file ref.lineNr (scriptAddress cfg.host ref)]) t := by
  have hany : ∀ r, (evs ++ [Event.line ref.file ref.lineNr (scriptAddress cfg.host ref)]).any
      (registers cfg r) = (evs.any (registers cfg r) || decide (r = ref)) := fun r =>
    any_registers_line hfilter _ evs
  have hinj : ∀ r, evs.any (registers cfg r) = true → cfg.lineId r = cfg.lineId ref → r = ref := by
    intro r hr hid
    exact hdistinct.lineId_inj hhash (by simp [hany, hr]) (by simp [hany]) hid
  refine ⟨hstep.wellFormed, fun r => ?_, fun a r => ?_, fun r hr => ?_, fun id hid => ?_⟩
  · rw [hany, hitsSince_line]
    by_cases hr : r = ref
    · subst hr
      rw [hstep.counts_self, h.counts]
      cases hknown : evs.any (registers cfg r) with
      | true =>
        rw [h.known r hknown]
        simp [Counts.add, Counts.replay]
      | false =>
        have hwait : s.pendingFiles (cfg.lineId r) = waiting es (cfg.lineId r) := by
          refine h.unknown _ fun r' hr' hid => ?_
          rw [hinj r' hr' hid, hknown] at hr'
          cases hr'
        rw [hwait, hitsSince_unknown _ hknown, Nat.add_zero, ← firstHits_waiting hes]
        simp only [Bool.false_eq_true, if_false, decide_true, Bool.or_true, if_true]
        exact (replay_singleton _ _ 0).trans (by simp)
    · rw [hstep.counts_other hr, h.counts, decide_eq_false hr, Bool.or_false]
  · rw [hstep.addrToLine, hany]
    cases hknown : evs.any (registers cfg ref) with
    | true =>
      have hdup : (s.addrToLine (scriptAddress cfg.host ref)).any
          (fun r' => cfg.lineId r' == cfg.lineId ref) = true :=
        List.any_eq_true.mpr ⟨ref, (h.addrToLine _ ref).mpr ⟨hknown, rfl⟩, beq_self_eq_true _⟩
      rw [if_pos hdup, h.addrToLine]
      by_cases hr : r = ref
      · simp [hr, hknown]
      · simp [hr]
    | false =>
      have hdup : ¬(s.addrToLine (scriptAddress cfg.host ref)).any
          (fun r' => cfg.lineId r' == cfg.lineId ref) = true := by
        rw [List.any_eq_true]
        rintro ⟨r', hmem, hid⟩
        have hr' := ((h.addrToLine _ r').mp hmem).1
        rw [hinj r' hr' (beq_iff_eq.mp hid), hknown] at hr'
        cases hr'
      rw [if_neg hdup, Function.update_apply]
      by_cases ha : a = scriptAddress cfg.host ref
      · rw [if_pos ha, List.mem_append, List.mem_singleton, h.addrToLine, ha]
        by_cases hr : r = ref
        · simp [hr]
        · simp [hr]
      · rw [if_neg ha, h.addrToLine]
        by_cases hr : r = ref
        · simp [hr, hknown, Ne.symm ha]
        · simp [hr]
  · rw [hstep.pendingFiles, Function.update_apply]
    split
    · rfl
    next hne =>
      rw [hany, Bool.or_eq_true, decide_eq_true_eq] at hr
      exact h.known r (hr.resolve_right fun heq => hne (by rw [heq]))
  · have hne : id ≠ cfg.lineId ref := fun heq => hid ref (by simp [hany]) heq.symm
    rw [hstep.pendingFiles, Function.update_apply, if_neg hne]
    exact h.unknown id fun r hr => hid r (by simp [hany, hr])

/-- A hit, live or stored, at an address is counted for the line that is registered there. -/
theorem AccumState.counts_hit (hmax : cfg.maxPossibleHits = .unlimited)
    (h : AccumState cfg es evs s) (addr hits : U64) (ref : LineRef) :
    (s.onAddressHit cfg addr hits).counts ref = if evs.any (registers cfg ref) then
      [(scriptAddress cfg.host ref, BitVec.ofNat 32 (entryHits es (cfg.lineId ref) +
        hitsSince cfg ref (scriptAddress cfg.host ref) false evs +
          if scriptAddress cfg.host ref = addr then hits.toNat else 0))] else [] := by
  have singleShot : cfg.singleShot = false := by simp [ReporterSetup.singleShot, hmax]
  rw [(onAddressHit_step h.wellFormed addr hits).counts_hit h.wellFormed, h.counts]
  cases hknown : evs.any (registers cfg ref) with
  | false =>
    rw [if_neg]
    · rfl
    · intro hmem
      have hreg := ((h.addrToLine _ ref).mp hmem).1
      rw [hknown] at hreg
      cases hreg
  | true =>
    by_cases ha : scriptAddress cfg.host ref = addr
    · rw [if_pos ((h.addrToLine _ ref).mpr ⟨hknown, ha⟩), if_pos ha, BitVec.ofNat_add _ hits.toNat]
      simp only [if_true, Line.updateFirst, ha, singleShot, Bool.false_eq_true, if_false]
      rfl
    · rw [if_neg fun hmem => ha ((h.addrToLine _ ref).mp hmem).2, if_neg ha, Nat.add_zero]

theorem AccumState.hit (hmax : cfg.maxPossibleHits = .unlimited) (h : AccumState cfg es evs s)
    (addr hits : U64) :
    AccumState cfg es (evs ++ [.hit addr hits]) (s.onAddressHit cfg addr hits) := by
  have hstep := onAddressHit_step h.wellFormed addr hits
  have hany : ∀ r, (evs ++ [Event.hit addr hits]).any (registers cfg r) =
      evs.any (registers cfg r) := fun r => any_registers_other rfl evs
  refine ⟨hstep.wellFormed, fun ref => ?_, fun a ref => ?_, fun ref hr => ?_, fun id hid => ?_⟩
  · rw [h.counts_hit hmax, hany, hitsSince_snoc]
    cases hknown : evs.any (registers cfg ref) with
    | false => rfl
    | true =>
      simp only [if_true, Bool.or_true, hitsAt, Nat.add_assoc, eq_comm (a := addr)]
  · rw [hstep.addrToLine, hany]
    exact h.addrToLine a ref
  · rw [hstep.pendingFiles]
    exact h.known ref (hany ref ▸ hr)
  · rw [hstep.pendingFiles]
    exact h.unknown id fun ref hr => hid ref ((hany ref).trans hr)

/-- An entry is counted at once if its line is registered, and waits for the line if not. -/
theorem AccumState.loadEntry (hscript : ScriptSetup cfg) (h : AccumState cfg es evs s) {e : Entry}
    (he : ScriptEntry e) : AccumState cfg (es ++ [e]) evs (loadEntry cfg s e) := by
  have hhash := hscript.hashFilename
  have hframe := loadEntry_frame h.wellFormed e
  have haddr : ∀ a ref, ref ∈ (Reporter.loadEntry cfg s e).addrToLine a ↔
      evs.any (registers cfg ref) = true ∧ scriptAddress cfg.host ref = a := by
    intro a ref
    rw [hframe.addrToLine]
    exact h.addrToLine a ref
  by_cases hnil : s.addrToLine e.addr = []
  · -- No registered line has the address, hence none has the number.
    have hnone : ∀ ref, evs.any (registers cfg ref) = true → cfg.lineId ref ≠ e.lineId := by
      intro ref hr hid
      have hmem := (h.addrToLine e.addr ref).mpr ⟨hr, (he.addr_iff hhash).mpr hid⟩
      rw [hnil] at hmem
      cases hmem
    have hunknown : s.lineIdToFile e.lineId = none := by
      rw [Option.eq_none_iff_forall_ne_some]
      intro ref hmap
      obtain ⟨hid, line, hline, hne⟩ := h.wellFormed.lineIdToFile _ _ hmap
      refine hnone ref ?_ hid
      by_contra hreg
      have hcounts := h.counts ref
      rw [if_neg hreg, counts_eq hline] at hcounts
      exact hne hcounts
    have hload := @loadEntry_pending cfg s e he.1 hnil hunknown
    refine ⟨hframe.wellFormed, fun ref => ?_, haddr, fun ref hr => ?_, fun id hid => ?_⟩
    · rw [hload]
      refine (h.counts ref).trans ?_
      cases hreg : evs.any (registers cfg ref) with
      | false => rfl
      | true => rw [entryHits_snoc, if_neg (Ne.symm (hnone ref hreg)), Nat.add_zero]
    · rw [hload]
      exact (Function.update_of_ne (hnone ref hr) _ _).trans (h.known ref hr)
    · rw [hload, waiting_snoc]
      by_cases hown : id = e.lineId
      · subst hown
        rw [if_pos rfl, ← h.unknown _ hnone]
        exact Function.update_self _ _ _
      · rw [if_neg (Ne.symm hown), List.append_nil, ← h.unknown id hid]
        exact Function.update_of_ne hown _ _
  · have hload := @loadEntry_known cfg s e he.1 hnil
    refine ⟨hframe.wellFormed, fun ref => ?_, haddr, fun ref hr => ?_, fun id hid => ?_⟩
    · rw [hload, h.counts_hit hscript.maxPossibleHits, entryHits_snoc, Nat.add_right_comm]
      by_cases hid : cfg.lineId ref = e.lineId
      · rw [if_pos ((he.addr_iff hhash).mpr hid), if_pos hid.symm]
      · rw [if_neg fun ha => hid ((he.addr_iff hhash).mp ha), if_neg (Ne.symm hid)]
    · rw [hload, (onAddressHit_step h.wellFormed _ _).pendingFiles]
      exact h.known ref hr
    · obtain ⟨r, hr⟩ := List.exists_mem_of_ne_nil _ hnil
      obtain ⟨hreg, ha⟩ := (h.addrToLine e.addr r).mp hr
      have hne : e.lineId ≠ id := (he.addr_iff hhash).mp ha ▸ hid r hreg
      rw [hload, (onAddressHit_step h.wellFormed _ _).pendingFiles, h.unknown id hid, waiting_snoc,
        if_neg hne, List.append_nil]

end Steps

/-- The database is taken in as a whole. -/
theorem AccumState.foldl_loadEntry {cfg : ReporterSetup} (hscript : ScriptSetup cfg)
    {es es' : List Entry} {evs : List Event} {s : Reporter} (h : AccumState cfg es evs s)
    (hes : ∀ e ∈ es', ScriptEntry e) :
    AccumState cfg (es ++ es') evs (es'.foldl (Reporter.loadEntry cfg) s) := by
  induction es' generalizing es s with
  | nil => simpa using h
  | cons e es' ih =>
    obtain ⟨he, hes⟩ := List.forall_mem_cons.mp hes
    have hrest := ih (h.loadEntry hscript he) hes
    rwa [List.append_assoc] at hrest

theorem foldl_loadEntry_filter {cfg : ReporterSetup} (es : List Entry) (s : Reporter) :
    es.foldl (loadEntry cfg) s = (es.filter fun e => e.hits ≠ 0).foldl (loadEntry cfg) s := by
  induction es generalizing s with
  | nil => rfl
  | cons e es ih =>
    rw [List.foldl_cons, List.filter_cons]
    by_cases hhits : e.hits = 0
    · rw [loadEntry_zero hhits, ih]
      simp [hhits]
    · rw [if_pos (by simpa using hhits), List.foldl_cons, ih]

/-- The entries with hits of a database of scripts. -/
def entriesWithHits (data : List Byte) : List Entry :=
  (databaseEntries data).filter fun e => e.hits ≠ 0

/-- A line of a script has at most the address that was made up for it. -/
theorem addressesOf_script {cfg : ReporterSetup} {evs : List Event}
    (hevs : ∀ ev ∈ evs, ScriptLine cfg ev) (ref : LineRef) :
    addressesOf cfg ref evs = [] ∨ addressesOf cfg ref evs = [scriptAddress cfg.host ref] := by
  induction evs using List.reverseRecOn with
  | nil => exact Or.inl rfl
  | append_singleton evs ev ih =>
    have hrest := ih fun e he => hevs e (List.mem_append_left _ he)
    rw [addressesOf_snoc]
    cases ev with
    | line f n a =>
      have ha : a = scriptAddress cfg.host ⟨f, n⟩ := hevs (.line f n a) (by simp)
      rw [addAddressOf]
      split
      next hreg =>
        simp only [registers, Bool.and_eq_true, decide_eq_true_eq] at hreg
        obtain ⟨⟨⟨-, rfl⟩, rfl⟩, hnew⟩ := hreg
        rw [ha] at hnew ⊢
        rcases hrest with hnil | hone
        · rw [hnil]
          exact Or.inr rfl
        · rw [hone] at hnew
          exact absurd (List.mem_singleton.mpr rfl) hnew
      next => exact hrest
    | _ => exact hrest

/-- A database of scripts has one kind of entries. -/
theorem ScriptDatabase.entries {data : List Byte} (h : ScriptDatabase data) :
    ∀ e ∈ entriesWithHits data, ScriptEntry e := by
  obtain ⟨cfg, evs, s, it, hscript, hevs, hrun, rfl⟩ := h
  obtain ⟨hwf, haddrs⟩ := run_frame hrun
  intro e he
  obtain ⟨hmem, hhits⟩ := List.mem_filter.mp he
  have hne : e.hits ≠ 0 := by simpa using hhits
  obtain ⟨ref, href⟩ := (mem_databaseEntries hwf (run_sized hrun).1).mp ⟨hmem, hne⟩
  obtain ⟨i, p, hget, -, rfl⟩ := mem_entriesOf.mp href
  have hfst : ((s.counts ref).map Prod.fst)[i]? = some p.1 := by rw [List.getElem?_map, hget]; rfl
  rw [haddrs] at hfst
  rcases addressesOf_script hevs ref with hnil | hone
  · rw [hnil] at hfst
    cases hfst
  · rw [hone, List.getElem?_singleton] at hfst
    split at hfst
    next hi =>
      refine ⟨hne, by rw [hi]; rfl, contentHash cfg.host ref.file, ref.lineNr, ?_, ?_⟩
      · exact (Option.some.inj hfst).symm
      · exact congrArg (Line.makeId · ref.lineNr) (fileHash_script hscript.hashFilename ref.file)
    next => cases hfst

theorem ScriptDatabase.header {data : List Byte} (h : ScriptDatabase data) {cfg : ReporterSetup}
    (hscript : ScriptSetup cfg) :
    unMarshalHeader cfg data = some true := by
  obtain ⟨cfg', evs, s, it, hscript', -, -, rfl⟩ := h
  obtain ⟨hmagic, hversion, hchecksum⟩ := @headerMatches_marshal cfg' s it
  rw [hscript'.checksum, ← hscript.checksum] at hchecksum
  exact unMarshalHeader_eq_true.mpr ⟨length_marshal, hmagic, hversion, hchecksum⟩

/-- The first file takes in the database, and later ones do nothing. -/
theorem onFile_script {cfg : ReporterSetup} (hscript : ScriptSetup cfg)
    (hclean : cfg.cleanOutput = false) {data : List Byte} (hdb : cfg.database = some data)
    (hdata : ScriptDatabase data) (s : Reporter) : s.onFile cfg = some (if s.unmarshallingDone then s
      else { (entriesWithHits data).foldl (loadEntry cfg) s with unmarshallingDone := true }) := by
  have hheader := hdata.header hscript
  rw [onFile]
  split
  next => rfl
  next =>
    simp [hclean, hdb, unMarshal_eq, hheader, foldl_loadEntry_filter,
      entriesWithHits]

section Runs

variable {cfg : ReporterSetup} {evs : List Event} {data : List Byte} {s : Reporter}

/-- What a run leaves that finds a database, whenever it is taken in. -/
theorem accumState_run (hscript : ScriptSetup cfg) (hclean : cfg.cleanOutput = false)
    (hdb : cfg.database = some data) (hdata : ScriptDatabase data)
    (hevs : ∀ ev ∈ evs, ScriptLine cfg ev) (hdistinct : DistinctContents cfg evs)
    (hrun : run cfg evs = some s) :
    s.unmarshallingDone = decide (Event.file ∈ evs) ∧
      AccumState cfg (if Event.file ∈ evs then entriesWithHits data else []) evs s := by
  induction evs using List.reverseRecOn generalizing s with
  | nil =>
    cases hrun
    exact ⟨rfl, accumState_create⟩
  | append_singleton evs ev ih =>
    obtain ⟨s₀, hs₀, hstep⟩ := run_snoc_eq_some hrun
    obtain ⟨hdone, h⟩ := ih (fun e he => hevs e (List.mem_append_left _ he))
      (hdistinct.mono (List.subset_append_left _ _)) hs₀
    cases ev with
    | file =>
      rw [step, onFile_script hscript hclean hdb hdata, Option.some.injEq, hdone] at hstep
      have hmem : Event.file ∈ evs ++ [.file] := by simp
      rw [decide_eq_true hmem, if_pos hmem]
      subst hstep
      by_cases hloaded : Event.file ∈ evs
      · rw [if_pos hloaded] at h
        rw [if_pos (decide_eq_true hloaded)]
        exact ⟨hdone.trans (decide_eq_true hloaded), h.other .file (fun _ => rfl) fun _ => rfl⟩
      · rw [if_neg hloaded] at h
        rw [if_neg (by simpa using hloaded)]
        have hall := (h.foldl_loadEntry hscript hdata.entries).other .file (fun _ => rfl) fun _ => rfl
        obtain ⟨hwf, h1, h2, h3, h4⟩ := hall
        exact ⟨rfl, hwf.congr rfl rfl rfl rfl rfl, h1, h2, h3, h4⟩
    | line f n a =>
      have ha : a = scriptAddress cfg.host ⟨f, n⟩ := hevs (.line f n a) (by simp)
      have hmem : Event.file ∈ evs ++ [.line f n a] ↔ Event.file ∈ evs := by simp
      simp only [hmem]
      cases hf : cfg.runFilters f with
      | false =>
        rw [step, onLine_filtered hf, Option.some.injEq] at hstep
        subst hstep
        exact ⟨hdone, h.other _ (fun _ => registers_filtered hf n a) fun _ => rfl⟩
      | true =>
        subst ha
        have hone := onLine_eq_some h.wellFormed ⟨f, n⟩ hf hstep
        have hes : ∀ e ∈ (if Event.file ∈ evs then entriesWithHits data else []), ScriptEntry e := by
          intro e he
          split at he
          next => exact hdata.entries e he
          next => cases he
        exact ⟨hone.unmarshallingDone.trans hdone, h.line hscript.hashFilename hes hf hdistinct hone⟩
    | hit a hits =>
      have hmem : Event.file ∈ evs ++ [.hit a hits] ↔ Event.file ∈ evs := by simp
      simp only [hmem]
      rw [step, Option.some.injEq] at hstep
      subst hstep
      refine ⟨?_, h.hit hscript.maxPossibleHits a hits⟩
      exact (onAddressHit_step h.wellFormed a hits).unmarshallingDone.trans hdone

theorem hitsSince_known (ref : LineRef) (addr : U64) (evs : List Event) :
    hitsSince cfg ref addr true evs = (evs.map (hitsAt addr)).sum := by
  induction evs with
  | nil => rfl
  | cons ev evs ih => rw [hitsSince, if_pos rfl, Bool.true_or, ih, List.map_cons, List.sum_cons]

theorem hitsSince_append {ref : LineRef} {addr : U64} (known : Bool) (setup live : List Event) :
    hitsSince cfg ref addr known (setup ++ live) = hitsSince cfg ref addr known setup +
      hitsSince cfg ref addr (known || setup.any (registers cfg ref)) live := by
  induction setup generalizing known with
  | nil => simp [hitsSince]
  | cons ev setup ih =>
    rw [List.cons_append, hitsSince, hitsSince, ih, List.any_cons, Bool.or_assoc, Nat.add_assoc]

theorem hitsSince_setup {ref : LineRef} {addr : U64} {setup : List Event}
    (hsetup : ∀ ev ∈ setup, ∀ a hits, ev ≠ .hit a hits) (known : Bool) :
    hitsSince cfg ref addr known setup = 0 := by
  induction setup generalizing known with
  | nil => rfl
  | cons ev setup ih =>
    obtain ⟨hev, hrest⟩ := List.forall_mem_cons.mp hsetup
    rw [hitsSince, ih hrest, Nat.add_zero, ite_eq_right_iff]
    intro _
    cases ev with
    | hit a hits => exact absurd rfl (hev a hits)
    | _ => rfl

theorem any_registers_append {ref : LineRef} {setup live : List Event}
    (hlive : ∀ ev ∈ live, ∃ a hits, ev = .hit a hits) :
    (setup ++ live).any (registers cfg ref) = setup.any (registers cfg ref) := by
  have hnone : live.any (registers cfg ref) = false := by
    rw [List.any_eq_false]
    intro ev hev
    obtain ⟨a, hits, rfl⟩ := hlive ev hev
    exact Bool.false_ne_true
  rw [List.any_append, hnone, Bool.or_false]

/-- What a run stores for a line is what it counted. -/
theorem storedHits_marshal (hscript : ScriptSetup cfg) (hevs : ∀ ev ∈ evs, ScriptLine cfg ev)
    (hdistinct : DistinctContents cfg evs) (hrun : run cfg evs = some s) (it : IterationOrder)
    {ref : LineRef} (hreg : evs.any (registers cfg ref) = true)
    (hsmall : (s.counts ref).total.toNat < 2 ^ 31) :
    storedHits (s.marshal cfg it) (cfg.lineId ref) = (s.counts ref).total.toNat := by
  obtain ⟨hwf, haddrs⟩ := run_frame hrun
  have hne : ∀ r, s.counts r ≠ [] ↔ evs.any (registers cfg r) = true := by
    intro r
    rw [← addressesOf_ne_nil, ← haddrs, ne_eq, ne_eq, List.map_eq_nil_iff]
  have hids : DistinctIds cfg s := fun r r' hr hr' =>
    hdistinct.lineId_inj hscript.hashFilename ((hne r).mp hr) ((hne r').mp hr')
  rw [storedHits, ← entryHits_filter, filter_databaseEntries hwf (run_sized hrun).1, entryHits,
    filter_entries hwf (run_sized hrun).1 hids ((hne ref).mpr hreg)]
  have hone : ∃ c, s.counts ref = [(scriptAddress cfg.host ref, c)] := by
    have hfst := haddrs ref
    rw [(addressesOf_script hevs ref).resolve_left (addressesOf_ne_nil.mpr hreg),
      List.map_eq_singleton_iff] at hfst
    obtain ⟨⟨a, c⟩, hcounts, rfl⟩ := hfst
    exact ⟨c, hcounts⟩
  obtain ⟨c, hcounts⟩ := hone
  rw [hcounts, Counts.total, List.map_singleton, List.sum_singleton] at hsmall ⊢
  by_cases hc : c = 0
  · simp [entriesOf, hc]
  · have hpositive : c.msb = false := by
      rw [BitVec.msb_eq_false_iff_two_mul_lt]
      dsimp only at hsmall
      omega
    have hentries : entriesOf (cfg.lineId ref) [(scriptAddress cfg.host ref, c)] =
        [⟨scriptAddress cfg.host ref, cfg.lineId ref, 0, c.signExtend 64⟩] :=
      List.filterMap_cons_some (if_neg hc)
    rw [hentries, List.map_singleton, List.sum_singleton,
      BitVec.signExtend_eq_setWidth_of_msb_false hpositive, BitVec.toNat_setWidth]
    exact Nat.mod_eq_of_lt (by omega)

end Runs

/-- A run over scripts that finds the database `data`: the lines are registered and the database is
taken in, in any order, and then there are hits. -/
structure ScriptRun (cfg : ReporterSetup) (data : List Byte) (setup live : List Event) : Prop where
  script : ScriptSetup cfg
  cleanOutput : cfg.cleanOutput = false
  database : cfg.database = some data
  written : ScriptDatabase data
  lines : ∀ ev ∈ setup, ScriptLine cfg ev ∧ ∀ a hits, ev ≠ .hit a hits
  load : setup.count .file = 1
  hits : ∀ ev ∈ live, ∃ a hits, ev = .hit a hits
  distinct : DistinctContents cfg setup

/-- The count of a line that is not excluded is what was stored for it and what was hit since. -/
theorem accumulates (cfg : ReporterSetup) (data : List Byte) (setup live : List Event)
    (hscript : ScriptRun cfg data setup live) {s : Reporter}
    (hrun : run cfg (setup ++ live) = some s) (ref : LineRef)
    (hreg : setup.any (registers cfg ref) = true) (hreachable : cfg.excluded ref = false)
    (hsmall : storedHits data (cfg.lineId ref) +
      (live.map (hitsAt (scriptAddress cfg.host ref))).sum < 2 ^ 31) :
    (s.getLineExecutionCount cfg ref.file ref.lineNr).hits.toNat =
      storedHits data (cfg.lineId ref) + (live.map (hitsAt (scriptAddress cfg.host ref))).sum := by
  have hlive := hscript.hits
  have hevs : ∀ ev ∈ setup ++ live, ScriptLine cfg ev := by
    intro ev hev
    rcases List.mem_append.mp hev with hev | hev
    · exact (hscript.lines ev hev).1
    · obtain ⟨a, hits, rfl⟩ := hlive ev hev
      exact trivial
  have hall : DistinctContents cfg (setup ++ live) := by
    intro r r' hr hr'
    rw [any_registers_append hlive] at hr hr'
    exact hscript.distinct r r' hr hr'
  have hload := hscript.load
  have hfile : Event.file ∈ setup ++ live :=
    List.mem_append_left _ (List.count_pos_iff.mp (by omega))
  obtain ⟨-, h⟩ := accumState_run hscript.script hscript.cleanOutput hscript.database
    hscript.written hevs hall hrun
  have hcounts := h.counts ref
  rw [if_pos hfile, any_registers_append hlive, if_pos hreg, hitsSince_append,
    hitsSince_setup fun ev hev => (hscript.lines ev hev).2, Nat.zero_add, Bool.false_or, hreg,
    hitsSince_known, entriesWithHits, entryHits_filter, ← storedHits] at hcounts
  rw [hits_eq h.wellFormed, if_neg (by rw [hreachable]; exact Bool.false_ne_true), hcounts,
    Counts.total, List.map_singleton, List.sum_singleton, BitVec.toNat_ofNat]
  exact Nat.mod_eq_of_lt (by omega)

/-! ### One script, run twice -/

/-- The first run parses the script. -/
def scriptOnce : List Event := [.line (ascii "/a") 1 copiesAddress, .hit copiesAddress 3]

/-- The second run finds the database `data`. -/
def againSetup (excludeLine : Text) (data : List Byte) : ReporterSetup :=
  { copiesSetup with excludeLine, database := some data }

/-- It parses the script before it takes in the database. -/
def scriptAgain : List Event := [.line (ascii "/a") 1 copiesAddress, .file]

section Again

variable {data : List Byte}

theorem registers_scriptAgain {cfg : ReporterSetup} {r : LineRef}
    (h : scriptAgain.any (registers cfg r) = true) : r = ⟨ascii "/a", 1⟩ := by
  obtain ⟨a, ha⟩ := exists_line_of_registers h
  simp only [scriptAgain, List.mem_cons, Event.line.injEq, reduceCtorEq, List.not_mem_nil,
    or_false] at ha
  rw [← ha.1, ← ha.2.1]

theorem scriptRun_scriptAgain (hdata : ScriptDatabase data) (excludeLine : Text) (hits : U64) :
    ScriptRun (againSetup excludeLine data) data scriptAgain [.hit copiesAddress hits] := by
  refine ⟨⟨rfl, rfl, rfl⟩, rfl, rfl, hdata, ?_, by decide, by simp, fun r r' hr hr' _ => ?_⟩
  · refine List.forall_mem_cons.mpr ⟨⟨?_, by simp⟩, by simp [ScriptLine]⟩
    exact (by decide : copiesAddress = scriptAddress copiesHost ⟨ascii "/a", 1⟩)
  · rw [registers_scriptAgain hr, registers_scriptAgain hr']

/-- The second run goes through, whatever it finds. -/
theorem run_scriptAgain (hdata : ScriptDatabase data) (excludeLine : Text) (hits : U64) :
    ∃ t, run (againSetup excludeLine data) (scriptAgain ++ [.hit copiesAddress hits]) = some t := by
  have hscript := scriptRun_scriptAgain hdata excludeLine hits
  have hopens : Opens (againSetup excludeLine data) (ascii "/a") := by
    rw [Opens, show (againSetup excludeLine data).host.getLines (ascii "/a") = [ascii "true"] from rfl]
    decide
  obtain ⟨s, hs, -⟩ := onLine_isSome (run_sized (rfl : run (againSetup excludeLine data) [] = some _)).1
    (show Admits (againSetup excludeLine data) (.line (ascii "/a") 1 copiesAddress) from
      fun _ => ⟨by rw [Fits]; decide, hopens⟩)
  have hload := onFile_script hscript.script hscript.cleanOutput hscript.database hdata s
  rw [← Option.isSome_iff_exists, scriptAgain, run]
  simp only [List.cons_append, List.nil_append, List.foldlM_cons, List.foldlM_nil, step, hs, hload,
    Option.bind_eq_bind, Option.bind_some, Option.pure_def, Option.isSome_some]

end Again

/-- Three hits are stored, and two are added. -/
theorem accumulates_again : ∃ s, run copiesSetup scriptOnce = some s ∧
    ∃ t, run (againSetup [] (s.marshal copiesSetup foundOrder))
        (scriptAgain ++ [.hit copiesAddress 2]) = some t ∧
      (t.getLineExecutionCount (againSetup [] (s.marshal copiesSetup foundOrder))
        (ascii "/a") 1).hits.toNat = 5 := by
  obtain ⟨s, hs⟩ : ∃ s, run copiesSetup scriptOnce = some s := ⟨_, rfl⟩
  have hevs : ∀ ev ∈ scriptOnce, ScriptLine copiesSetup ev :=
    List.forall_mem_cons.mpr ⟨rfl, by simp [ScriptLine]⟩
  have hdata : ScriptDatabase (s.marshal copiesSetup foundOrder) :=
    ⟨copiesSetup, scriptOnce, s, foundOrder, ⟨rfl, rfl, rfl⟩, hevs, hs, rfl⟩
  obtain ⟨t, ht⟩ := run_scriptAgain hdata [] 2
  have hcounts : (run copiesSetup scriptOnce).map (fun s => s.counts ⟨ascii "/a", 1⟩) =
      some [(copiesAddress, 3)] := by decide
  rw [hs, Option.map_some, Option.some.injEq] at hcounts
  have hstored : storedHits (s.marshal copiesSetup foundOrder)
      (copiesSetup.lineId ⟨ascii "/a", 1⟩) = 3 := by
    rw [storedHits_marshal ⟨rfl, rfl, rfl⟩ hevs (fun r r' hr hr' _ => ?_) hs foundOrder
      (by decide) (by rw [hcounts]; decide), hcounts]
    · rfl
    · obtain ⟨a, ha⟩ := exists_line_of_registers hr
      obtain ⟨b, hb⟩ := exists_line_of_registers hr'
      simp only [scriptOnce, List.mem_cons, Event.line.injEq, reduceCtorEq, List.not_mem_nil,
        or_false] at ha hb
      rw [ha.1, hb.1]
  have hreachable : (againSetup [] []).excluded ⟨ascii "/a", 1⟩ = false := by decide
  have hsum : storedHits (s.marshal copiesSetup foundOrder)
      ((againSetup [] (s.marshal copiesSetup foundOrder)).lineId ⟨ascii "/a", 1⟩) +
      ([Event.hit copiesAddress 2].map
        (hitsAt (scriptAddress copiesHost ⟨ascii "/a", 1⟩))).sum = 5 :=
    (congrArg (· + _) hstored).trans (by decide)
  have htotal := accumulates (againSetup [] (s.marshal copiesSetup foundOrder)) _ scriptAgain
    [.hit copiesAddress 2] (scriptRun_scriptAgain hdata [] 2) ht ⟨ascii "/a", 1⟩ rfl hreachable
    (lt_of_eq_of_lt hsum (by decide))
  exact ⟨s, hs, t, ht, htotal.trans hsum⟩

/-- The database of a run without lines. -/
def emptyDatabase : List Byte := (create copiesSetup).marshal copiesSetup foundOrder

/-- A line that is left out is hit like any other, but has no count. -/
theorem excluded_not_accumulated :
    ScriptRun (againSetup (ascii "true") emptyDatabase) emptyDatabase scriptAgain
      [.hit copiesAddress 1] ∧
    scriptAgain.any (registers (againSetup (ascii "true") emptyDatabase) ⟨ascii "/a", 1⟩) = true ∧
    ∃ t, run (againSetup (ascii "true") emptyDatabase)
        (scriptAgain ++ [.hit copiesAddress 1]) = some t ∧
      (t.getLineExecutionCount (againSetup (ascii "true") emptyDatabase)
        (ascii "/a") 1).hits.toNat = 0 ∧
      storedHits emptyDatabase (copiesSetup.lineId ⟨ascii "/a", 1⟩) +
        ([Event.hit copiesAddress 1].map (hitsAt copiesAddress)).sum = 1 := by
  have hdata : ScriptDatabase emptyDatabase :=
    ⟨copiesSetup, [], create copiesSetup, foundOrder, ⟨rfl, rfl, rfl⟩, by simp, rfl, rfl⟩
  obtain ⟨t, ht⟩ := run_scriptAgain hdata (ascii "true") 1
  refine ⟨scriptRun_scriptAgain hdata _ 1, rfl, t, ht, ?_, by decide⟩
  have hcount := hits_eq (run_frame ht).1 ⟨ascii "/a", 1⟩
  rw [if_pos (by decide)] at hcount
  rw [hcount]
  rfl

end Kcov.Reporter
