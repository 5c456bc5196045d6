import Kcov.Reporter.Lookup
import Mathlib.Data.List.Nodup

/-! What each call of the parser and of the collector does to a reporter. -/

namespace Kcov.Reporter

open Bytes

/-! ### Lines -/

section OnLine

variable {cfg : ReporterSetup} {s t : Reporter} {ref : LineRef} {addr : U64}

theorem replay_frame (pending : List PendingFileAddress) (line : Line) :
    (replay pending line).lineId = line.lineId ∧
      (replay pending line).unreachable = line.unreachable ∧
      (replay pending line).addresses = line.addresses := by
  induction pending generalizing line with
  | nil => exact ⟨rfl, rfl, rfl⟩
  | cons p pending ih =>
    obtain ⟨h1, h2, h3⟩ := ih (line.registerHitIndex p.index p.hits)
    exact ⟨h1.trans Line.lineId_registerHitIndex, h2.trans Line.unreachable_registerHitIndex,
      h3.trans Line.addresses_registerHitIndex⟩

theorem ne_nil_of_mem_addresses {line : Line} {a : U64} (h : a ∈ line.addresses) :
    line.addrs ≠ [] := by
  rintro hnil
  simp [Line.addresses, hnil] at h

/-- The effect of `onLine` for a line at `ref` of an included file. -/
structure LineStep (cfg : ReporterSetup) (s : Reporter) (ref : LineRef) (addr : U64)
    (t : Reporter) : Prop where
  wellFormed : t.WellFormed cfg
  line_self : t.line? ref = some (replay (s.pendingFiles (cfg.lineId ref))
    ((baseLine cfg s ref).addAddress addr))
  line_other : ∀ r, r ≠ ref → t.line? r =
    if r.file = ref.file ∧ s.files ref.file = none then cfg.freshLine r else s.line? r
  files : ∀ q, (t.files q).isSome ↔ q = ref.file ∨ (s.files q).isSome
  addrToLine : t.addrToLine =
    if (s.addrToLine addr).any fun r => cfg.lineId r == cfg.lineId ref then s.addrToLine
    else Function.update s.addrToLine addr (s.addrToLine addr ++ [ref])
  lineIdToFile : t.lineIdToFile = Function.update s.lineIdToFile (cfg.lineId ref) (some ref)
  pendingFiles : t.pendingFiles = Function.update s.pendingFiles (cfg.lineId ref) []
  unmarshallingDone : t.unmarshallingDone = s.unmarshallingDone
  order : t.order = s.order
  notified : t.notified = s.notified ++
    (s.pendingFiles (cfg.lineId ref)).map (fun p => .onAddress (cfg.lineId ref) p.hits) ++
    [.onLineReporter ref.file ref.lineNr (cfg.lineId ref)]

/-- The duplicate check compares the numbers of the lines. -/
theorem any_lineId (hwf : s.WellFormed cfg) (id : U64) :
    ((s.addrToLine addr).any fun r => (s.line? r).any fun line => line.lineId == id) =
      (s.addrToLine addr).any fun r => cfg.lineId r == id := by
  rw [Bool.eq_iff_iff, List.any_eq_true, List.any_eq_true]
  refine exists_congr fun r => and_congr_right fun hr => ?_
  obtain ⟨line, hline, -⟩ := hwf.addrToLine addr r hr
  rw [hline, Option.any_some, hwf.lineId r line hline]

theorem registerAddress_addrToLine (hwf : s.WellFormed cfg) (ref : LineRef) (id addr : U64) :
    (s.registerAddress ref id addr).addrToLine =
      if (s.addrToLine addr).any fun r => cfg.lineId r == id then s.addrToLine
      else Function.update s.addrToLine addr (s.addrToLine addr ++ [ref]) := by
  simp only [registerAddress, any_lineId hwf]
  rw [(modifyLine_links _ _ _).addrToLine]

theorem registerAddress_lineIdToFile (s : Reporter) (ref : LineRef) (id addr : U64) :
    (s.registerAddress ref id addr).lineIdToFile =
      Function.update s.lineIdToFile id (some ref) := by
  simp only [registerAddress]
  rw [(modifyLine_links _ _ _).lineIdToFile]

theorem registerAddress_line? {line : Line} (hline : s.line? ref = some line) (id : U64)
    (r : LineRef) : (s.registerAddress ref id addr).line? r =
      if r = ref then some (replay (s.pendingFiles id) (line.addAddress addr))
      else s.line? r := by
  have h := line?_modifyLine s ref r
    fun line => replay (s.pendingFiles id) (line.addAddress addr)
  rw [hline, Option.map_some] at h
  exact h

section Register

variable {line : Line} {id : U64}

theorem registerAddress_self (hline : s.line? ref = some line) :
    ∃ line', (s.registerAddress ref id addr).line? ref = some line' ∧ addr ∈ line'.addresses := by
  refine ⟨_, (registerAddress_line? hline id ref).trans (if_pos rfl), ?_⟩
  rw [(replay_frame _ _).2.2]
  exact Line.mem_addresses_addAddress

theorem registerAddress_mem (hline : s.line? ref = some line) {r : LineRef} {a : U64}
    {line₁ : Line} (hs : s.line? r = some line₁) (ha : a ∈ line₁.addresses) :
    ∃ line', (s.registerAddress ref id addr).line? r = some line' ∧ a ∈ line'.addresses := by
  rw [registerAddress_line? hline]
  split
  next hr =>
    subst hr
    rw [hline, Option.some.injEq] at hs
    refine ⟨_, rfl, ?_⟩
    rw [(replay_frame _ _).2.2]
    exact Line.mem_addresses_addAddress_of_mem (hs ▸ ha)
  next => exact ⟨line₁, hs, ha⟩

theorem mem_addrToLine_registerAddress (hwf : s.WellFormed cfg) {r : LineRef} {a : U64}
    (hr : r ∈ (s.registerAddress ref id addr).addrToLine a) :
    r ∈ s.addrToLine a ∨ (r = ref ∧ a = addr) := by
  rw [registerAddress_addrToLine hwf] at hr
  split at hr
  next => exact Or.inl hr
  next =>
    rw [Function.update_apply] at hr
    split at hr
    next ha =>
      rcases List.mem_append.mp hr with hr | hr
      · exact Or.inl (ha ▸ hr)
      · exact Or.inr ⟨List.mem_singleton.mp hr, ha⟩
    next => exact Or.inl hr

/-- The duplicate check keeps the lines of an address apart. -/
theorem nodup_addrToLine_registerAddress (hwf : s.WellFormed cfg) (a : U64) :
    (((s.registerAddress ref (cfg.lineId ref) addr).addrToLine a).map cfg.lineId).Nodup := by
  rw [registerAddress_addrToLine hwf]
  split
  next => exact hwf.addrToLine_nodup a
  next hdup =>
    rw [Function.update_apply]
    split
    next =>
      rw [List.map_append, List.nodup_append]
      refine ⟨hwf.addrToLine_nodup addr, by simp, fun x hx y hy heq => hdup ?_⟩
      obtain ⟨r, hr, rfl⟩ := List.mem_map.mp hx
      rw [List.map_singleton, List.mem_singleton] at hy
      exact List.any_eq_true.mpr ⟨r, hr, beq_iff_eq.mpr (heq.trans hy)⟩
    next => exact hwf.addrToLine_nodup a

theorem registerAddress_wellFormed (hwf : s.WellFormed cfg) (hline : s.line? ref = some line) :
    (s.registerAddress ref (cfg.lineId ref) addr).WellFormed cfg := by
  obtain ⟨hid, hunreachable, haddrs⟩ :=
    replay_frame (s.pendingFiles (cfg.lineId ref)) (line.addAddress addr)
  have hfiles : SameFiles s (s.registerAddress ref (cfg.lineId ref) addr) :=
    ⟨sameFiles_modifyLine.fileNames, sameFiles_modifyLine.lineHandler, sameFiles_modifyLine.hashes⟩
  refine hwf.of_sameFiles hfiles (fun r => ?_) (fun r line₁ line₂ hs ht => ?_) (fun a r hr => ?_)
    (nodup_addrToLine_registerAddress hwf) (fun id r hr => ?_) (fun r line₁ ht hne => ?_)
  · rw [registerAddress_line? hline]
    split
    next hr => rw [hr, hline]; rfl
    next => rfl
  · rw [registerAddress_line? hline] at ht
    split at ht
    next hr =>
      subst hr
      rw [hline, Option.some.injEq] at hs
      rw [← Option.some.inj ht, hid, hunreachable, haddrs, ← hs]
      exact ⟨Line.lineId_addAddress, Line.unreachable_addAddress,
        Line.nodup_addAddress (hwf.addresses _ _ hline)⟩
    next =>
      rw [hs, Option.some.injEq] at ht
      exact ht ▸ ⟨rfl, rfl, hwf.addresses r line₁ hs⟩
  · rcases mem_addrToLine_registerAddress hwf hr with hr | ⟨rfl, rfl⟩
    · obtain ⟨line', hs, ha⟩ := hwf.addrToLine a r hr
      exact registerAddress_mem hline hs ha
    · exact registerAddress_self hline
  · rw [registerAddress_lineIdToFile, Function.update_apply] at hr
    split at hr
    next hid' =>
      obtain ⟨line', ht, ha⟩ := registerAddress_self hline
      rw [← Option.some.inj hr]
      exact ⟨hid'.symm, line', ht, ne_nil_of_mem_addresses ha⟩
    next =>
      obtain ⟨hrid, line', hs, hne⟩ := hwf.lineIdToFile id r hr
      obtain ⟨p, hp⟩ := List.exists_mem_of_ne_nil _ hne
      obtain ⟨line'', ht, ha⟩ := registerAddress_mem hline hs (List.mem_map_of_mem hp)
      exact ⟨hrid, line'', ht, ne_nil_of_mem_addresses ha⟩
  · rw [registerAddress_lineIdToFile, Function.update_apply]
    split
    next => rfl
    next hne' =>
      rw [registerAddress_line? hline, if_neg (fun hr => hne' (by rw [hr]))] at ht
      exact hwf.registered r line₁ ht hne

end Register

theorem onLine_filtered {file : Text} {lineNr : U32} (hfilter : cfg.runFilters file = false) :
    s.onLine cfg file lineNr addr = some s := by
  simp [onLine, hfilter]

theorem onLine_eq_some (hwf : s.WellFormed cfg) (ref : LineRef)
    (hfilter : cfg.runFilters ref.file = true)
    (h : s.onLine cfg ref.file ref.lineNr addr = some t) : LineStep cfg s ref addr t := by
  obtain ⟨f, n⟩ := ref
  simp only [onLine, hfilter, Bool.not_true, Bool.false_eq_true, if_false, Option.bind_eq_bind,
    Option.bind_eq_some_iff] at h
  obtain ⟨s₁, hopen, s₂, hopen₂, h⟩ := h
  obtain ⟨hwf₁, hlinks₁, hfiles₁, hline₁⟩ := openFile_eq_some hwf hopen
  obtain ⟨hwf₂, hlinks₂, hfiles₂, hline₂⟩ := openLine_eq_some hwf₁
    ((hfiles₁ f).mpr (Or.inl rfl)) hopen₂
  have hbase : baseLine cfg s₁ ⟨f, n⟩ = baseLine cfg s ⟨f, n⟩ := by
    rw [baseLine, hline₁, baseLine]
    split
    next hnew =>
      have hnone : s.line? ⟨f, n⟩ = none := by simp [line?, hnew.2]
      rw [hnone, Option.getD_none, ReporterSetup.freshLine]
      split
      next hex => rw [Option.getD_some, hex]
      next => rfl
    next => rfl
  have hself : s₂.line? ⟨f, n⟩ = some (baseLine cfg s ⟨f, n⟩) := by rw [hline₂, if_pos rfl, hbase]
  simp only [hself, hwf₂.lineId ⟨f, n⟩ _ hself, Option.pure_def, Option.some.injEq] at h
  subst h
  have hpending : s₂.pendingFiles = s.pendingFiles :=
    hlinks₂.pendingFiles.trans hlinks₁.pendingFiles
  have haddr : s₂.addrToLine = s.addrToLine := hlinks₂.addrToLine.trans hlinks₁.addrToLine
  refine ⟨registerAddress_wellFormed hwf₂ hself, ?_, fun r hr => ?_, fun q => ?_, ?_, ?_, ?_, ?_,
    ?_, ?_⟩
  · rw [registerAddress_line? hself, if_pos rfl, hpending]
  · rw [registerAddress_line? hself, if_neg hr, hline₂, if_neg hr, hline₁]
  · rw [show ((s₂.registerAddress ⟨f, n⟩ _ addr).files q).isSome ↔ (s₂.files q).isSome from
      sameFiles_modifyLine.isSome q, hfiles₂, hfiles₁]
  · rw [registerAddress_addrToLine hwf₂, haddr]
  · rw [registerAddress_lineIdToFile, hlinks₂.lineIdToFile, hlinks₁.lineIdToFile]
  · simp only [registerAddress]
    rw [(modifyLine_links _ _ _).pendingFiles, hpending]
  · simp only [registerAddress]
    rw [(modifyLine_links _ _ _).unmarshallingDone, hlinks₂.unmarshallingDone,
      hlinks₁.unmarshallingDone]
  · simp only [registerAddress]
    rw [(modifyLine_links _ _ _).order, hlinks₂.order, hlinks₁.order]
  · simp only [registerAddress]
    rw [(modifyLine_links _ _ _).notified, hlinks₂.notified, hlinks₁.notified, hpending]

end OnLine

/-! ### Hits -/

section OnAddressHit

variable {cfg : ReporterSetup} {s t u : Reporter} {addr hits : U64}

/-- The effect of a hit at `addr` on the lines at `refs`. -/
structure HitStep (cfg : ReporterSetup) (s : Reporter) (addr hits : U64) (refs : List LineRef)
    (t : Reporter) : Prop where
  wellFormed : t.WellFormed cfg
  line : ∀ r line, s.line? r = some line → ∃ order, t.line? r = some
    { (if r ∈ refs then line.registerHit addr hits cfg.singleShot else line) with order }
  isSome : ∀ r, (t.line? r).isSome = (s.line? r).isSome
  files : ∀ q, (t.files q).isSome ↔ (s.files q).isSome
  addrToLine : t.addrToLine = s.addrToLine
  lineIdToFile : t.lineIdToFile = s.lineIdToFile
  pendingFiles : t.pendingFiles = s.pendingFiles
  unmarshallingDone : t.unmarshallingDone = s.unmarshallingDone
  notified : t.notified = s.notified ++ refs.map fun r => .onAddress (cfg.lineId r) hits

theorem hitStep_nil (hwf : s.WellFormed cfg) : HitStep cfg s addr hits [] s :=
  ⟨hwf, fun _ line h => ⟨line.order, by simpa using h⟩, fun _ => rfl, fun _ => Iff.rfl, rfl, rfl,
    rfl, rfl, by simp⟩

theorem hitLine_step (hwf : s.WellFormed cfg) (hits : U64) {ref : LineRef} {line : Line}
    (hline : s.line? ref = some line) (haddr : addr ∈ line.addresses) :
    HitStep cfg s addr hits [ref] (hitLine cfg addr hits s ref) := by
  let g := fun l : Line =>
    if line.order = 0 then { l.registerHit addr hits cfg.singleShot with order := s.order }
    else l.registerHit addr hits cfg.singleShot
  have heq : hitLine cfg addr hits s ref = { s.modifyLine ref g with
      order := if line.order = 0 then s.order + 1 else s.order
      notified := s.notified ++ [.onAddress line.lineId hits] } := by
    simp only [hitLine, hline, g]
  have hlook : ∀ r, (hitLine cfg addr hits s ref).line? r =
      if r = ref then some (g line) else s.line? r := by
    intro r
    rw [heq, ← Option.map_some, ← hline]
    exact line?_modifyLine s ref r g
  have hg : (g line).lineId = line.lineId ∧ (g line).unreachable = line.unreachable ∧
      (g line).addresses = line.addresses := by
    have hreg := Line.addresses_registerHit hits cfg.singleShot haddr
    simp only [g]
    split
    · exact ⟨rfl, rfl, hreg⟩
    · exact ⟨rfl, rfl, hreg⟩
  have hwf' := hwf.modifyCounts ref (g := g) fun l hl => by
    rw [hline, Option.some.injEq] at hl
    exact hl ▸ hg
  have hlinks := modifyLine_links s ref g
  have hfiles : SameFiles s (s.modifyLine ref g) := sameFiles_modifyLine
  refine ⟨?_, fun r l hl => ?_, fun r => ?_, fun q => ?_, ?_, ?_, ?_, ?_, ?_⟩
  · rw [heq]
    exact hwf'.congr rfl rfl rfl rfl rfl
  · rw [hlook]
    by_cases hr : r = ref
    · subst hr
      rw [hline, Option.some.injEq] at hl
      subst hl
      rw [if_pos rfl, if_pos (List.mem_singleton.mpr rfl)]
      by_cases hfirst : line.order = 0
      · exact ⟨s.order, by simp only [g, if_pos hfirst]⟩
      · exact ⟨(line.registerHit addr hits cfg.singleShot).order, by simp only [g, if_neg hfirst]⟩
    · rw [if_neg hr, if_neg (by simpa using hr)]
      exact ⟨l.order, hl⟩
  · rw [hlook]
    split
    next hr => rw [hr, hline]; rfl
    next => rfl
  · rw [heq]
    exact hfiles.isSome q
  · rw [heq]
    exact hlinks.addrToLine
  · rw [heq]
    exact hlinks.lineIdToFile
  · rw [heq]
    exact hlinks.pendingFiles
  · rw [heq]
    exact hlinks.unmarshallingDone
  · rw [heq, hwf.lineId ref line hline]
    rfl

theorem foldl_hitLine (hwf : s.WellFormed cfg) (refs : List LineRef) (hnodup : refs.Nodup)
    (hrefs : ∀ r ∈ refs, ∃ line, s.line? r = some line ∧ addr ∈ line.addresses) :
    HitStep cfg s addr hits refs (refs.foldl (hitLine cfg addr hits) s) := by
  induction refs generalizing s with
  | nil => exact hitStep_nil hwf
  | cons ref refs ih =>
    obtain ⟨hnot, hnodup⟩ := List.nodup_cons.mp hnodup
    obtain ⟨⟨line, hline, haddr⟩, hrefs⟩ := List.forall_mem_cons.mp hrefs
    have hone := hitLine_step hwf hits hline haddr
    have hrest := ih hone.wellFormed hnodup fun r hr => by
      obtain ⟨l, hl, ha⟩ := hrefs r hr
      obtain ⟨order, ht⟩ := hone.line r l hl
      rw [if_neg (by simpa using fun h : r = ref => hnot (h ▸ hr))] at ht
      exact ⟨_, ht, ha⟩
    refine ⟨hrest.wellFormed, fun r l hl => ?_, fun r => ?_, fun q => ?_, ?_, ?_, ?_, ?_, ?_⟩
    · obtain ⟨o₁, h₁⟩ := hone.line r l hl
      obtain ⟨o₂, h₂⟩ := hrest.line r _ h₁
      refine ⟨o₂, h₂.trans ?_⟩
      by_cases hr : r = ref
      · subst hr
        simp [hnot]
      · by_cases hmem : r ∈ refs
        · simp [hr, hmem, Line.registerHit]
        · simp [hr, hmem]
    · exact (hrest.isSome r).trans (hone.isSome r)
    · exact (hrest.files q).trans (hone.files q)
    · exact hrest.addrToLine.trans hone.addrToLine
    · exact hrest.lineIdToFile.trans hone.lineIdToFile
    · exact hrest.pendingFiles.trans hone.pendingFiles
    · exact hrest.unmarshallingDone.trans hone.unmarshallingDone
    · rw [List.foldl_cons, hrest.notified, hone.notified, List.append_assoc]
      rfl

theorem onAddressHit_step (hwf : s.WellFormed cfg) (addr hits : U64) :
    HitStep cfg s addr hits (s.addrToLine addr) (s.onAddressHit cfg addr hits) :=
  foldl_hitLine hwf _ (List.Nodup.of_map cfg.lineId (hwf.addrToLine_nodup addr))
    (hwf.addrToLine addr)

end OnAddressHit

end Kcov.Reporter
