import Kcov.Lib.Runs
import Kcov.Merge.Records

/-! The calls of a reporter reach the merge parser in any order: hits that come before their line
wait for it. -/

namespace Kcov

open Bytes Runs

/-- The line that a call of a reporter is about. -/
def Notification.lineId : Notification → U64
  | .onAddress lineHash _ => lineHash
  | .onLineReporter _ _ lineId => lineId

/-- The call registers the line `id`. -/
def Notification.isLine (id : U64) : Notification → Bool
  | .onAddress _ _ => false
  | .onLineReporter _ _ lineId => lineId = id

/-- The hits of the line `id` that the call reports. -/
def Notification.hits (id : U64) : Notification → Nat
  | .onAddress lineHash hits => if lineHash = id then hits.toNat else 0
  | .onLineReporter _ _ _ => 0

namespace MergeParser

/-- A new parser after the calls of a reporter, or `none` where it panics. -/
def runNotifications (cfg : MergeSetup) (calls : List Notification) : Option MergeParser :=
  calls.foldlM (onNotification cfg) create

/-- The address under which the parser stores a line. -/
def storedAddress (cfg : MergeSetup) (r : LineRef) : U64 :=
  hashAddress cfg.host r.file r.lineNr &&& ~~~hitBit

/-- The counter of an address. -/
def hitCount (s : MergeParser) (f : Text) (a : U64) : U32 :=
  ((s.files f).map fun file => file.addrHits.count a).getD 0

section Counts

variable {cfg : MergeSetup} {s t : MergeParser} {f g : Text} {a b : U64}

theorem isHit_eq_hitCount : s.isHit f a = decide (s.hitCount f a ≠ 0) := by
  rw [isHit, hitCount]
  cases s.files f <;> simp [MergeFile.isHit]

theorem hitCount_registerHits (hsome : (s.files f).isSome) (n : U32) :
    (s.modifyFile f fun file => file.registerHits a n).hitCount g b =
      if g = f ∧ b = a then s.hitCount g b + n else s.hitCount g b := by
  obtain ⟨file, hfile⟩ := Option.isSome_iff_exists.mp hsome
  rw [hitCount, hitCount, modifyFile_files]
  by_cases hg : g = f
  · subst hg
    simp only [if_true, true_and, hfile, Option.map_some, Option.getD_some, MergeFile.registerHits,
      AddrMap.count_addTo]
    split
    next hb => rw [hb]
    next => rfl
  · simp [hg]

theorem hitCount_addLine (n : U32) :
    (s.modifyFile f fun file => file.setLocal.addLine n a).hitCount g b = s.hitCount g b := by
  rw [hitCount, hitCount, modifyFile_files]
  split
  next hg =>
    subst hg
    rw [Option.map_map]
    rfl
  next => rfl

theorem isSome_files_modifyFile (u : MergeFile → MergeFile) :
    ((s.modifyFile f u).files g).isSome = (s.files g).isSome := by
  rw [modifyFile_files]
  split
  next hg => rw [hg, Option.isSome_map]
  next => rfl

/-- A file is opened without hits. -/
theorem openFile_frame (h : s.openFile cfg f = some t) :
    t.fileLineByAddress = s.fileLineByAddress ∧ t.filesByAddress = s.filesByAddress ∧
      t.pendingHits = s.pendingHits ∧ t.reported = s.reported ∧ (t.files f).isSome ∧
      (∀ g, (s.files g).isSome → (t.files g).isSome) ∧ ∀ g a, t.hitCount g a = s.hitCount g a := by
  rw [openFile] at h
  cases hfile : s.files f with
  | some file =>
    simp only [hfile, Option.some.injEq] at h
    subst h
    exact ⟨rfl, rfl, rfl, rfl, by rw [hfile]; rfl, fun _ hg => hg, fun _ _ => rfl⟩
  | none =>
    simp only [hfile, Option.bind_eq_bind, Option.bind_eq_some_iff, Option.pure_def,
      Option.some.injEq] at h
    obtain ⟨file, hcreate, rfl⟩ := h
    obtain ⟨data, -, rfl⟩ := create_eq_some.mp hcreate
    refine ⟨rfl, rfl, rfl, rfl, by simp, fun g hg => ?_, fun g a => ?_⟩
    · dsimp only
      rw [Function.update_apply]
      split
      · rfl
      · exact hg
    · dsimp only [hitCount]
      rw [Function.update_apply]
      split
      next hg =>
        subst hg
        rw [hfile]
        simp [AddrMap.count]
      next => rfl

end Counts

/-! ### One call -/

/-- What `onAddress` does for a line that is known, as the address `a` of the file `f`. -/
structure AddressStep (s : MergeParser) (f : Text) (a hits : U64) (t : MergeParser) : Prop where
  fileLine : t.fileLineByAddress = s.fileLineByAddress
  filesBy : t.filesByAddress = s.filesByAddress
  pending : t.pendingHits = s.pendingHits
  opened : ∀ g, (s.files g).isSome → (t.files g).isSome
  count : ∀ g b, t.hitCount g b =
    if g = f ∧ b = a then s.hitCount g b + hits.setWidth 32 else s.hitCount g b
  reported : t.reported = s.reported ++ [.hit a hits]

/-- What `onLineReporter` does for a line of an existing, included file, with the hits that were
waiting for it. -/
structure LineStep (cfg : MergeSetup) (s : MergeParser) (r : LineRef) (id : U64) (t : MergeParser) :
    Prop where
  fileLine : t.fileLineByAddress =
    Function.update s.fileLineByAddress id (some (storedAddress cfg r))
  filesBy : t.filesByAddress = Function.update s.filesByAddress (storedAddress cfg r) (some r.file)
  pending : t.pendingHits = Function.update s.pendingHits id none
  opened : ∀ g, g = r.file ∨ (s.files g).isSome → (t.files g).isSome
  count : ∀ g b, t.hitCount g b = if g = r.file ∧ b = storedAddress cfg r
    then s.hitCount g b + ((s.pendingHits id).getD 0).setWidth 32 else s.hitCount g b
  reported : t.reported = s.reported ++ .line r.file r.lineNr (storedAddress cfg r) ::
    ((s.pendingHits id).map fun hits => .hit (storedAddress cfg r) hits).toList

section Calls

variable {cfg : MergeSetup} {s t : MergeParser} {f : Text} {a id : U64} {r : LineRef}

theorem onAddress_known (hits : U64) (hline : s.fileLineByAddress id = some a)
    (hfile : s.filesByAddress a = some f) (hopened : (s.files f).isSome) :
    AddressStep s f a hits (s.onAddress id hits) := by
  have heq : s.onAddress id hits = (s.modifyFile f fun file =>
      file.registerHits a (hits.setWidth 32)).report (.hit a hits) := by
    simp only [onAddress, hline, hfile]
  rw [heq]
  refine ⟨rfl, rfl, rfl, fun g hg => ?_, fun g b => ?_, rfl⟩
  · rw [report, isSome_files_modifyFile]
    exact hg
  · exact hitCount_registerHits hopened _

theorem onAddress_unknown (hits : U64) (hline : s.fileLineByAddress id = none) :
    s.onAddress id hits =
      { s with pendingHits := Function.update s.pendingHits id (some hits) } := by
  simp only [onAddress, hline]

/-- The parser when the line is registered, and the hits that wait for it are not counted yet. -/
def registerLine (cfg : MergeSetup) (s : MergeParser) (r : LineRef) (id : U64) : MergeParser :=
  let a := storedAddress cfg r
  let s := { s with fileLineByAddress := Function.update s.fileLineByAddress id (some a) }
  let s := s.modifyFile r.file fun file => file.setLocal.addLine r.lineNr a
  let s := { s with filesByAddress := Function.update s.filesByAddress a (some r.file) }
  s.report (.line r.file r.lineNr a)

theorem onLineReporter_eq (hfilter : cfg.runFilters r.file = true)
    (hex : cfg.host.fileExists r.file = true) : s.onLineReporter cfg r.file r.lineNr id = (do
      let s ← s.openFile cfg r.file
      let s := s.registerLine cfg r id
      match s.pendingHits id with
      | none => return s
      | some hits =>
        let s := s.onAddress id hits
        return { s with pendingHits := Function.update s.pendingHits id none }) := by
  rw [onLineReporter, if_neg (by simp [hfilter]), if_neg (by simp [hex])]
  rfl

theorem onLineReporter_step (hfilter : cfg.runFilters r.file = true)
    (hex : cfg.host.fileExists r.file = true)
    (h : s.onLineReporter cfg r.file r.lineNr id = some t) : LineStep cfg s r id t := by
  rw [onLineReporter_eq hfilter hex] at h
  simp only [Option.bind_eq_bind, Option.bind_eq_some_iff] at h
  obtain ⟨s₁, hopen, h⟩ := h
  obtain ⟨h1, h2, h3, h4, hself, hother, hcount⟩ := openFile_frame hopen
  have hopened : ∀ g, g = r.file ∨ (s.files g).isSome →
      ((s₁.registerLine cfg r id).files g).isSome := by
    intro g hg
    refine (isSome_files_modifyFile _).trans ?_
    rcases hg with rfl | hg
    · exact hself
    · exact hother g hg
  have hcount₁ : ∀ g b, (s₁.registerLine cfg r id).hitCount g b = s.hitCount g b :=
    fun g b => (hitCount_addLine r.lineNr).trans (hcount g b)
  have hpending : (s₁.registerLine cfg r id).pendingHits = s.pendingHits := h3
  have hreported : (s₁.registerLine cfg r id).reported =
      s.reported ++ [.line r.file r.lineNr (storedAddress cfg r)] := congrArg (· ++ _) h4
  have hline : (s₁.registerLine cfg r id).fileLineByAddress =
      Function.update s.fileLineByAddress id (some (storedAddress cfg r)) := by
    rw [← h1]
    rfl
  have hfiles : (s₁.registerLine cfg r id).filesByAddress =
      Function.update s.filesByAddress (storedAddress cfg r) (some r.file) := by
    rw [← h2]
    rfl
  cases hpend : s.pendingHits id with
  | none =>
    simp only [hpending, hpend, Option.pure_def, Option.some.injEq] at h
    subst h
    refine ⟨hline, hfiles, ?_, hopened, fun g b => ?_, ?_⟩
    · rw [hpending, ← hpend, Function.update_eq_self]
    · simp [hcount₁, hpend]
    · simp [hreported, hpend]
  | some hits =>
    simp only [hpending, hpend, Option.pure_def, Option.some.injEq] at h
    subst h
    have hstep := @onAddress_known (s₁.registerLine cfg r id) r.file (storedAddress cfg r) id hits
      (by rw [hline, Function.update_self]) (by rw [hfiles, Function.update_self])
      (hopened r.file (Or.inl rfl))
    refine ⟨hstep.fileLine.trans hline, hstep.filesBy.trans hfiles, ?_,
      fun g hg => hstep.opened g (hopened g hg), fun g b => ?_, ?_⟩
    · dsimp only
      rw [hstep.pending, hpending]
    · refine (hstep.count g b).trans ?_
      rw [hcount₁, hpend, Option.getD_some]
    · refine hstep.reported.trans ?_
      rw [hreported, hpend]
      simp

end Calls

/-! ### All calls -/

/-- The line `id` is registered by one of the calls. -/
def registered (id : U64) (calls : List Notification) : Bool := calls.any (Notification.isLine id)

/-- The hits of the line `id` in the calls. -/
def hitsOfLine (id : U64) (calls : List Notification) : Nat :=
  (calls.map (Notification.hits id)).sum

/-- A hit is reported for an address that has been reported as a line. -/
def Announced (pre : List Reporter.Event) : Reporter.Event → Prop
  | .hit a _ => ∃ f n, .line f n a ∈ pre
  | _ => True

/-- The calls are about the lines of existing, included files at which `place` has the line ids.
Different ids have different addresses, and the hits of an id can be counted. -/
structure Placed (cfg : MergeSetup) (address : LineRef → U64) (place : U64 → LineRef)
    (calls : List Notification) : Prop where
  lines : ∀ f n id, .onLineReporter f n id ∈ calls → place id = ⟨f, n⟩
  files : ∀ c ∈ calls, cfg.runFilters (place c.lineId).file = true ∧
    cfg.host.fileExists (place c.lineId).file = true
  distinct : ∀ c ∈ calls, ∀ c' ∈ calls,
    address (place c.lineId) = address (place c'.lineId) → c.lineId = c'.lineId
  hits : ∀ id hits, .onAddress id hits ∈ calls → hits ≠ 0
  total : ∀ id, hitsOfLine id calls < 2 ^ 32

/-- The hits of the lines that were both registered and hit are counted, and reported after the
line. -/
structure InAnyOrder (cfg : MergeSetup) (place : U64 → LineRef) (calls : List Notification)
    (s : MergeParser) : Prop where
  counted : ∀ c ∈ calls,
    s.isHit (place c.lineId).file (storedAddress cfg (place c.lineId)) = true ↔
      (∃ f n, .onLineReporter f n c.lineId ∈ calls) ∧ ∃ hits, .onAddress c.lineId hits ∈ calls
  reported : ∀ c ∈ calls,
    (∃ hits, .hit (storedAddress cfg (place c.lineId)) hits ∈ s.reported) ↔
      (∃ f n, .onLineReporter f n c.lineId ∈ calls) ∧ ∃ hits, .onAddress c.lineId hits ∈ calls
  announced : AllSteps Announced s.reported

/-- What the calls leave in the parser, for the lines that are seen. -/
structure Told (cfg : MergeSetup) (place : U64 → LineRef) (Seen : U64 → Prop)
    (calls : List Notification) (s : MergeParser) : Prop where
  fileLine : ∀ id, s.fileLineByAddress id =
    if registered id calls then some (storedAddress cfg (place id)) else none
  filesBy : ∀ id, registered id calls = true →
    s.filesByAddress (storedAddress cfg (place id)) = some (place id).file
  opened : ∀ id, registered id calls = true → (s.files (place id).file).isSome
  waiting : ∀ id, ((s.pendingHits id).getD 0).toNat ≤ hitsOfLine id calls
  pending : ∀ id, registered id calls = true → s.pendingHits id = none
  unknown : ∀ id, registered id calls = false →
    (hitsOfLine id calls = 0 → s.pendingHits id = none) ∧
      (hitsOfLine id calls ≠ 0 → ∃ hits, s.pendingHits id = some hits ∧ hits ≠ 0)
  small : ∀ id, Seen id →
    (s.hitCount (place id).file (storedAddress cfg (place id))).toNat ≤ hitsOfLine id calls
  count : ∀ id, Seen id → (s.hitCount (place id).file (storedAddress cfg (place id)) ≠ 0 ↔
    registered id calls = true ∧ hitsOfLine id calls ≠ 0)
  hits : ∀ id, Seen id → ((∃ hits, .hit (storedAddress cfg (place id)) hits ∈ s.reported) ↔
    registered id calls = true ∧ hitsOfLine id calls ≠ 0)
  line : ∀ id, registered id calls = true →
    .line (place id).file (place id).lineNr (storedAddress cfg (place id)) ∈ s.reported
  announced : AllSteps Announced s.reported

section Told

variable {cfg : MergeSetup} {place : U64 → LineRef} {Seen : U64 → Prop}
  {calls : List Notification} {s t : MergeParser} {id : U64}

theorem registered_snoc (id : U64) (calls : List Notification) (c : Notification) :
    registered id (calls ++ [c]) = (registered id calls || c.isLine id) := by
  simp [registered]

theorem hitsOfLine_snoc (id : U64) (calls : List Notification) (c : Notification) :
    hitsOfLine id (calls ++ [c]) = hitsOfLine id calls + c.hits id := by
  simp [hitsOfLine]

theorem told_create : Told cfg place Seen [] create := by
  refine ⟨fun _ => rfl, fun _ h => by simp [registered] at h, fun _ h => by simp [registered] at h,
    fun _ => Nat.le_refl _, fun _ h => by simp [registered] at h,
    fun _ _ => ⟨fun _ => rfl, fun h => absurd rfl h⟩, fun _ _ => Nat.le_refl _, fun _ _ => ?_,
    fun _ _ => ?_, fun _ h => by simp [registered] at h, allSteps_nil⟩
  · simp [hitCount, create, registered]
  · simp [create, registered]

theorem toNat_add_setWidth {c : U32} {hits : U64} (h : c.toNat + hits.toNat < 2 ^ 32) :
    (c + hits.setWidth 32).toNat = c.toNat + hits.toNat := by
  rw [BitVec.toNat_add, BitVec.toNat_setWidth, Nat.add_mod_mod, Nat.mod_eq_of_lt h]

theorem registered_onAddress (id id' hits : U64) (calls : List Notification) :
    registered id' (calls ++ [.onAddress id hits]) = registered id' calls := by
  rw [registered_snoc]
  exact Bool.or_false _

theorem hitsOfLine_onAddress (id id' hits : U64) (calls : List Notification) :
    hitsOfLine id' (calls ++ [.onAddress id hits]) =
      hitsOfLine id' calls + if id = id' then hits.toNat else 0 := hitsOfLine_snoc id' calls _

/-- Hits of a line that is known are counted at once. -/
theorem Told.known (h : Told cfg place Seen calls s) (hseen : Seen id)
    (hdistinct : ∀ id', Seen id' →
      storedAddress cfg (place id') = storedAddress cfg (place id) → id' = id)
    {hits : U64} (hhits : hits ≠ 0) (htotal : hitsOfLine id calls + hits.toNat < 2 ^ 32)
    (hknown : registered id calls = true) :
    Told cfg place Seen (calls ++ [.onAddress id hits]) (s.onAddress id hits) := by
  have hstep := @onAddress_known s (place id).file (storedAddress cfg (place id)) id hits
    (by rw [h.fileLine, if_pos hknown]) (h.filesBy id hknown) (h.opened id hknown)
  have hother : ∀ id', Seen id' → id ≠ id' →
      storedAddress cfg (place id') ≠ storedAddress cfg (place id) :=
    fun id' hid' hne heq => hne (hdistinct id' hid' heq).symm
  have hpos : 0 < hits.toNat := Nat.pos_of_ne_zero fun h0 => hhits (BitVec.eq_of_toNat_eq h0)
  have hcount : (s.hitCount (place id).file (storedAddress cfg (place id)) +
      hits.setWidth 32).toNat =
        (s.hitCount (place id).file (storedAddress cfg (place id))).toNat + hits.toNat := by
    apply toNat_add_setWidth
    have hsmall := h.small id hseen
    omega
  refine ⟨fun id' => ?_, fun id' hr => ?_, fun id' hr => ?_, fun id' => ?_, fun id' hr => ?_,
    fun id' hr => ?_, fun id' hid' => ?_, fun id' hid' => ?_, fun id' hid' => ?_, fun id' hr => ?_, ?_⟩
  · rw [hstep.fileLine, registered_onAddress]
    exact h.fileLine id'
  · rw [registered_onAddress] at hr
    rw [hstep.filesBy]
    exact h.filesBy id' hr
  · rw [registered_onAddress] at hr
    exact hstep.opened _ (h.opened id' hr)
  · rw [hstep.pending, hitsOfLine_onAddress]
    exact Nat.le_add_right_of_le (h.waiting id')
  · rw [registered_onAddress] at hr
    rw [hstep.pending]
    exact h.pending id' hr
  · rw [registered_onAddress] at hr
    have hne : id ≠ id' := by
      rintro rfl
      simp [hknown] at hr
    rw [hstep.pending, hitsOfLine_onAddress, if_neg hne]
    exact h.unknown id' hr
  · rw [hstep.count, hitsOfLine_onAddress]
    by_cases hid : id = id'
    · subst hid
      rw [if_pos ⟨rfl, rfl⟩, if_pos rfl, hcount]
      exact Nat.add_le_add_right (h.small id hseen) _
    · rw [if_neg fun hc => hother id' hid' hid hc.2, if_neg hid]
      exact h.small id' hid'
  · rw [hstep.count, hitsOfLine_onAddress, registered_onAddress]
    by_cases hid : id = id'
    · subst hid
      rw [if_pos ⟨rfl, rfl⟩, if_pos rfl]
      refine iff_of_true (fun hzero => ?_) ⟨hknown, by omega⟩
      have hzero' := congrArg BitVec.toNat hzero
      rw [hcount] at hzero'
      simp at hzero'
      omega
    · rw [if_neg fun hc => hother id' hid' hid hc.2, if_neg hid]
      exact h.count id' hid'
  · rw [hstep.reported, hitsOfLine_onAddress, registered_onAddress]
    by_cases hid : id = id'
    · subst hid
      rw [if_pos rfl]
      exact iff_of_true ⟨hits, by simp⟩ ⟨hknown, by omega⟩
    · rw [if_neg hid, Nat.add_zero, ← h.hits id' hid']
      simp [hother id' hid' hid]
  · rw [registered_onAddress] at hr
    rw [hstep.reported]
    exact List.mem_append_left _ (h.line id' hr)
  · rw [hstep.reported, allSteps_snoc]
    exact ⟨h.announced, _, _, h.line id hknown⟩

/-- Hits of a line that is not known wait, and only the last ones are kept. -/
theorem Told.unregistered (h : Told cfg place Seen calls s) {hits : U64} (hhits : hits ≠ 0)
    (hknown : registered id calls = false) :
    Told cfg place Seen (calls ++ [.onAddress id hits]) (s.onAddress id hits) := by
  have hpos : 0 < hits.toNat := Nat.pos_of_ne_zero fun h0 => hhits (BitVec.eq_of_toNat_eq h0)
  rw [onAddress_unknown hits (by rw [h.fileLine, if_neg (by simp [hknown])])]
  refine ⟨fun id' => ?_, fun id' hr => ?_, fun id' hr => ?_, fun id' => ?_, fun id' hr => ?_,
    fun id' hr => ?_, fun id' hid' => ?_, fun id' hid' => ?_, fun id' hid' => ?_, fun id' hr => ?_,
    h.announced⟩
  all_goals simp only [registered_onAddress, hitsOfLine_onAddress] at *
  · exact h.fileLine id'
  · exact h.filesBy id' hr
  · exact h.opened id' hr
  · rw [Function.update_apply]
    by_cases hid : id' = id
    · rw [if_pos hid, if_pos hid.symm, Option.getD_some]
      exact Nat.le_add_left _ _
    · rw [if_neg hid, if_neg (Ne.symm hid)]
      exact h.waiting id'
  · rw [Function.update_of_ne]
    · exact h.pending id' hr
    · rintro rfl
      simp [hknown] at hr
  · rw [Function.update_apply]
    by_cases hid : id' = id
    · rw [if_pos hid, if_pos hid.symm]
      exact ⟨fun hzero => by omega, fun _ => ⟨hits, rfl, hhits⟩⟩
    · rw [if_neg hid, if_neg (Ne.symm hid)]
      exact h.unknown id' hr
  · exact Nat.le_add_right_of_le (h.small id' hid')
  · by_cases hid : id = id'
    · subst hid
      have hcount := h.count id hid'
      simp only [hknown, Bool.false_eq_true, false_and, iff_false] at hcount ⊢
      exact hcount
    · rw [if_neg hid]
      exact h.count id' hid'
  · by_cases hid : id = id'
    · subst hid
      have hreported := h.hits id hid'
      simp only [hknown, Bool.false_eq_true, false_and, iff_false] at hreported ⊢
      exact hreported
    · rw [if_neg hid]
      exact h.hits id' hid'
  · exact h.line id' hr

theorem registered_line (id id' : U64) (r : LineRef) (calls : List Notification) :
    registered id' (calls ++ [.onLineReporter r.file r.lineNr id]) =
      (registered id' calls || decide (id = id')) := registered_snoc id' calls _

theorem hitsOfLine_line (id id' : U64) (r : LineRef) (calls : List Notification) :
    hitsOfLine id' (calls ++ [.onLineReporter r.file r.lineNr id]) = hitsOfLine id' calls :=
  hitsOfLine_snoc id' calls _

/-- The counter of a line that is registered has the hits that were waiting for it. -/
theorem Told.count_line (h : Told cfg place Seen calls s) (hseen : Seen id)
    (htotal : hitsOfLine id calls < 2 ^ 32) {c : U32}
    (hc : c = s.hitCount (place id).file (storedAddress cfg (place id)) +
      ((s.pendingHits id).getD 0).setWidth 32) :
    c.toNat ≤ hitsOfLine id calls ∧ (c ≠ 0 ↔ hitsOfLine id calls ≠ 0) := by
  have hwaiting := h.waiting id
  cases hknown : registered id calls with
  | true =>
    rw [h.pending id hknown, Option.getD_none] at hc
    obtain rfl : c = s.hitCount (place id).file (storedAddress cfg (place id)) := by
      rw [hc]
      simp
    exact ⟨h.small id hseen, (h.count id hseen).trans (and_iff_right hknown)⟩
  | false =>
    have hzero : s.hitCount (place id).file (storedAddress cfg (place id)) = 0 := by
      by_contra hne
      simpa [hknown] using ((h.count id hseen).mp hne).1
    have hnat : c.toNat = ((s.pendingHits id).getD 0).toNat := by
      rw [hc, toNat_add_setWidth (by rw [hzero]; simpa using lt_of_le_of_lt hwaiting htotal), hzero]
      simp
    obtain ⟨hnone, hsome⟩ := h.unknown id hknown
    refine ⟨hnat ▸ hwaiting, fun hne hhits => hne ?_, fun hhits hc0 => ?_⟩
    · apply BitVec.eq_of_toNat_eq
      rw [hnat, hnone hhits]
      rfl
    · obtain ⟨hits, hpend, hne⟩ := hsome hhits
      rw [hc0, hpend] at hnat
      exact hne (BitVec.eq_of_toNat_eq (by simpa using hnat.symm))

/-- A line takes the hits that were waiting for it. -/
theorem Told.line_step (h : Told cfg place Seen calls s) (hseen : Seen id)
    (hall : ∀ id', registered id' calls = true → Seen id')
    (hdistinct : ∀ id', Seen id' →
      storedAddress cfg (place id') = storedAddress cfg (place id) → id' = id)
    (htotal : hitsOfLine id calls < 2 ^ 32) (hstep : LineStep cfg s (place id) id t) :
    Told cfg place Seen (calls ++ [.onLineReporter (place id).file (place id).lineNr id]) t := by
  have hother : ∀ id', Seen id' → id ≠ id' →
      storedAddress cfg (place id') ≠ storedAddress cfg (place id) :=
    fun id' hid' hne heq => hne (hdistinct id' hid' heq).symm
  have hknown : ∀ id', (registered id' calls || decide (id = id')) = true → id ≠ id' →
      registered id' calls = true := fun id' hr hne => by simpa [hne] using hr
  refine ⟨fun id' => ?_, fun id' hr => ?_, fun id' hr => ?_, fun id' => ?_, fun id' hr => ?_,
    fun id' hr => ?_, fun id' hid' => ?_, fun id' hid' => ?_, fun id' hid' => ?_, fun id' hr => ?_, ?_⟩
  all_goals try simp only [registered_line, hitsOfLine_line] at *
  · rw [hstep.fileLine, Function.update_apply]
    by_cases hid : id' = id
    · simp [hid]
    · rw [if_neg hid, h.fileLine]
      simp [Ne.symm hid]
  · rw [hstep.filesBy, Function.update_apply]
    split
    next heq =>
      by_cases hid : id = id'
      · rw [hid]
      · exact absurd heq (hother id' (hall id' (hknown id' hr hid)) hid)
    next heq => exact h.filesBy id' (hknown id' hr fun hid => heq (by rw [hid]))
  · by_cases hid : id = id'
    · exact hstep.opened _ (Or.inl (by rw [hid]))
    · exact hstep.opened _ (Or.inr (h.opened id' (hknown id' hr hid)))
  · rw [hstep.pending, Function.update_apply]
    split
    · exact Nat.zero_le _
    · exact h.waiting id'
  · rw [hstep.pending, Function.update_apply]
    split
    · rfl
    next hid => exact h.pending id' (hknown id' hr (Ne.symm hid))
  · rw [Bool.or_eq_false_iff, decide_eq_false_iff_not] at hr
    rw [hstep.pending, Function.update_of_ne (Ne.symm hr.2)]
    exact h.unknown id' hr.1
  · rw [hstep.count]
    by_cases hid : id = id'
    · subst hid
      rw [if_pos ⟨rfl, rfl⟩]
      exact (h.count_line hseen htotal rfl).1
    · rw [if_neg fun hc => hother id' hid' hid hc.2]
      exact h.small id' hid'
  · rw [hstep.count]
    by_cases hid : id = id'
    · subst hid
      rw [if_pos ⟨rfl, rfl⟩, (h.count_line hseen htotal rfl).2]
      simp
    · rw [if_neg fun hc => hother id' hid' hid hc.2, h.count id' hid']
      simp [hid]
  · rw [hstep.reported]
    by_cases hid : id = id'
    · subst hid
      have hreported := h.hits id hseen
      cases hreg : registered id calls with
      | true =>
        rw [hreg] at hreported
        rw [h.pending id hreg]
        simpa using hreported
      | false =>
        obtain ⟨hnone, hsome⟩ := h.unknown id hreg
        have hnot : ∀ hits, .hit (storedAddress cfg (place id)) hits ∉ s.reported := by
          simpa [hreg] using hreported
        by_cases hhits : hitsOfLine id calls = 0
        · rw [hnone hhits]
          simpa [hhits] using hnot
        · obtain ⟨hits, hpend, -⟩ := hsome hhits
          rw [hpend]
          exact iff_of_true ⟨hits, by simp⟩ ⟨by simp, hhits⟩
    · have hne := hother id' hid' hid
      simp only [List.mem_append, List.mem_cons, Option.mem_toList, Option.map_eq_some_iff,
        reduceCtorEq, Reporter.Event.hit.injEq, hne.symm, false_and, and_false, exists_false,
        or_false, hid, decide_false, Bool.or_false]
      exact h.hits id' hid'
  · rw [hstep.reported]
    by_cases hid : id = id'
    · simp [hid]
    · exact List.mem_append_left _ (h.line id' (hknown id' hr hid))
  · rw [hstep.reported, List.append_cons]
    have hline : AllSteps Announced (s.reported ++
        [.line (place id).file (place id).lineNr (storedAddress cfg (place id))]) :=
      allSteps_snoc.mpr ⟨h.announced, trivial⟩
    cases s.pendingHits id with
    | none => simpa using hline
    | some hits =>
      exact allSteps_snoc.mpr ⟨hline, _, _, List.mem_append_right _ (List.mem_singleton_self _)⟩

theorem lineId_of_registered (h : registered id calls = true) : ∃ c ∈ calls, c.lineId = id := by
  obtain ⟨c, hc, hline⟩ := List.any_eq_true.mp h
  cases c with
  | onAddress lineHash hits => simp [Notification.isLine] at hline
  | onLineReporter f n lineId => exact ⟨_, hc, of_decide_eq_true hline⟩

theorem hitsOfLine_mono {all : List Notification} (h : calls <+: all) (id : U64) :
    hitsOfLine id calls ≤ hitsOfLine id all := by
  obtain ⟨rest, rfl⟩ := h
  rw [hitsOfLine, hitsOfLine, List.map_append, List.sum_append]
  exact Nat.le_add_right _ _

/-- One call. -/
theorem Told.step {all : List Notification} (hp : Placed cfg (storedAddress cfg) place all)
    (h : Told cfg place (fun id => ∃ c ∈ all, c.lineId = id) calls s) {c : Notification}
    (hc : calls ++ [c] <+: all) (ht : s.onNotification cfg c = some t) :
    Told cfg place (fun id => ∃ c ∈ all, c.lineId = id) (calls ++ [c]) t := by
  have hmem : c ∈ all := hc.subset (by simp)
  have hdistinct : ∀ id', (∃ c' ∈ all, c'.lineId = id') →
      storedAddress cfg (place id') = storedAddress cfg (place c.lineId) → id' = c.lineId := by
    rintro _ ⟨c', hc', rfl⟩ heq
    exact hp.distinct c' hc' c hmem heq
  have htotal : hitsOfLine c.lineId (calls ++ [c]) < 2 ^ 32 :=
    lt_of_le_of_lt (hitsOfLine_mono hc _) (hp.total _)
  cases c with
  | onAddress lineHash hits =>
    have hhits := hp.hits lineHash hits hmem
    obtain rfl := Option.some.inj ht
    cases hknown : registered lineHash calls with
    | true =>
      have hsum := hitsOfLine_onAddress lineHash lineHash hits calls
      rw [if_pos rfl] at hsum
      exact h.known ⟨_, hmem, rfl⟩ hdistinct hhits (hsum ▸ htotal) hknown
    | false => exact h.unregistered hhits hknown
  | onLineReporter f n lineId =>
    obtain ⟨hfilter, hex⟩ := hp.files _ hmem
    have hplace : place lineId = ⟨f, n⟩ := hp.lines f n lineId hmem
    have hstep : LineStep cfg s (place lineId) lineId t :=
      onLineReporter_step hfilter hex ((congrArg (fun r : LineRef =>
        s.onLineReporter cfg r.file r.lineNr lineId) hplace).trans ht)
    have hall : ∀ id', registered id' calls = true → ∃ c ∈ all, c.lineId = id' := by
      intro id' hr
      obtain ⟨c', hc', hid⟩ := lineId_of_registered hr
      exact ⟨c', hc.subset (List.mem_append_left _ hc'), hid⟩
    have htotal' : hitsOfLine lineId calls < 2 ^ 32 :=
      lt_of_le_of_lt (hitsOfLine_mono (List.prefix_append calls _) _) htotal
    have hnext := @Told.line_step cfg place _ calls s t lineId h ⟨_, hmem, rfl⟩ hall hdistinct
      htotal' hstep
    rw [hplace] at hnext
    exact hnext

theorem told_run {all : List Notification} (hp : Placed cfg (storedAddress cfg) place all)
    (hcalls : calls <+: all) (hrun : runNotifications cfg calls = some s) :
    Told cfg place (fun id => ∃ c ∈ all, c.lineId = id) calls s := by
  induction calls using List.reverseRecOn generalizing s with
  | nil =>
    cases hrun
    exact told_create
  | append_singleton calls c ih =>
    obtain ⟨s₀, hs₀, hstep⟩ := foldlM_snoc.mp hrun
    exact (ih ((List.prefix_append calls [c]).trans hcalls) hs₀).step hp hcalls hstep

theorem registered_iff : registered id calls = true ↔ ∃ f n, .onLineReporter f n id ∈ calls := by
  rw [registered, List.any_eq_true]
  constructor
  · rintro ⟨c, hc, hline⟩
    cases c with
    | onAddress lineHash hits => simp [Notification.isLine] at hline
    | onLineReporter f n lineId =>
      obtain rfl : lineId = id := of_decide_eq_true hline
      exact ⟨f, n, hc⟩
  · rintro ⟨f, n, hmem⟩
    exact ⟨_, hmem, by simp [Notification.isLine]⟩

theorem hitsOfLine_ne_zero (hhits : ∀ id hits, .onAddress id hits ∈ calls → hits ≠ 0) :
    hitsOfLine id calls ≠ 0 ↔ ∃ hits, .onAddress id hits ∈ calls := by
  rw [hitsOfLine, Ne, List.sum_eq_zero_iff_forall_eq_nat]
  constructor
  · intro h
    push Not at h
    obtain ⟨n, hn, hne⟩ := h
    obtain ⟨c, hc, rfl⟩ := List.mem_map.mp hn
    cases c with
    | onAddress lineHash hits =>
      rw [Notification.hits] at hne
      split at hne
      next heq => exact ⟨hits, heq ▸ hc⟩
      next => exact absurd rfl hne
    | onLineReporter f n lineId => exact absurd rfl hne
  · rintro ⟨hits, hmem⟩ h
    have hzero := h _ (List.mem_map_of_mem (f := Notification.hits id) hmem)
    rw [Notification.hits, if_pos rfl] at hzero
    exact hhits id hits hmem (BitVec.eq_of_toNat_eq hzero)

/-- Whatever the order of the calls is, the hits of the lines that are registered and hit are counted,
and reported to the listeners after the line. -/
theorem counted_in_any_order (cfg : MergeSetup) (place : U64 → LineRef) (calls : List Notification)
    (hp : Placed cfg (storedAddress cfg) place calls) {s : MergeParser}
    (hrun : runNotifications cfg calls = some s) : InAnyOrder cfg place calls s := by
  have h := told_run hp (List.prefix_refl calls) hrun
  refine ⟨fun c hc => ?_, fun c hc => ?_, h.announced⟩
  · rw [isHit_eq_hitCount, decide_eq_true_eq, h.count _ ⟨c, hc, rfl⟩, registered_iff,
      hitsOfLine_ne_zero hp.hits]
  · rw [h.hits _ ⟨c, hc, rfl⟩, registered_iff, hitsOfLine_ne_zero hp.hits]

end Told

/-! ### A hit before its line, and two lines with one address -/

/-- The lines 1 and 2^31 + 1 of one file. -/
def farApart (id : U64) : LineRef := ⟨ascii "/a", if id = 5 then 1 else 0x80000001⟩

theorem counted_hit_first :
    ∃ s, runNotifications staleSetup
        [.onAddress 5 3, .onAddress 5 1, .onLineReporter (ascii "/a") 1 5] = some s ∧
      InAnyOrder staleSetup farApart
        [.onAddress 5 3, .onAddress 5 1, .onLineReporter (ascii "/a") 1 5] s := by
  refine ⟨_, rfl, counted_in_any_order staleSetup farApart _ ⟨?_, by decide, by decide, ?_, ?_⟩ rfl⟩
  · intro f n id hmem
    simp only [List.mem_cons, reduceCtorEq, Notification.onLineReporter.injEq, List.not_mem_nil,
      or_false, false_or] at hmem
    obtain ⟨rfl, rfl, rfl⟩ := hmem
    rfl
  · intro id hits hmem
    simp only [List.mem_cons, reduceCtorEq, Notification.onAddress.injEq, List.not_mem_nil,
      or_false] at hmem
    rcases hmem with ⟨-, rfl⟩ | ⟨-, rfl⟩ <;> decide
  · intro id
    simp only [hitsOfLine, Notification.hits, List.map_cons, List.map_nil, List.sum_cons,
      List.sum_nil]
    split <;> decide

/-- The lines 1 and 2^31 + 1 of a file have different hashes, but the hit bit is cleared in both, and a
hit of one is counted for the other. -/
theorem not_counted_far_apart :
    let calls : List Notification := [.onLineReporter (ascii "/a") 1 5,
      .onLineReporter (ascii "/a") 0x80000001 6, .onAddress 5 1]
    Placed staleSetup (fun r => hashAddress staleSetup.host r.file r.lineNr) farApart calls ∧
      ∃ s, runNotifications staleSetup calls = some s ∧ ¬InAnyOrder staleSetup farApart calls s := by
  intro calls
  refine ⟨⟨?_, by decide, by decide, ?_, ?_⟩, _, rfl, fun h => ?_⟩
  · intro f n id hmem
    simp only [calls, List.mem_cons, reduceCtorEq, Notification.onLineReporter.injEq,
      List.not_mem_nil, or_false] at hmem
    rcases hmem with ⟨rfl, rfl, rfl⟩ | ⟨rfl, rfl, rfl⟩ <;> rfl
  · intro id hits hmem
    simp only [calls, List.mem_cons, reduceCtorEq, Notification.onAddress.injEq, List.not_mem_nil,
      or_false, false_or] at hmem
    rw [hmem.2]
    decide
  · intro id
    simp only [calls, hitsOfLine, Notification.hits, List.map_cons, List.map_nil, List.sum_cons,
      List.sum_nil]
    split <;> decide
  · obtain ⟨hits, hmem⟩ := ((h.counted (.onLineReporter (ascii "/a") 0x80000001 6) (by simp [calls])).mp
      (by decide)).2
    simp [calls, Notification.lineId] at hmem

end MergeParser

end Kcov
