import Kcov.Reporter.Counts

/-! The hit counts of scripts, whose lines are found by their contents. -/

namespace Kcov.Reporter

open Bytes

/-! ### What the counts are meant to be -/

/-- The hash of the contents of a script. -/
def contentHash (host : Host) (file : Text) : U32 :=
  match host.readFile file with
  | some data => host.hashBlock data
  | none => 0

/-- The address that `fileLineFound` makes up for a line. -/
def scriptAddress (host : Host) (ref : LineRef) : U64 :=
  (contentHash host ref.file).setWidth 64 ||| (ref.lineNr.setWidth 64 <<< 32)

/-- The hits at `addr` that the event reports. -/
def hitsAt (addr : U64) : Event → Nat
  | .hit a hits => if a = addr then hits.toNat else 0
  | _ => 0

/-- The sum of the hits at `addr` behind the event that registers the line at `ref`, or of all of
them if the line is known. -/
def hitsSince (cfg : ReporterSetup) (ref : LineRef) (addr : U64) : Bool → List Event → Nat
  | _, [] => 0
  | known, ev :: evs => (if known then hitsAt addr ev else 0) +
      hitsSince cfg ref addr (known || registers cfg ref ev) evs

/-- The line of an included file that the event registers at `addr`. -/
def lineAt (cfg : ReporterSetup) (addr : U64) : Event → Option LineRef
  | .line f n a => if cfg.runFilters f && a = addr then some ⟨f, n⟩ else none
  | _ => none

/-- The first line of an included file that is registered at `addr`. -/
def firstLine (cfg : ReporterSetup) (evs : List Event) (addr : U64) : Option LineRef :=
  evs.findSome? (lineAt cfg addr)

section History

variable {cfg : ReporterSetup} {ref : LineRef} {addr : U64}

theorem hitsSince_snoc (known : Bool) (evs : List Event) (ev : Event) :
    hitsSince cfg ref addr known (evs ++ [ev]) = hitsSince cfg ref addr known evs +
      if known || evs.any (registers cfg ref) then hitsAt addr ev else 0 := by
  induction evs generalizing known with
  | nil => simp [hitsSince]
  | cons e evs ih =>
    rw [List.cons_append, hitsSince, ih, hitsSince, List.any_cons, Bool.or_assoc, Nat.add_assoc]

theorem firstLine_snoc (evs : List Event) (ev : Event) :
    firstLine cfg (evs ++ [ev]) addr = (firstLine cfg evs addr).or (lineAt cfg addr ev) := by
  rw [firstLine, List.findSome?_append, List.findSome?_singleton]
  rfl

theorem hitsSince_line (known : Bool) (evs : List Event) (f : Text) (n : U32) (a : U64) :
    hitsSince cfg ref addr known (evs ++ [.line f n a]) = hitsSince cfg ref addr known evs := by
  rw [hitsSince_snoc, show hitsAt addr (.line f n a) = 0 from rfl, ite_self, Nat.add_zero]

theorem firstLine_line {r : LineRef} (hfilter : cfg.runFilters r.file = true) (evs : List Event)
    (a : U64) : firstLine cfg (evs ++ [.line r.file r.lineNr a]) addr =
      (firstLine cfg evs addr).or (if a = addr then some r else none) := by
  rw [firstLine_snoc]
  simp [lineAt, hfilter]

theorem lineAt_eq_some {ev : Event} {r : LineRef} (h : lineAt cfg addr ev = some r) :
    ev = .line r.file r.lineNr addr ∧ cfg.runFilters r.file = true := by
  cases ev with
  | line f n a =>
    simp only [lineAt, Option.ite_none_right_eq_some, Bool.and_eq_true, decide_eq_true_eq,
      Option.some.injEq] at h
    obtain ⟨⟨hf, rfl⟩, rfl⟩ := h
    exact ⟨rfl, hf⟩
  | _ => simp [lineAt] at h

theorem firstLine_eq_some {evs : List Event} {r : LineRef} (h : firstLine cfg evs addr = some r) :
    .line r.file r.lineNr addr ∈ evs ∧ cfg.runFilters r.file = true := by
  obtain ⟨ev, hev, heq⟩ := List.exists_of_findSome?_eq_some h
  obtain ⟨rfl, hf⟩ := lineAt_eq_some heq
  exact ⟨hev, hf⟩

end History

/-! ### What they are -/

section Counts

variable {cfg : ReporterSetup}

theorem fileHash_script (hhash : cfg.hashFilename = false) (f : Text) :
    cfg.fileHash f = (contentHash cfg.host f).setWidth 64 := by
  rw [ReporterSetup.fileHash, contentHash, hhash]
  cases cfg.host.readFile f <;> rfl

/-- The hash and the line can be read off an address. -/
theorem addressParts {c c' n n' : U32} :
    c.setWidth 64 ||| (n.setWidth 64 <<< 32) = (c'.setWidth 64 ||| (n'.setWidth 64 <<< 32) : U64) ↔
      c = c' ∧ n = n' := by
  constructor
  · intro heq
    have hbit := fun i => congrArg (fun x : U64 => x.getLsbD i) heq
    constructor
    · apply BitVec.eq_of_getLsbD_eq
      intro i hi
      have := hbit i
      simpa [hi, show i < 64 by omega] using this
    · apply BitVec.eq_of_getLsbD_eq
      intro i hi
      have := hbit (32 + i)
      simpa [hi, show 32 + i < 64 by omega] using this
  · rintro ⟨rfl, rfl⟩
    rfl

/-- Lines with the same address have the same number, as both are made of the hash of the contents
and the line. -/
theorem lineId_of_scriptAddress (hhash : cfg.hashFilename = false) {r r' : LineRef}
    (h : scriptAddress cfg.host r = scriptAddress cfg.host r') : cfg.lineId r = cfg.lineId r' := by
  rw [scriptAddress, scriptAddress, addressParts] at h
  rw [ReporterSetup.lineId, ReporterSetup.lineId, fileHash_script hhash, fileHash_script hhash,
    h.1, h.2]

/-- What a run without a database over the lines of scripts leaves in the reporter. -/
structure ScriptState (cfg : ReporterSetup) (evs : List Event) (s : Reporter) : Prop where
  wellFormed : s.WellFormed cfg
  noPending : ∀ id, s.pendingFiles id = []
  addrToLine : ∀ a, s.addrToLine a = (firstLine cfg evs a).toList
  known : ∀ ref, evs.any (registers cfg ref) → ∃ line, s.line? ref = some line ∧
    line.addrs = [(scriptAddress cfg.host ref, BitVec.ofNat 32
      (if firstLine cfg evs (scriptAddress cfg.host ref) = some ref
        then hitsSince cfg ref (scriptAddress cfg.host ref) false evs else 0))]
  unknown : ∀ ref, evs.any (registers cfg ref) = false → ∀ line, s.line? ref = some line →
    line.addrs = []

theorem scriptState_create : ScriptState cfg [] (create cfg) :=
  ⟨wellFormed_create cfg, fun _ => rfl, fun _ => rfl, fun _ h => by simp at h,
    fun _ _ _ h => by simp [create, line?] at h⟩

/-- The addresses of the lines of scripts are made by `fileLineFound`. -/
def ScriptLine (cfg : ReporterSetup) : Event → Prop
  | .line f n a => a = scriptAddress cfg.host ⟨f, n⟩
  | _ => True

/-- The history changes with a line only if the line is of an included file. -/
theorem ScriptState.filtered {evs : List Event} {s : Reporter} (h : ScriptState cfg evs s)
    (ev : Event) (hreg : ∀ ref, registers cfg ref ev = false)
    (hline : ∀ a, lineAt cfg a ev = none) (hhits : ∀ a, hitsAt a ev = 0) :
    ScriptState cfg (evs ++ [ev]) s := by
  have hany : ∀ ref, (evs ++ [ev]).any (registers cfg ref) = evs.any (registers cfg ref) :=
    fun ref => any_registers_other (hreg ref) evs
  have hfirst : ∀ a, firstLine cfg (evs ++ [ev]) a = firstLine cfg evs a := by
    intro a
    rw [firstLine_snoc, hline, Option.or_none]
  have hsum : ∀ ref a, hitsSince cfg ref a false (evs ++ [ev]) = hitsSince cfg ref a false evs := by
    intro ref a
    rw [hitsSince_snoc, hhits, ite_self, Nat.add_zero]
  refine ⟨h.wellFormed, h.noPending, fun a => ?_, fun ref hr => ?_, fun ref hr => ?_⟩
  · rw [hfirst]
    exact h.addrToLine a
  · rw [hany] at hr
    rw [hfirst, hsum]
    exact h.known ref hr
  · rw [hany] at hr
    exact h.unknown ref hr

theorem hitsSince_unknown {ref : LineRef} (addr : U64) {evs : List Event}
    (h : evs.any (registers cfg ref) = false) : hitsSince cfg ref addr false evs = 0 := by
  induction evs with
  | nil => rfl
  | cons ev evs ih =>
    rw [List.any_cons, Bool.or_eq_false_iff] at h
    rw [hitsSince, h.1]
    simpa using ih h.2

theorem firstLine_isSome {ref : LineRef} {evs : List Event} (hevs : ∀ ev ∈ evs, ScriptLine cfg ev)
    (h : evs.any (registers cfg ref) = true) :
    (firstLine cfg evs (scriptAddress cfg.host ref)).isSome = true := by
  obtain ⟨hf, a, hev⟩ := any_registers.mp h
  rw [firstLine, List.findSome?_isSome_iff]
  refine ⟨_, hev, ?_⟩
  have ha : a = scriptAddress cfg.host ref := hevs _ hev
  simp [lineAt, hf, ha]

section Steps

variable {evs : List Event} {s t : Reporter} {ref : LineRef}

theorem ScriptState.counts_unknown (h : ScriptState cfg evs s)
    (hknown : evs.any (registers cfg ref) = false) : s.counts ref = [] := by
  cases hline : s.line? ref with
  | none => rw [counts, hline, Option.map_none, Option.getD_none]
  | some line => rw [counts_eq hline, h.unknown ref hknown line hline]

/-- The first line at an address stays the only one. -/
theorem ScriptState.addrToLine_line (hhash : cfg.hashFilename = false)
    (hevs : ∀ ev ∈ evs, ScriptLine cfg ev) (h : ScriptState cfg evs s)
    (hstep : LineStep cfg s ref (scriptAddress cfg.host ref) t)
    (hfilter : cfg.runFilters ref.file = true) (a : U64) : t.addrToLine a =
      (firstLine cfg (evs ++ [.line ref.file ref.lineNr (scriptAddress cfg.host ref)]) a).toList := by
  rw [hstep.addrToLine, firstLine_line hfilter]
  cases h₀ : firstLine cfg evs (scriptAddress cfg.host ref) with
  | none =>
    have hnil : s.addrToLine (scriptAddress cfg.host ref) = [] := by
      rw [h.addrToLine, h₀]
      rfl
    rw [hnil, List.any_nil, if_neg Bool.false_ne_true, Function.update_apply]
    by_cases ha : a = scriptAddress cfg.host ref
    · simp [ha, h₀]
    · rw [if_neg ha, if_neg (Ne.symm ha), Option.or_none]
      exact h.addrToLine a
  | some r₀ =>
    -- A line at the same address has the same number, so the new line counts as a duplicate.
    have hid : cfg.lineId r₀ = cfg.lineId ref := by
      have hmem := (firstLine_eq_some h₀).1
      exact lineId_of_scriptAddress hhash (hevs _ hmem).symm
    have hdup : (s.addrToLine (scriptAddress cfg.host ref)).any
        (fun r => cfg.lineId r == cfg.lineId ref) = true := by
      rw [h.addrToLine, h₀]
      simp [hid]
    rw [if_pos hdup, h.addrToLine]
    by_cases ha : scriptAddress cfg.host ref = a
    · simp [← ha, h₀]
    · rw [if_neg ha, Option.or_none]

/-- Registering a line again changes no counts. -/
theorem ScriptState.known_line (h : ScriptState cfg evs s)
    (hstep : LineStep cfg s ref (scriptAddress cfg.host ref) t) {r : LineRef} {count : U32}
    (hknown : ∃ line, s.line? r = some line ∧ line.addrs = [(scriptAddress cfg.host r, count)]) :
    ∃ line, t.line? r = some line ∧ line.addrs = [(scriptAddress cfg.host r, count)] := by
  obtain ⟨line, hline, haddrs⟩ := hknown
  by_cases hr : r = ref
  · subst hr
    refine ⟨_, hstep.line_self, ?_⟩
    rw [h.noPending, baseLine, hline, Option.getD_some, ← haddrs, Line.addAddress,
      if_pos (by simp [haddrs])]
    rfl
  · exact ⟨line, hstep.other hr hline, haddrs⟩

/-- A new line has its own address, without hits. -/
theorem ScriptState.new_line (h : ScriptState cfg evs s)
    (hstep : LineStep cfg s ref (scriptAddress cfg.host ref) t)
    (hknown : evs.any (registers cfg ref) = false) :
    ∃ line, t.line? ref = some line ∧ line.addrs = [(scriptAddress cfg.host ref, 0)] := by
  refine ⟨_, hstep.line_self, ?_⟩
  rw [← counts_eq hstep.line_self, hstep.counts_self, h.noPending, h.counts_unknown hknown]
  rfl

theorem ScriptState.line (hhash : cfg.hashFilename = false)
    (hevs : ∀ ev ∈ evs, ScriptLine cfg ev) (h : ScriptState cfg evs s)
    (hstep : LineStep cfg s ref (scriptAddress cfg.host ref) t)
    (hfilter : cfg.runFilters ref.file = true) :
    ScriptState cfg (evs ++ [.line ref.file ref.lineNr (scriptAddress cfg.host ref)]) t := by
  refine ⟨hstep.wellFormed, fun id => ?_, h.addrToLine_line hhash hevs hstep hfilter,
    fun r hr => ?_, fun r hr line hline => ?_⟩
  · rw [hstep.pendingFiles, Function.update_apply, h.noPending, ite_self]
  · rw [hitsSince_line]
    rw [any_registers_line hfilter, Bool.or_eq_true, decide_eq_true_iff] at hr
    cases hknown : evs.any (registers cfg r) with
    | true =>
      obtain ⟨r₀, h₀⟩ := Option.isSome_iff_exists.mp (firstLine_isSome hevs hknown)
      have hkeep : firstLine cfg (evs ++ [.line ref.file ref.lineNr (scriptAddress cfg.host ref)])
          (scriptAddress cfg.host r) = firstLine cfg evs (scriptAddress cfg.host r) := by
        rw [firstLine_line hfilter, h₀]
        rfl
      rw [hkeep]
      exact h.known_line hstep (h.known r hknown)
    | false =>
      obtain rfl : r = ref := by simpa [hknown] using hr
      rw [hitsSince_unknown _ hknown, ite_self]
      exact h.new_line hstep hknown
  · rw [any_registers_line hfilter, Bool.or_eq_false_iff, decide_eq_false_iff_not] at hr
    rw [← counts_eq hline, hstep.counts_other hr.2, h.counts_unknown hr.1]

/-- The hits at an address go to the first line that was registered there. -/
theorem ScriptState.mem_addrToLine (hevs : ∀ ev ∈ evs, ScriptLine cfg ev)
    (h : ScriptState cfg evs s) {addr : U64} {r : LineRef} : r ∈ s.addrToLine addr ↔
      addr = scriptAddress cfg.host r ∧
        firstLine cfg evs (scriptAddress cfg.host r) = some r := by
  rw [h.addrToLine, Option.mem_toList]
  constructor
  · intro hr
    have ha : addr = scriptAddress cfg.host r := hevs _ (firstLine_eq_some hr).1
    exact ⟨ha, ha ▸ hr⟩
  · rintro ⟨rfl, hr⟩
    exact hr

theorem ScriptState.hit (hmax : cfg.maxPossibleHits = .unlimited)
    (hevs : ∀ ev ∈ evs, ScriptLine cfg ev) (h : ScriptState cfg evs s) (addr hits : U64) :
    ScriptState cfg (evs ++ [.hit addr hits]) (s.onAddressHit cfg addr hits) := by
  have hstep := onAddressHit_step h.wellFormed addr hits
  have singleShot : cfg.singleShot = false := by simp [ReporterSetup.singleShot, hmax]
  have hany : ∀ r, (evs ++ [Event.hit addr hits]).any (registers cfg r) =
      evs.any (registers cfg r) := fun r => any_registers_other rfl evs
  have hfirst : ∀ a, firstLine cfg (evs ++ [.hit addr hits]) a = firstLine cfg evs a := by
    intro a
    rw [firstLine_snoc]
    exact Option.or_none
  refine ⟨hstep.wellFormed, fun id => ?_, fun a => ?_, fun r hr => ?_, fun r hr line hline => ?_⟩
  · rw [hstep.pendingFiles]
    exact h.noPending id
  · rw [hstep.addrToLine, hfirst]
    exact h.addrToLine a
  · rw [hany] at hr
    obtain ⟨line, hline, haddrs⟩ := h.known r hr
    obtain ⟨order, ht⟩ := hstep.line r line hline
    refine ⟨_, ht, ?_⟩
    rw [hfirst, hitsSince_snoc, hr, Bool.or_true, if_pos rfl, hitsAt]
    by_cases hown : firstLine cfg evs (scriptAddress cfg.host r) = some r
    · rw [if_pos hown] at haddrs ⊢
      by_cases ha : addr = scriptAddress cfg.host r
      · rw [if_pos ((h.mem_addrToLine hevs).mpr ⟨ha, hown⟩), if_pos ha]
        simp only [Line.registerHit, haddrs, Line.updateFirst, ← ha, if_true, singleShot]
        refine congrArg (fun c => [(addr, c)]) (BitVec.eq_of_toNat_eq ?_)
        simp
      · rw [if_neg (fun hin => ha ((h.mem_addrToLine hevs).mp hin).1), if_neg ha, Nat.add_zero]
        exact haddrs
    · rw [if_neg hown] at haddrs ⊢
      rw [if_neg (fun hin => hown ((h.mem_addrToLine hevs).mp hin).2)]
      exact haddrs
  · rw [hany] at hr
    have hfst := hstep.map_fst_counts h.wellFormed r
    rw [h.counts_unknown hr, counts_eq hline, List.map_nil, List.map_eq_nil_iff] at hfst
    exact hfst

end Steps

/-- Every run without a database keeps the counts of the scripts. -/
theorem scriptState_run (hhash : cfg.hashFilename = false)
    (hmax : cfg.maxPossibleHits = .unlimited) (hdb : cfg.database = none) {evs : List Event}
    (hevs : ∀ ev ∈ evs, ScriptLine cfg ev) {s : Reporter} (hrun : run cfg evs = some s) :
    ScriptState cfg evs s := by
  induction evs using List.reverseRecOn generalizing s with
  | nil =>
    cases hrun
    exact scriptState_create
  | append_singleton evs ev ih =>
    obtain ⟨s₀, hs₀, hstep⟩ := run_snoc_eq_some hrun
    have hevs₀ : ∀ ev ∈ evs, ScriptLine cfg ev := fun e he => hevs e (List.mem_append_left _ he)
    have h := ih hevs₀ hs₀
    cases ev with
    | file =>
      rw [step, onFile_none hdb, Option.some.injEq] at hstep
      subst hstep
      have h' := h.filtered .file (fun _ => rfl) (fun _ => rfl) (fun _ => rfl)
      obtain ⟨hwf, h1, h2, h3, h4⟩ := h'
      exact ⟨hwf.congr rfl rfl rfl rfl rfl, h1, h2, h3, h4⟩
    | line f n a =>
      have ha : a = scriptAddress cfg.host ⟨f, n⟩ := hevs (.line f n a) (by simp)
      cases hf : cfg.runFilters f with
      | false =>
        rw [step, onLine_filtered hf, Option.some.injEq] at hstep
        subst hstep
        exact h.filtered _ (fun _ => by simp [registers, hf]) (fun _ => by simp [lineAt, hf])
          (fun _ => rfl)
      | true =>
        subst ha
        exact h.line hhash hevs₀ (onLine_eq_some h.wellFormed ⟨f, n⟩ hf hstep) hf
    | hit addr hits =>
      rw [step, Option.some.injEq] at hstep
      subst hstep
      exact h.hit hmax hevs₀ addr hits

/-- The count of a line of a script is the number of its hits, if and only if there were none or
the line was the first one at its address. -/
theorem hits_eq_hitsSince_iff (cfg : ReporterSetup) (hhash : cfg.hashFilename = false)
    (hmax : cfg.maxPossibleHits = .unlimited) (hdb : cfg.database = none) (evs : List Event)
    (hevs : ∀ ev ∈ evs, ScriptLine cfg ev) {s : Reporter} (hrun : run cfg evs = some s)
    (ref : LineRef) (hreachable : cfg.excluded ref = false)
    (hsmall : hitsSince cfg ref (scriptAddress cfg.host ref) false evs < 2 ^ 31) :
    (s.getLineExecutionCount cfg ref.file ref.lineNr).hits.toNat =
        hitsSince cfg ref (scriptAddress cfg.host ref) false evs ↔
      hitsSince cfg ref (scriptAddress cfg.host ref) false evs = 0 ∨
        firstLine cfg evs (scriptAddress cfg.host ref) = some ref := by
  have h := scriptState_run hhash hmax hdb hevs hrun
  cases hknown : evs.any (registers cfg ref) with
  | false =>
    have hzero := hitsSince_unknown (scriptAddress cfg.host ref) hknown
    refine iff_of_true ?_ (Or.inl hzero)
    rw [hzero, getLineExecutionCount]
    cases hline : s.line? ref with
    | none => rfl
    | some line =>
      have hnil := h.unknown ref hknown line hline
      simp only [Line.hits, hnil]
      split <;> rfl
  | true =>
    obtain ⟨line, hline, haddrs⟩ := h.known ref hknown
    have hun := h.wellFormed.unreachable ref line hline
    have hcount : (s.getLineExecutionCount cfg ref.file ref.lineNr).hits.toNat =
        if firstLine cfg evs (scriptAddress cfg.host ref) = some ref
        then hitsSince cfg ref (scriptAddress cfg.host ref) false evs else 0 := by
      rw [getLineExecutionCount, hline]
      simp only [hun, hreachable, Bool.false_eq_true, if_false, Line.hits, haddrs, List.foldl_cons,
        List.foldl_nil]
      rw [show (0 : U32) = 0#32 from rfl, BitVec.zero_add, BitVec.toNat_ofNat]
      apply Nat.mod_eq_of_lt
      split <;> omega
    rw [hcount]
    split
    next hfirst => exact iff_of_true rfl (Or.inr hfirst)
    next hfirst => rw [or_iff_left hfirst, eq_comm]

end Counts

/-! ### Two copies of a script -/

/-- A host on which every file has one line. -/
def copiesHost : Host :=
  { Host.bare with
    fileExists := fun _ => true
    readFile := fun _ => some (ascii "true\n")
    hashBlock := fun _ => 7 }

def copiesSetup : ReporterSetup where
  host := copiesHost
  runFilters _ := true
  excludeLine := []
  excludeRegion := []
  hashFilename := false
  maxPossibleHits := .unlimited
  checksum := 0
  cleanOutput := false
  database := none

/-- The address of the first line of every file. -/
def copiesAddress : U64 := 0x100000007

/-- One script, hit three times. -/
theorem hits_eq_hitsSince_one :
    ∃ s, run copiesSetup [.line (ascii "/a") 1 copiesAddress, .hit copiesAddress 3] = some s ∧
      (s.getLineExecutionCount copiesSetup (ascii "/a") 1).hits.toNat = 3 := by
  refine ⟨_, rfl, ?_⟩
  exact (hits_eq_hitsSince_iff copiesSetup rfl rfl rfl
    [.line (ascii "/a") 1 copiesAddress, .hit copiesAddress 3]
    (List.forall_mem_cons.mpr ⟨rfl, by simp [ScriptLine]⟩) rfl ⟨ascii "/a", 1⟩ (by decide)
    (by decide)).mpr (Or.inr (by decide))

/-- Of a second script with the same contents no hit is counted. -/
theorem copy_not_counted :
    (∀ ev ∈ [Event.line (ascii "/a") 1 copiesAddress, .line (ascii "/b") 1 copiesAddress,
      .hit copiesAddress 1], ScriptLine copiesSetup ev) ∧
    copiesSetup.excluded ⟨ascii "/b", 1⟩ = false ∧
    ∃ s, run copiesSetup [.line (ascii "/a") 1 copiesAddress, .line (ascii "/b") 1 copiesAddress,
        .hit copiesAddress 1] = some s ∧
      (s.getLineExecutionCount copiesSetup (ascii "/b") 1).hits.toNat = 0 ∧
      hitsSince copiesSetup ⟨ascii "/b", 1⟩ copiesAddress false
        [.line (ascii "/a") 1 copiesAddress, .line (ascii "/b") 1 copiesAddress,
          .hit copiesAddress 1] = 1 := by
  refine ⟨List.forall_mem_cons.mpr ⟨rfl, List.forall_mem_cons.mpr
    ⟨rfl, by simp [ScriptLine]⟩⟩, by decide, _, rfl, by decide, by decide⟩

end Kcov.Reporter
