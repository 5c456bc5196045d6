import Kcov.Merge.System

/-! The merged report of a single compiled program. -/

namespace Kcov

open Bytes

namespace System

/-! ### Steps -/

/-- The merge parser is told about the line. -/
def known (cfg : ReporterSetup) (evs : List Reporter.Event) (r : LineRef) : Bool :=
  cfg.host.fileExists r.file && evs.any (Reporter.registers cfg r)

def hit (cfg : ReporterSetup) (evs : List Reporter.Event) (r : LineRef) : Bool :=
  !(Reporter.hitAddressesOf cfg r evs).isEmpty

/-- The merge parser can read the file. -/
def Readable (cfg : ReporterSetup) : Reporter.Event → Prop
  | .line f _ _ => cfg.runFilters f = true → cfg.host.fileExists f = true →
      (cfg.host.readFile f).isSome
  | _ => True

/-- The merge parser and the merge reporter follow the reporter. -/
structure Agrees (cfg : ReporterSetup) (Seen : LineRef → Prop) (evs : List Reporter.Event)
    (sys : System) : Prop where
  main : Reporter.CompiledState cfg evs sys.main
  sized : Reporter.Sized cfg sys.main
  parser : ParserFed cfg Seen (known cfg evs) sys.parser
  merged : MergedFed cfg (known cfg evs) (hit cfg evs) sys.merged

section Steps

variable {cfg : ReporterSetup} {mangle : Text → Text} {Seen : LineRef → Prop}
  {evs : List Reporter.Event} {sys : System} {main : Reporter}

open Reporter

theorem agrees_create : Agrees cfg Seen [] (create cfg) := by
  have hknown : known cfg [] = fun _ => false := by
    funext r
    simp [known]
  have hhit : hit cfg [] = fun _ => false := rfl
  refine ⟨compiledState_create, ?_, ?_, ?_⟩
  · exact fun _ _ h => by simp [sizeOf?, System.create, Reporter.create] at h
  · rw [hknown]
    exact parserFed_create
  · rw [hknown, hhit]
    exact mergedFed_create

/-- What follows from the new calls of the reporter. -/
theorem step_eq {ev : Event} {new : List Notification} {p : MergeParser}
    {reports : List Event} {m : Reporter} (hmain : sys.main.step cfg ev = some main)
    (hnotified : main.notified = sys.main.notified ++ new)
    (hparser : new.foldlM (MergeParser.onNotification (cfg.mergeParser mangle)) sys.parser = some p)
    (hreported : p.reported = sys.parser.reported ++ reports)
    (hmerged : reports.foldlM (Reporter.step cfg.mergeReporter) sys.merged = some m) :
    sys.step cfg mangle ev = some ⟨main, p, m⟩ := by
  rw [step, hmain]
  simp only [Option.bind_eq_bind, Option.bind_some, hnotified, List.drop_left, hparser, hreported,
    hmerged, Option.pure_def]

theorem hit_line (f : Text) (n : U32) (a : U64) :
    hit cfg (evs ++ [.line f n a]) = hit cfg evs := by
  funext r
  rw [hit, hitAddressesOf_snoc (by simp), hit]

theorem known_line {ref : LineRef} (hfilter : cfg.runFilters ref.file = true) (a : U64) :
    known cfg (evs ++ [.line ref.file ref.lineNr a]) =
      fun r => known cfg evs r || (cfg.host.fileExists ref.file && decide (r = ref)) := by
  funext r
  rw [known, any_registers_line hfilter, known, Bool.and_or_distrib_left]
  congr 1
  by_cases hr : r = ref
  · rw [hr]
  · simp [hr]

theorem Agrees.filtered (h : Agrees cfg Seen evs sys) {f : Text} {n : U32} {a : U64}
    (hfilter : cfg.runFilters f = false) : Agrees cfg Seen (evs ++ [.line f n a]) sys := by
  have hknown : known cfg (evs ++ [.line f n a]) = known cfg evs := by
    funext r
    rw [known, any_registers_other (registers_filtered hfilter n a), known]
  refine ⟨h.main.filtered hfilter, h.sized, hknown ▸ h.parser, ?_⟩
  rw [hknown, hit_line]
  exact h.merged

theorem Agrees.line (h : Agrees cfg Seen evs sys) {ref : LineRef} {a : U64}
    (hdistinct : Distinct cfg Seen) (hids : FilesDistinct cfg (evs ++ [.line ref.file ref.lineNr a]))
    (hseen : ∀ r, (evs ++ [Event.line ref.file ref.lineNr a]).any (registers cfg r) = true → Seen r)
    (hfilter : cfg.runFilters ref.file = true)
    (hmain : sys.main.step cfg (.line ref.file ref.lineNr a) = some main)
    (hread : Readable cfg (.line ref.file ref.lineNr a)) :
    ∃ p m, sys.step cfg mangle (.line ref.file ref.lineNr a) = some ⟨main, p, m⟩ ∧
      Agrees cfg Seen (evs ++ [.line ref.file ref.lineNr a]) ⟨main, p, m⟩ := by
  have hstep := onLine_eq_some h.main.wellFormed ref hfilter hmain
  obtain ⟨hsized, hadmits⟩ := step_sized h.main.wellFormed h.sized hmain
  have hcompiled := h.main.line hids.sharers hfilter hstep
  have hnotified : main.notified = sys.main.notified ++
      [.onLineReporter ref.file ref.lineNr (cfg.lineId ref)] := by
    rw [hstep.notified, h.main.noPending, List.map_nil, List.append_nil]
  have hhit : hit cfg (evs ++ [.line ref.file ref.lineNr a]) = hit cfg evs := hit_line _ _ _
  have hself : Seen ref := hseen ref (by simp [any_registers_line hfilter])
  cases hex : cfg.host.fileExists ref.file with
  | false =>
    have hknown : known cfg (evs ++ [.line ref.file ref.lineNr a]) = known cfg evs := by
      simp [known_line hfilter, hex]
    refine ⟨sys.parser, sys.merged, ?_, hcompiled, hsized, hknown ▸ h.parser,
      hknown ▸ hhit ▸ h.merged⟩
    refine step_eq hmain hnotified ?_ (List.append_nil _).symm rfl
    simp [MergeParser.onNotification, onLineReporter_missing sys.parser hex]
  | true =>
    have hknown : known cfg (evs ++ [.line ref.file ref.lineNr a]) =
        fun r => known cfg evs r || decide (r = ref) := by
      simp [known_line hfilter, hex]
    have hseen' : ∀ r, known cfg evs r = true → Seen r := by
      intro r hr
      rw [known, Bool.and_eq_true] at hr
      exact hseen r (by simp [hr.2])
    obtain ⟨p, hp, hfed, hreported⟩ := @ParserFed.onLineReporter cfg mangle Seen _ _ ref h.parser
      hdistinct hseen' hself hfilter hex (hread hfilter hex)
    obtain ⟨m, hm, hsized'⟩ := @onLine_isSome cfg.mergeReporter sys.merged ref.file ref.lineNr
      (addrHash cfg ref) h.merged.sized fun _ => hadmits hfilter
    have hnohit : known cfg evs ref = false → hit cfg evs ref = false := by
      intro hk
      rw [known, hex, Bool.true_and] at hk
      simp [hit, hitAddressesOf_eq_nil hk]
    have hmerged := h.merged.line hdistinct hseen' hself hnohit hsized'
      (onLine_eq_some h.merged.wellFormed ref rfl hm)
    refine ⟨p, m, ?_, hcompiled, hsized, hknown ▸ hfed, hknown ▸ hhit ▸ hmerged⟩
    refine step_eq hmain hnotified ?_ hreported ?_
    · simpa [MergeParser.onNotification] using hp
    · simpa [Reporter.step] using hm

theorem Agrees.hit (h : Agrees cfg Seen evs sys) (hshot : cfg.singleShot = true)
    (hdistinct : Distinct cfg Seen) (hseen : ∀ r, evs.any (registers cfg r) = true → Seen r)
    (a hits : U64) :
    ∃ p m, sys.step cfg mangle (.hit a hits) = some ⟨sys.main.onAddressHit cfg a hits, p, m⟩ ∧
      Agrees cfg Seen (evs ++ [.hit a hits]) ⟨sys.main.onAddressHit cfg a hits, p, m⟩ := by
  have hstep := onAddressHit_step h.main.wellFormed a hits
  have hknown : known cfg (evs ++ [.hit a hits]) = known cfg evs := by
    funext r
    simp [known, registers]
  have hrefs : ∀ r ∈ sys.main.addrToLine a,
      Seen r ∧ known cfg evs r = cfg.host.fileExists r.file := by
    intro r hr
    have hreg := addressesOf_ne_nil.mp (List.ne_nil_of_mem (h.main.registers_of_mem hr))
    exact ⟨hseen r hreg, by rw [known, hreg, Bool.and_true]⟩
  obtain ⟨p, hp, hfed, hreported⟩ :=
    @ParserFed.onAddresses cfg mangle Seen _ _ h.parser hdistinct (sys.main.addrToLine a) hits hrefs
  obtain ⟨m, hm, hmerged⟩ := h.merged.hits ((sys.main.addrToLine a).filter (known cfg evs))
    (fun r hr => (List.mem_filter.mp hr).2) hits
  refine ⟨p, m, step_eq rfl hstep.notified hp hreported hm, h.main.hit hshot a hits,
    h.sized.congr (sizeOf?_onAddressHit _ _ _), hknown ▸ hfed, hmerged.congr hknown fun r hr => ?_⟩
  rw [Bool.eq_iff_iff, Bool.or_eq_true, decide_eq_true_eq, List.mem_filter, System.hit, System.hit]
  simp only [Bool.not_eq_true', List.isEmpty_eq_false_iff_exists_mem, mem_hitAddressesOf_hit, hr,
    and_true]
  constructor
  · rintro ⟨b, hb | ⟨rfl, ha⟩⟩
    · exact Or.inl ⟨b, hb⟩
    · exact Or.inr (h.main.addrToLine r b ha)
  · rintro (⟨b, hb⟩ | hmem)
    · exact ⟨b, Or.inl hb⟩
    · exact ⟨a, Or.inr ⟨rfl, h.main.registers_of_mem hmem⟩⟩

/-- A step that does not panic has read the file. -/
theorem Agrees.readable (h : Agrees cfg Seen evs sys) {ev : Event} {sys' : System}
    (hstep : sys.step cfg mangle ev = some sys') :
    ∃ main, sys.main.step cfg ev = some main ∧ Readable cfg ev := by
  rw [step] at hstep
  simp only [Option.bind_eq_bind, Option.bind_eq_some_iff] at hstep
  obtain ⟨main, hmain, p, hp, -⟩ := hstep
  refine ⟨main, hmain, ?_⟩
  cases ev with
  | line f n a =>
    intro hfilter hex
    have hline := onLine_eq_some h.main.wellFormed ⟨f, n⟩ hfilter hmain
    rw [hline.notified, h.main.noPending, List.map_nil, List.append_nil, List.drop_left,
      List.foldlM_cons, Option.bind_eq_bind, Option.bind_eq_some_iff] at hp
    obtain ⟨p₁, hp₁, -⟩ := hp
    rw [MergeParser.onNotification, MergeParser.onLineReporter,
      if_neg (by simp [ReporterSetup.mergeParser, hfilter]),
      if_neg (by simp [ReporterSetup.mergeParser, hex]), Option.bind_eq_bind,
      Option.bind_eq_some_iff] at hp₁
    obtain ⟨p₂, hopen, -⟩ := hp₁
    exact (@ParserFed.openFile cfg mangle Seen _ _ h.parser f).mp ⟨p₂, hopen⟩
  | _ => trivial

end Steps

/-! ### Runs -/

section Runs

variable {cfg : ReporterSetup} {mangle : Text → Text} {Seen : LineRef → Prop}
  {evs : List Reporter.Event} {sys : System}

open Reporter

theorem run_snoc (evs : List Event) (ev : Event) :
    run cfg mangle (evs ++ [ev]) = (run cfg mangle evs).bind fun sys => sys.step cfg mangle ev := by
  simp [run, List.foldlM_append]

theorem Agrees.step (h : Agrees cfg Seen evs sys) (hshot : cfg.singleShot = true)
    (hdistinct : Distinct cfg Seen) {ev : Event} (hfile : ev ≠ .file)
    (hids : FilesDistinct cfg (evs ++ [ev]))
    (hseen : ∀ r, (evs ++ [ev]).any (registers cfg r) = true → Seen r) {main : Reporter}
    (hmain : sys.main.step cfg ev = some main) (hread : Readable cfg ev) :
    ∃ p m, sys.step cfg mangle ev = some ⟨main, p, m⟩ ∧
      Agrees cfg Seen (evs ++ [ev]) ⟨main, p, m⟩ := by
  cases ev with
  | file => exact absurd rfl hfile
  | line f n a =>
    cases hf : cfg.runFilters f with
    | false =>
      have hmain' := hmain
      rw [Reporter.step, onLine_filtered hf, Option.some.injEq] at hmain
      subst hmain
      exact ⟨sys.parser, sys.merged, step_eq hmain' (List.append_nil _).symm rfl
        (List.append_nil _).symm rfl, h.filtered hf⟩
    | true =>
      exact @Agrees.line cfg mangle Seen evs sys main h ⟨f, n⟩ a hdistinct hids hseen hf hmain
        hread
  | hit a hits =>
    rw [Reporter.step, Option.some.injEq] at hmain
    subst hmain
    exact h.hit hshot hdistinct (fun r hr => hseen r (by simp [hr])) a hits

theorem agrees_run (hshot : cfg.singleShot = true) (hdistinct : Distinct cfg Seen)
    (hevs : Event.file ∉ evs) (hids : FilesDistinct cfg evs)
    (hseen : ∀ r, evs.any (registers cfg r) = true → Seen r)
    (hrun : run cfg mangle evs = some sys) : Agrees cfg Seen evs sys := by
  induction evs using List.reverseRecOn generalizing sys with
  | nil =>
    cases hrun
    exact agrees_create
  | append_singleton evs ev ih =>
    rw [run_snoc, Option.bind_eq_some_iff] at hrun
    obtain ⟨sys₀, hrun₀, hstep⟩ := hrun
    have h := ih (fun hmem => hevs (List.mem_append_left _ hmem))
      (hids.mono (List.subset_append_left _ _)) (fun r hr => hseen r (by simp [hr])) hrun₀
    obtain ⟨main, hmain, hread⟩ := h.readable hstep
    obtain ⟨p, m, hstep', hagrees⟩ := @Agrees.step cfg mangle Seen evs sys₀ h hshot hdistinct ev
      (fun heq => hevs (by simp [heq])) hids hseen main hmain hread
    rw [hstep, Option.some.injEq] at hstep'
    exact hstep' ▸ hagrees

/-- A run is defined if the reporter stays inside its vectors and the files can be read. -/
theorem exists_run (hshot : cfg.singleShot = true) (hdistinct : Distinct cfg Seen)
    (hevs : Event.file ∉ evs) (hids : FilesDistinct cfg evs)
    (hseen : ∀ r, evs.any (registers cfg r) = true → Seen r)
    (hadmits : ∀ ev ∈ evs, Admits cfg ev) (hread : ∀ ev ∈ evs, Readable cfg ev) :
    ∃ sys, run cfg mangle evs = some sys := by
  induction evs using List.reverseRecOn with
  | nil => exact ⟨_, rfl⟩
  | append_singleton evs ev ih =>
    have hevs₀ : Event.file ∉ evs := fun hmem => hevs (List.mem_append_left _ hmem)
    have hids₀ : FilesDistinct cfg evs := hids.mono (List.subset_append_left _ _)
    have hseen₀ : ∀ r, evs.any (registers cfg r) = true → Seen r :=
      fun r hr => hseen r (by simp [hr])
    obtain ⟨sys, hrun⟩ := ih hevs₀ hids₀ hseen₀
      (fun ev hev => hadmits ev (List.mem_append_left _ hev))
      (fun ev hev => hread ev (List.mem_append_left _ hev))
    have h := agrees_run hshot hdistinct hevs₀ hids₀ hseen₀ hrun
    have hmain : ∃ main, sys.main.step cfg ev = some main := by
      cases ev with
      | file => simp at hevs
      | line f n a =>
        obtain ⟨main, hmain, -⟩ := onLine_isSome h.sized (hadmits (.line f n a) (by simp))
        exact ⟨main, hmain⟩
      | hit a hits => exact ⟨_, rfl⟩
    obtain ⟨main, hmain⟩ := hmain
    obtain ⟨p, m, hstep, -⟩ := @Agrees.step cfg mangle Seen evs sys h hshot hdistinct ev
      (fun heq => hevs (by simp [heq])) hids hseen main hmain (hread ev (by simp))
    exact ⟨_, by rw [run_snoc, hrun, Option.bind_some, hstep]⟩

/-! ### The two reports -/

theorem Agrees.lineIsCode (h : Agrees cfg Seen evs sys) {f : Text}
    (hex : cfg.host.fileExists f = true) (n : U32) :
    sys.merged.lineIsCode f n = sys.main.lineIsCode f n := by
  have hmain := lineIsCode_eq h.main.wellFormed h.main.code ⟨f, n⟩
  have hmerged := lineIsCode_eq h.merged.wellFormed h.merged.code ⟨f, n⟩
  have hcounts : (sys.merged.counts ⟨f, n⟩).isEmpty = (sys.main.counts ⟨f, n⟩).isEmpty := by
    have haddr := @addressesOf_ne_nil cfg ⟨f, n⟩ evs
    rw [h.merged.counts, h.main.counts, known, hex, Bool.true_and, countsOf]
    cases hreg : evs.any (registers cfg ⟨f, n⟩) with
    | true =>
      rw [hreg, eq_self, iff_true] at haddr
      simp [haddr]
    | false =>
      rw [hreg, Bool.false_eq_true, iff_false, not_not] at haddr
      simp [haddr]
  rw [hcounts] at hmerged
  exact hmerged.trans hmain.symm

theorem Agrees.mergedHits (h : Agrees cfg Seen evs sys) {ref : LineRef}
    (hex : cfg.host.fileExists ref.file = true) :
    (sys.merged.getLineExecutionCount cfg.mergeReporter ref.file ref.lineNr).hits ≠ 0 ↔
      cfg.excluded ref = false ∧ hitAddressesOf cfg ref evs ≠ [] := by
  have hhits := hits_eq h.merged.wellFormed ref
  change _ = if cfg.excluded ref then 0 else _ at hhits
  rw [hhits, h.merged.counts, known, hex, Bool.true_and]
  cases hexcl : cfg.excluded ref with
  | true => simp
  | false =>
    cases hreg : evs.any (registers cfg ref) with
    | true =>
      cases hnil : hitAddressesOf cfg ref evs <;> simp [Counts.total, System.hit, hnil]
    | false => simp [hitAddressesOf_eq_nil hreg, Counts.total]

theorem Agrees.mainHits (h : Agrees cfg Seen evs sys) (ref : LineRef) :
    (sys.main.getLineExecutionCount cfg ref.file ref.lineNr).hits ≠ 0 ↔
      cfg.excluded ref = false ∧ (hitAddressesOf cfg ref evs).length % 2 ^ 32 ≠ 0 := by
  rw [h.main.hits, ne_eq, ← BitVec.toNat_inj]
  cases cfg.excluded ref <;> simp

end Runs

/-! ### Compiled programs -/

/-- The calls in a run of a compiled program. The hashes tell the names of its files apart. -/
structure CompiledRun (cfg : ReporterSetup) (evs : List Reporter.Event) : Prop where
  elf : cfg.hashFilename = true
  limited : cfg.maxPossibleHits = .limited
  noFile : Reporter.Event.file ∉ evs
  lineNr : ∀ f n a, Reporter.Event.line f n a ∈ evs → n.toNat < 2 ^ 31
  stringHash : ∀ f n a g m b, Reporter.Event.line f n a ∈ evs → Reporter.Event.line g m b ∈ evs →
    (cfg.host.stringHash f).setWidth 32 = (cfg.host.stringHash g).setWidth 32 → f = g
  hashBlock : ∀ f n a g m b, Reporter.Event.line f n a ∈ evs → Reporter.Event.line g m b ∈ evs →
    cfg.host.hashBlock f = cfg.host.hashBlock g → f = g

section Compiled

variable {cfg : ReporterSetup} {mangle : Text → Text} {evs : List Reporter.Event} {sys : System}

open Reporter

theorem makeId_hash {h k : U64} {n m : U32} (heq : Line.makeId h n = Line.makeId k m) :
    h.setWidth 32 = k.setWidth 32 := by
  apply BitVec.eq_of_getLsbD_eq
  intro i hi
  have hbit := congrArg (fun x : U64 => x.getLsbD (32 + i)) heq
  simp only [BitVec.getLsbD_setWidth, hi, decide_true, Bool.true_and]
  rw [BitVec.getLsbD_eq_getElem (show i < 64 by omega),
    BitVec.getLsbD_eq_getElem (show i < 64 by omega)]
  simpa [Line.makeId, hi, show 32 + i < 64 by omega] using hbit

theorem CompiledRun.filesDistinct (h : CompiledRun cfg evs) : FilesDistinct cfg evs := by
  intro f n a g m b hf hg hid
  apply h.stringHash f n a g m b hf hg
  have hhash : ∀ f, cfg.fileHash f = cfg.host.stringHash f := by
    intro f
    simp [ReporterSetup.fileHash, h.elf]
  rw [← hhash, ← hhash]
  exact makeId_hash hid

theorem getLsbD_hitBit (i : Nat) : hitBit.getLsbD i = decide (i = 63) := by
  have htwo : hitBit = BitVec.twoPow 64 63 := rfl
  rw [htwo, BitVec.getLsbD_twoPow]
  by_cases hi : i = 63
  · subst hi
    rfl
  · simp [hi, Ne.symm hi]

/-- Below `2 ^ 31` the line does not reach the bit that marks a hit. -/
theorem getLsbD_addrHash {r : LineRef} (hn : r.lineNr.toNat < 2 ^ 31) {i : Nat} (hi : i < 64) :
    (addrHash cfg r).getLsbD i = if i < 32 then (cfg.host.hashBlock r.file).getLsbD i
      else r.lineNr.getLsbD (i - 32) := by
  have hlast : r.lineNr.getLsbD 31 = false := by
    rw [← BitVec.testBit_toNat]
    exact Nat.testBit_lt_two_pow hn
  rw [addrHash, hashAddress, BitVec.getLsbD_and, BitVec.getLsbD_or, BitVec.getLsbD_not,
    getLsbD_hitBit, BitVec.getLsbD_setWidth, BitVec.getLsbD_shiftLeft, BitVec.getLsbD_setWidth]
  by_cases hlow : i < 32
  · rw [if_pos hlow]
    simp [hi, hlow, show i ≠ 63 by omega]
  · rw [if_neg hlow, BitVec.getLsbD_of_ge (cfg.host.hashBlock r.file) i (by omega)]
    by_cases h63 : i = 63
    · subst h63
      rw [hlast]
      rfl
    · simp [hi, hlow, h63, show i - 32 < 64 by omega]

theorem addrHash_inj {r r' : LineRef} (hn : r.lineNr.toNat < 2 ^ 31) (hn' : r'.lineNr.toNat < 2 ^ 31)
    (heq : addrHash cfg r = addrHash cfg r') :
    cfg.host.hashBlock r.file = cfg.host.hashBlock r'.file ∧ r.lineNr = r'.lineNr := by
  constructor
  · apply BitVec.eq_of_getLsbD_eq
    intro i hi
    have hbit := congrArg (fun x : U64 => x.getLsbD i) heq
    rwa [getLsbD_addrHash hn (by omega), getLsbD_addrHash hn' (by omega), if_pos hi, if_pos hi]
      at hbit
  · apply BitVec.eq_of_getLsbD_eq
    intro i hi
    have hbit := congrArg (fun x : U64 => x.getLsbD (32 + i)) heq
    rwa [getLsbD_addrHash hn (by omega), getLsbD_addrHash hn' (by omega), if_neg (by omega),
      if_neg (by omega), Nat.add_sub_cancel_left] at hbit

theorem CompiledRun.distinct (h : CompiledRun cfg evs) :
    Distinct cfg fun r => evs.any (registers cfg r) = true := by
  refine ⟨fun r r' hr hr' hid => h.filesDistinct.lineId_inj hr hr' hid, fun r r' hr hr' heq => ?_⟩
  obtain ⟨a, ha⟩ := exists_line_of_registers hr
  obtain ⟨b, hb⟩ := exists_line_of_registers hr'
  obtain ⟨hhash, hn⟩ := addrHash_inj (h.lineNr _ _ _ ha) (h.lineNr _ _ _ hb) heq
  obtain ⟨f, n⟩ := r
  obtain ⟨g, m⟩ := r'
  rw [LineRef.mk.injEq]
  exact ⟨h.hashBlock _ _ _ _ _ _ ha hb hhash, hn⟩

theorem CompiledRun.agrees (h : CompiledRun cfg evs) (hrun : run cfg mangle evs = some sys) :
    Agrees cfg (fun r => evs.any (registers cfg r) = true) evs sys :=
  agrees_run (by simp [ReporterSetup.singleShot, h.limited]) h.distinct h.noFile h.filesDistinct
    (fun _ hr => hr) hrun

/-- The two reports agree about every existing included file, if and only if no line of such a file
has a positive multiple of `2 ^ 32` hit addresses. -/
theorem reports_agree_iff (cfg : ReporterSetup) (mangle : Text → Text) (evs : List Event)
    (h : CompiledRun cfg evs) {sys : System} (hrun : run cfg mangle evs = some sys) :
    (∀ f n, cfg.host.fileExists f = true → cfg.runFilters f = true →
      sys.main.lineIsCode f n = sys.merged.lineIsCode f n ∧
      ((sys.merged.getLineExecutionCount cfg.mergeReporter f n).hits ≠ 0 ↔
        (sys.main.getLineExecutionCount cfg f n).hits ≠ 0)) ↔
    ∀ f n, cfg.host.fileExists f = true → cfg.runFilters f = true → cfg.excluded ⟨f, n⟩ = false →
      2 ^ 32 ∣ (hitAddressesOf cfg ⟨f, n⟩ evs).length → hitAddressesOf cfg ⟨f, n⟩ evs = [] := by
  have hagrees := h.agrees hrun
  apply forall₄_congr
  intro f n hex _
  rw [and_iff_right (hagrees.lineIsCode hex n).symm]
  rw [@Agrees.mergedHits _ _ _ _ hagrees ⟨f, n⟩ hex, hagrees.mainHits ⟨f, n⟩]
  cases cfg.excluded ⟨f, n⟩ with
  | true => simp
  | false =>
    rw [eq_self, true_and, true_and, true_imp_iff, ← List.length_eq_zero_iff, ne_eq,
      ← List.length_eq_zero_iff]
    omega

end Compiled

/-! ### A line with many addresses -/

open Reporter

/-- A host on which every file has one line. -/
def wideSetup : ReporterSetup :=
  { compiledSetup with
    host := { Host.bare with
      fileExists := fun _ => true
      readFile := fun _ => some (ascii "x\n") } }

/-- The first line of `/a` with `n` addresses, of which the first `k` are hit. -/
def wideRun (n k : Nat) : List Event :=
  (List.range n).map (fun i => .line (ascii "/a") 1 (BitVec.ofNat 64 i)) ++
    (List.range k).map fun i => .hit (BitVec.ofNat 64 i) 1

section Wide

variable {n k : Nat}

theorem line_mem_wideRun {f : Text} {m : U32} {a : U64} (h : Event.line f m a ∈ wideRun n k) :
    f = ascii "/a" ∧ m = 1 := by
  rcases List.mem_append.mp h with h | h
  · obtain ⟨i, -, heq⟩ := List.mem_map.mp h
    cases heq
    exact ⟨rfl, rfl⟩
  · obtain ⟨i, -, heq⟩ := List.mem_map.mp h
    simp at heq

theorem compiledRun_wideRun (n k : Nat) : CompiledRun wideSetup (wideRun n k) := by
  have hname : ∀ f m a g m' b, Event.line f m a ∈ wideRun n k → Event.line g m' b ∈ wideRun n k →
      f = g := by
    intro f m a g m' b hf hg
    rw [(line_mem_wideRun hf).1, (line_mem_wideRun hg).1]
  refine ⟨rfl, rfl, fun h => ?_, fun f m a h => ?_, fun f m a g m' b hf hg _ => hname _ _ _ _ _ _ hf hg,
    fun f m a g m' b hf hg _ => hname _ _ _ _ _ _ hf hg⟩
  · simp [wideRun] at h
  · rw [(line_mem_wideRun h).2]
    decide

theorem exists_wideRun (n k : Nat) : ∃ sys, run wideSetup id (wideRun n k) = some sys := by
  have h := compiledRun_wideRun n k
  refine exists_run rfl h.distinct h.noFile h.filesDistinct (fun _ hr => hr) (fun ev hev => ?_)
    fun ev hev => ?_
  · cases ev with
    | line f m a =>
      intro _
      obtain ⟨rfl, rfl⟩ := line_mem_wideRun hev
      exact ⟨by rw [Fits]; decide, by rw [Opens]; decide⟩
    | _ => trivial
  · cases ev with
    | line f m a => exact fun _ _ => rfl
    | _ => trivial

/-- The addresses that are registered, and those that are hit. -/
theorem hitAddressesOf_wideRun (hn : n ≤ 2 ^ 64) (hk : k ≤ n) :
    addressesOf wideSetup ⟨ascii "/a", 1⟩ (wideRun n k) = (List.range n).map (BitVec.ofNat 64) ∧
      hitAddressesOf wideSetup ⟨ascii "/a", 1⟩ (wideRun n k) =
        (List.range k).map (BitVec.ofNat 64) := by
  have hnew : ∀ i, i < 2 ^ 64 → BitVec.ofNat 64 i ∉ (List.range i).map (BitVec.ofNat 64) := by
    intro i hi hmem
    obtain ⟨j, hj, heq⟩ := List.mem_map.mp hmem
    rw [List.mem_range] at hj
    rw [← BitVec.toNat_inj, BitVec.toNat_ofNat, BitVec.toNat_ofNat, Nat.mod_eq_of_lt (by omega),
      Nat.mod_eq_of_lt hi] at heq
    omega
  induction k with
  | zero =>
    have hlines : ∀ m, m ≤ n → addressesOf wideSetup ⟨ascii "/a", 1⟩ (wideRun m 0) =
        (List.range m).map (BitVec.ofNat 64) ∧
        hitAddressesOf wideSetup ⟨ascii "/a", 1⟩ (wideRun m 0) = [] := by
      intro m hm
      induction m with
      | zero => exact ⟨rfl, rfl⟩
      | succ m ih =>
        obtain ⟨haddr, hhits⟩ := ih (by omega)
        have hsnoc : wideRun (m + 1) 0 =
            wideRun m 0 ++ [.line (ascii "/a") 1 (BitVec.ofNat 64 m)] := by
          simp [wideRun, List.range_succ]
        have hreg : registers wideSetup ⟨ascii "/a", 1⟩
            (.line (ascii "/a") 1 (BitVec.ofNat 64 m)) = true := by
          simp [registers, wideSetup, compiledSetup]
        rw [hsnoc, addressesOf_snoc, hitAddressesOf_snoc (by simp), haddr, addAddressOf, hreg,
          List.range_succ, List.map_append]
        refine ⟨?_, hhits⟩
        rw [if_pos (by simpa using hnew m (by omega))]
        rfl
    exact hlines n (Nat.le_refl n)
  | succ k ih =>
    obtain ⟨haddr, hhits⟩ := ih (by omega)
    have hsnoc : wideRun n (k + 1) = wideRun n k ++ [.hit (BitVec.ofNat 64 k) 1] := by
      simp [wideRun, List.range_succ]
    have hmem : BitVec.ofNat 64 k ∈ (List.range n).map (BitVec.ofNat 64) :=
      List.mem_map_of_mem (List.mem_range.mpr (by omega))
    rw [hsnoc, addressesOf_snoc, hitAddressesOf_hit, haddr, hhits,
      if_pos ⟨hmem, hnew k (by omega)⟩, List.range_succ, List.map_append]
    exact ⟨rfl, rfl⟩

end Wide

/-- With two hit addresses the reports agree. -/
theorem reports_agree_two : ∃ sys, run wideSetup id (wideRun 2 2) = some sys ∧
    sys.main.lineIsCode (ascii "/a") 1 = sys.merged.lineIsCode (ascii "/a") 1 ∧
    ((sys.merged.getLineExecutionCount wideSetup.mergeReporter (ascii "/a") 1).hits ≠ 0 ↔
      (sys.main.getLineExecutionCount wideSetup (ascii "/a") 1).hits ≠ 0) := by
  obtain ⟨sys, hrun⟩ := exists_wideRun 2 2
  refine ⟨sys, hrun, (reports_agree_iff wideSetup id (wideRun 2 2) (compiledRun_wideRun 2 2)
    hrun).mpr (fun f n _ _ _ hdvd => ?_) (ascii "/a") 1 rfl rfl⟩
  by_cases hreg : (wideRun 2 2).any (registers wideSetup ⟨f, n⟩) = true
  · obtain ⟨a, ha⟩ := exists_line_of_registers hreg
    obtain ⟨rfl, rfl⟩ := line_mem_wideRun ha
    rw [(hitAddressesOf_wideRun (by omega) (by omega)).2] at hdvd
    exact absurd hdvd (by decide)
  · exact hitAddressesOf_eq_nil (Bool.not_eq_true _ ▸ hreg)

/-- With `2 ^ 32` hit addresses the sum of the counts of the reporter is zero. -/
theorem not_reports_agree_wide : CompiledRun wideSetup (wideRun (2 ^ 32) (2 ^ 32)) ∧
    ∃ sys, run wideSetup id (wideRun (2 ^ 32) (2 ^ 32)) = some sys ∧
      (sys.main.getLineExecutionCount wideSetup (ascii "/a") 1).hits = 0 ∧
      (sys.merged.getLineExecutionCount wideSetup.mergeReporter (ascii "/a") 1).hits ≠ 0 := by
  generalize hn : 2 ^ 32 = n
  have h := compiledRun_wideRun n n
  obtain ⟨sys, hrun⟩ := exists_wideRun n n
  have hagrees := h.agrees hrun
  have hhits := (@hitAddressesOf_wideRun n n (by omega) (by omega)).2
  refine ⟨h, sys, hrun, ?_, ?_⟩
  · by_contra hne
    have hmain := (hagrees.mainHits ⟨ascii "/a", 1⟩).mp hne
    rw [hhits, List.length_map, List.length_range] at hmain
    omega
  · refine (@Agrees.mergedHits _ _ _ _ hagrees ⟨ascii "/a", 1⟩ rfl).mpr ⟨by decide, ?_⟩
    rw [hhits, ne_eq, List.map_eq_nil_iff, List.range_eq_nil]
    omega

end System

end Kcov
