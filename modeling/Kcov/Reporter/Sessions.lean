import Kcov.Reporter.Compiled

/-! Runs of a compiled program one after the other, each of which may load the database that the one
before it wrote. -/

namespace Kcov

open Bytes

namespace Reporter

/-- One run of the program: its setup, whether it loads the database of the run before, the order in
which that run visited its files when it wrote it, and the calls of the parser and the collector. -/
structure Session where
  cfg : ReporterSetup
  loads : Bool
  order : IterationOrder
  evs : List Event

/-- A run at some point of it: its setup, with what it found, and its reporter. -/
abbrev Running := ReporterSetup × Reporter

namespace Session

/-- The run, after one that ended in `prev`. -/
def start (x : Session) (prev : Option Running) : Option Running :=
  match prev with
  | none => (run x.cfg x.evs).map fun s => (x.cfg, s)
  | some (cfg, s) =>
    if x.loads then
      let found := x.cfg.reload (s.marshal cfg x.order)
      (run found (.file :: x.evs)).map fun t => (found, t)
    else (run x.cfg x.evs).map fun s => (x.cfg, s)

/-- The last of the runs. -/
def runAll (xs : List Session) : Option (Option Running) :=
  xs.foldlM (fun prev x => (x.start prev).map some) none

/-- A run of a compiled program, whose lines have distinct numbers. -/
structure Compiled (x : Session) : Prop where
  maxPossibleHits : x.cfg.maxPossibleHits = .limited
  distinct : FilesDistinct x.cfg x.evs
  noFile : Event.file ∉ x.evs

/-- Every line has fewer addresses than an `unsigned int` can count. -/
def Countable (x : Session) : Prop :=
  ∀ ref, (addressesOf x.cfg ref x.evs).length < 2 ^ 32

end Session

/-! ### The database of a run -/

/-- What a run leaves behind. -/
structure Ended (cfg : ReporterSetup) (s : Reporter) : Prop where
  singleShot : cfg.singleShot = true
  wellFormed : s.WellFormed cfg
  sized : Sized cfg s
  distinct : DistinctIds cfg s
  limited : LimitedState cfg s
  countable : ∀ ref, (s.counts ref).length < 2 ^ 32

section Stored

variable {cfg : ReporterSetup} {s : Reporter} {it : IterationOrder}

/-- At most one hit address of a line is stored as its first one. -/
theorem hitAddresses_storedFirst {cs : Counts} (hlen : cs.length ≤ 2 ^ 32) :
    hitAddresses storedFirst cs ≤ 1 := by
  cases cs with
  | nil => exact Nat.zero_le 1
  | cons p cs =>
    rw [List.length_cons] at hlen
    have hone : ∀ b : Bool, (if b = true then 1 else 0) ≤ 1 := by decide
    rw [hitAddresses, List.zipIdx_cons, List.countP_cons]
    refine Nat.add_le_add (Nat.le_of_eq (List.countP_eq_zero.mpr fun x hx => ?_)) (hone _)
    have hx' := List.mem_zipIdx hx
    have hnot : storedFirst x.2 = false := by
      rw [storedFirst, decide_eq_false_iff_not, Nat.mod_eq_of_lt (by omega)]
      omega
    simp [hnot]

/-- The hits that are stored for the first address of a line come to at most one. -/
theorem Ended.firstHits (h : Ended cfg s) (id : U64) :
    firstHits (waiting (s.entries it) id) = 0 ∨ firstHits (waiting (s.entries it) id) = 1 := by
  by_cases hid : ∃ ref, s.counts ref ≠ [] ∧ cfg.lineId ref = id
  · obtain ⟨ref, hne, rfl⟩ := hid
    have hcount := hitAddresses_storedFirst (h.countable ref).le
    rw [waiting, filter_entries h.wellFormed h.sized h.distinct hne,
      firstHits_entriesOf _ (h.limited.counts ref)]
    rcases Nat.le_one_iff_eq_zero_or_eq_one.mp hcount with hzero | hone
    · rw [hzero]
      exact Or.inl rfl
    · rw [hone]
      exact Or.inr rfl
  · have hnil : waiting (s.entries it) id = [] := by
      rw [waiting, List.map_eq_nil_iff, List.filter_eq_nil_iff]
      intro e he heq
      obtain ⟨ref, href⟩ := (mem_entries h.wellFormed h.sized).mp he
      obtain ⟨i, p, hget, -, rfl⟩ := mem_entriesOf.mp href
      exact hid ⟨ref, List.ne_nil_of_mem (List.mem_of_getElem? hget), of_decide_eq_true heq⟩
    rw [hnil]
    exact Or.inl rfl

end Stored

theorem addressesOf_reload {cfg : ReporterSetup} {ref : LineRef} {evs : List Event}
    (data : List Byte) :
    addressesOf (cfg.reload data) ref (.file :: evs) = addressesOf cfg ref evs := by
  rw [addressesOf, addressesOf, List.foldl_cons]
  rfl

/-- The counts stay limited if the stored hits of each line come to at most one for its first
address. -/
theorem limited_reload {cfg : ReporterSetup} {evs : List Event} {data : List Byte} {t : Reporter}
    (hshot : cfg.singleShot = true) (hevs : Event.file ∉ evs)
    (hdata : marshalHeaderSize ≤ data.length)
    (hfirst : ∀ id,
      firstHits (waiting ((databaseEntries data).filter fun e => e.hits ≠ 0) id) = 0 ∨
      firstHits (waiting ((databaseEntries data).filter fun e => e.hits ≠ 0) id) = 1)
    (hrun : run (cfg.reload data) (.file :: evs) = some t) : LimitedState (cfg.reload data) t := by
  obtain ⟨found, hfound, -⟩ := @unMarshalHeader_eq_some cfg data hdata
  rw [run, List.foldlM_cons, step, onFile_reload hfound, Option.bind_eq_bind,
    Option.bind_some] at hrun
  refine limited_calls hshot hevs ?_ ?_ hrun
  · exact (wellFormed_create _).congr rfl rfl rfl rfl rfl
  refine ⟨fun _ => Counts.limited_nil, fun id => ?_, fun ref hne => absurd rfl hne⟩
  dsimp only
  split
  · exact hfirst id
  · exact Or.inl rfl

namespace Session

variable {x : Session}

theorem Compiled.singleShot (h : x.Compiled) : x.cfg.singleShot = true := by
  rw [ReporterSetup.singleShot, h.maxPossibleHits]
  rfl

theorem Compiled.ended (h : x.Compiled) (hcount : x.Countable) {s : Reporter}
    (hrun : run x.cfg x.evs = some s) : Ended x.cfg s := by
  obtain ⟨hwf, haddrs⟩ := run_frame hrun
  refine ⟨h.singleShot, hwf, (run_sized hrun).1, distinctIds_run h.distinct hrun,
    (oneShot_run h.singleShot h.noFile hrun).limited, fun ref => ?_⟩
  have hlen := hcount ref
  rwa [← haddrs, List.length_map] at hlen

/-- A run that loads what another has left. -/
theorem Compiled.ended_reload (h : x.Compiled) (hcount : x.Countable) {cfg : ReporterSetup}
    {s t : Reporter} (hended : Ended cfg s)
    (hrun : run (x.cfg.reload (s.marshal cfg x.order)) (.file :: x.evs) = some t) :
    Ended (x.cfg.reload (s.marshal cfg x.order)) t := by
  have hfirst : ∀ id, firstHits (waiting ((databaseEntries (s.marshal cfg x.order)).filter
      fun e => e.hits ≠ 0) id) = 0 ∨ firstHits (waiting ((databaseEntries
        (s.marshal cfg x.order)).filter fun e => e.hits ≠ 0) id) = 1 := by
    rw [filter_databaseEntries hended.wellFormed hended.sized]
    exact hended.firstHits
  have hdata : marshalHeaderSize ≤ (s.marshal cfg x.order).length := length_marshal
  generalize s.marshal cfg x.order = data at hrun hfirst hdata ⊢
  obtain ⟨hwf, haddrs⟩ := run_frame hrun
  have hdistinct : FilesDistinct (x.cfg.reload data) (.file :: x.evs) := by
    intro f n a g m b hf hg
    exact h.distinct f n a g m b (by simpa using hf) (by simpa using hg)
  refine ⟨h.singleShot, hwf, (run_sized hrun).1, distinctIds_run hdistinct hrun,
    limited_reload h.singleShot h.noFile hdata hfirst hrun, fun ref => ?_⟩
  have hlen := hcount ref
  rwa [← addressesOf_reload data, ← haddrs, List.length_map] at hlen

theorem ended_start {prev : Option Running} (h : x.Compiled) (hcount : x.Countable)
    (hprev : ∀ y, prev = some y → Ended y.1 y.2) {out : Running}
    (hout : x.start prev = some out) : Ended out.1 out.2 := by
  have hfresh : ∀ {out : Running},
      (run x.cfg x.evs).map (fun s => (x.cfg, s)) = some out → Ended out.1 out.2 := by
    intro out hout
    obtain ⟨s, hs, rfl⟩ := Option.map_eq_some_iff.mp hout
    exact h.ended hcount hs
  cases prev with
  | none => exact hfresh hout
  | some y =>
    obtain ⟨cfg, s⟩ := y
    rw [start] at hout
    dsimp only at hout
    split at hout
    · obtain ⟨t, ht, rfl⟩ := Option.map_eq_some_iff.mp hout
      exact h.ended_reload hcount (hprev _ rfl) ht
    · exact hfresh hout

theorem ended_runAll {xs : List Session} (hcompiled : ∀ x ∈ xs, x.Compiled)
    (hcount : ∀ x ∈ xs, x.Countable) {out : Option Running} (h : runAll xs = some out) :
    ∀ y, out = some y → Ended y.1 y.2 := by
  induction xs using List.reverseRecOn generalizing out with
  | nil =>
    cases h
    simp
  | append_singleton xs x ih =>
    rw [runAll, List.foldlM_append, Option.bind_eq_bind, Option.bind_eq_some_iff] at h
    obtain ⟨prev, hprev, h⟩ := h
    simp only [List.foldlM_cons, List.foldlM_nil, Option.bind_eq_bind, Option.pure_def,
      Option.bind_eq_some_iff, Option.some.injEq] at h
    obtain ⟨o, ho, rfl⟩ := h
    obtain ⟨y, hy, rfl⟩ := Option.map_eq_some_iff.mp ho
    intro y' heq
    rw [← Option.some.inj heq]
    exact ended_start (hcompiled x (by simp)) (hcount x (by simp))
      (ih (fun x hx => hcompiled x (List.mem_append_left _ hx))
        (fun x hx => hcount x (List.mem_append_left _ hx)) hprev) hy

/-- Over any number of runs of a compiled program, at every point of the last one, each address
counts at most one hit, and no line has more hits than it can have. -/
theorem limited_across_runs (xs : List Session) (hcompiled : ∀ x ∈ xs, x.Compiled)
    (hcount : ∀ x ∈ xs, x.Countable) (cfg : ReporterSetup) (s : Reporter)
    (h : runAll xs = some (some (cfg, s))) :
    (∀ ref, ∀ p ∈ s.counts ref, p.2 = 0 ∨ p.2 = 1) ∧
    ∀ f n, (s.getLineExecutionCount cfg f n).hits ≤
      (s.getLineExecutionCount cfg f n).possibleHits := by
  have hended : Ended cfg s := ended_runAll hcompiled hcount h _ rfl
  refine ⟨hended.limited.counts, fun f n => ?_⟩
  rw [getLineExecutionCount]
  split
  · exact BitVec.le_refl _
  next line hline =>
    split
    · exact BitVec.le_refl _
    · have hcounts := counts_eq hline
      have hlen := hended.countable ⟨f, n⟩
      have hlimited := hended.limited.counts ⟨f, n⟩
      rw [hcounts] at hlen hlimited
      dsimp only
      rw [Line.possibleHits, hended.singleShot, if_pos rfl, line.hits_eq_total]
      exact hlimited.total_le hlen

/-! ### A line with too many addresses -/

/-- The calls of the parser that give line 1 of `/a` the addresses below `n`. -/
def manyLines (n : Nat) : List Event :=
  (List.range n).map fun i => .line (ascii "/a") 1 (BitVec.ofNat 64 i)

/-- A run in which the first of these addresses is hit. -/
def manyAddresses (n : Nat) : Session where
  cfg := compiledSetup
  loads := false
  order := foundOrder
  evs := manyLines n ++ [.hit 0 1]

theorem mem_manyAddresses {n : Nat} {f : Text} {m : U32} {a : U64}
    (h : Event.line f m a ∈ (manyAddresses n).evs) : f = ascii "/a" ∧ m = 1 := by
  rcases List.mem_append.mp h with h | h
  · obtain ⟨i, -, heq⟩ := List.mem_map.mp h
    rw [Event.line.injEq] at heq
    exact ⟨heq.1.symm, heq.2.1.symm⟩
  · simp at h

theorem compiled_manyAddresses (n : Nat) : (manyAddresses n).Compiled := by
  refine ⟨rfl, fun f m a g k b hf hg _ => ?_, ?_⟩
  · rw [(mem_manyAddresses hf).1, (mem_manyAddresses hg).1]
  · simp [manyAddresses, manyLines]

theorem addressesOf_manyLines {n : Nat} (hn : n ≤ 2 ^ 64) :
    addressesOf compiledSetup ⟨ascii "/a", 1⟩ (manyLines n) =
      (List.range n).map (BitVec.ofNat 64) := by
  induction n with
  | zero => rfl
  | succ n ih =>
    have hnew : BitVec.ofNat 64 n ∉ (List.range n).map (BitVec.ofNat 64) := by
      rintro hmem
      obtain ⟨i, hi, heq⟩ := List.mem_map.mp hmem
      rw [List.mem_range] at hi
      have hnat := congrArg BitVec.toNat heq
      rw [BitVec.toNat_ofNat, BitVec.toNat_ofNat, Nat.mod_eq_of_lt (by omega),
        Nat.mod_eq_of_lt (by omega)] at hnat
      omega
    rw [manyLines, List.range_succ, List.map_append, List.map_singleton, ← manyLines,
      addressesOf_snoc, ih (by omega), addAddressOf_line (r := ⟨ascii "/a", 1⟩) rfl, if_pos rfl,
      if_neg hnew, List.map_append, List.map_singleton]

theorem hitAddressesOf_manyLines (n : Nat) (ref : LineRef) :
    hitAddressesOf compiledSetup ref (manyLines n) = [] := by
  induction n with
  | zero => rfl
  | succ n ih =>
    rw [manyLines, List.range_succ, List.map_append, List.map_singleton, ← manyLines,
      hitAddressesOf_snoc (by simp), ih]

/-- The line has one hit, and its addresses are counted in 32 bits. -/
theorem runAll_manyAddresses {n : Nat} (hpos : 0 < n) (hn : n ≤ 2 ^ 64) :
    ∃ s, runAll [manyAddresses n] = some (some (compiledSetup, s)) ∧
      (s.getLineExecutionCount compiledSetup (ascii "/a") 1).hits = 1 ∧
      (s.getLineExecutionCount compiledSetup (ascii "/a") 1).possibleHits = BitVec.ofNat 32 n := by
  have hadmits : ∀ ev ∈ (manyAddresses n).evs, Admits compiledSetup ev := by
    intro ev hev
    cases ev with
    | line f m a =>
      obtain ⟨rfl, rfl⟩ := mem_manyAddresses hev
      exact fun _ => ⟨by unfold Fits; decide, by unfold Opens; decide⟩
    | _ => trivial
  obtain ⟨s, hs, hstate⟩ := @compiledState_run compiledSetup (manyAddresses n).evs rfl
    (compiled_manyAddresses n).distinct.sharers (compiled_manyAddresses n).noFile hadmits
  have haddrs : (s.counts ⟨ascii "/a", 1⟩).map Prod.fst = (List.range n).map (BitVec.ofNat 64) := by
    rw [(run_frame hs).2, ← addressesOf_manyLines hn]
    exact addressesOf_snoc _ _
  have hne : s.counts ⟨ascii "/a", 1⟩ ≠ [] := by
    intro hnil
    rw [hnil, List.map_nil, eq_comm, List.map_eq_nil_iff, List.range_eq_nil] at haddrs
    omega
  obtain ⟨p, hp⟩ := List.exists_mem_of_ne_nil _ hne
  obtain ⟨i, hi⟩ := List.mem_iff_getElem?.mp hp
  obtain ⟨line, hline, hcounts⟩ := line?_of_counts hi
  have hex : compiledSetup.excluded ⟨ascii "/a", 1⟩ = false := by decide
  refine ⟨s, ?_, ?_, ?_⟩
  · rw [runAll, List.foldlM_cons, start]
    change ((run compiledSetup (manyAddresses n).evs).map fun s => (compiledSetup, s)).map some >>= _ = _
    rw [hs]
    rfl
  · have hhits := hstate.hits ⟨ascii "/a", 1⟩
    have hfirst : hitAddressesOf compiledSetup ⟨ascii "/a", 1⟩ (manyAddresses n).evs = [0] := by
      have hmem : (0 : U64) ∈ (List.range n).map (BitVec.ofNat 64) :=
        List.mem_map.mpr ⟨0, List.mem_range.mpr hpos, rfl⟩
      change hitAddressesOf _ _ (manyLines n ++ [.hit 0 1]) = _
      rw [hitAddressesOf_hit, addressesOf_manyLines hn, hitAddressesOf_manyLines,
        if_pos ⟨hmem, List.not_mem_nil⟩, List.nil_append]
    rw [hex, hfirst] at hhits
    exact hhits
  · have hun := (run_frame hs).1.unreachable _ _ hline
    have hlen := congrArg List.length haddrs
    rw [List.length_map, List.length_map, List.length_range, ← hcounts] at hlen
    rw [getLineExecutionCount, hline]
    simp only [hun, hex, Bool.false_eq_true, if_false]
    rw [Line.possibleHits, hlen]
    rfl

theorem countable_manyAddresses {n : Nat} (hn : n < 2 ^ 32) : (manyAddresses n).Countable := by
  intro ref
  have hsnoc : addressesOf compiledSetup ref (manyAddresses n).evs =
      addressesOf compiledSetup ref (manyLines n) := addressesOf_snoc _ _
  change (addressesOf compiledSetup ref (manyAddresses n).evs).length < 2 ^ 32
  rw [hsnoc]
  by_cases href : ref = ⟨ascii "/a", 1⟩
  · rw [href, addressesOf_manyLines (by omega), List.length_map, List.length_range]
    exact hn
  · have hnil : addressesOf compiledSetup ref (manyLines n) = [] := by
      by_contra hne
      obtain ⟨a, ha⟩ := exists_line_of_registers (addressesOf_ne_nil.mp hne)
      obtain ⟨hf, hm⟩ := mem_manyAddresses (n := n) (List.mem_append_left _ ha)
      exact href (by cases ref; simp_all)
    rw [hnil, List.length_nil]
    exact Nat.two_pow_pos 32

/-- The run behind `x` that loads what it left, at the point where its lines have been found. -/
def again (x : Session) : Session := { x with loads := true, evs := x.evs.filter isLine }

theorem Compiled.again (h : x.Compiled) : x.again.Compiled :=
  ⟨h.maxPossibleHits, h.distinct.mono (List.filter_subset_self _),
    fun hmem => h.noFile (List.mem_of_mem_filter hmem)⟩

theorem Countable.again (h : x.Countable) : x.again.Countable :=
  fun ref => (congrArg List.length (addressesOf_filter x.evs)).trans_lt (h ref)

theorem runAll_again {s : Reporter} (h : x.Compiled) (hrun : run x.cfg x.evs = some s) :
    ∃ cfg t, runAll [x, x.again] = some (some (cfg, t)) ∧ ∀ ref : LineRef,
      (t.getLineExecutionCount cfg ref.file ref.lineNr).hits = if x.cfg.excluded ref then 0
        else BitVec.ofNat 32 (hitAddresses storedFirst (s.counts ref)) := by
  obtain ⟨t, ht, hhits⟩ := reloaded_hits h.noFile h.singleShot h.distinct hrun x.order
  refine ⟨x.cfg.reload (s.marshal x.cfg x.order), t, ?_, hhits⟩
  have hfirst : x.start none = some (x.cfg, s) := by
    rw [start, hrun]
    rfl
  have hsecond : x.again.start (some (x.cfg, s)) =
      some (x.cfg.reload (s.marshal x.cfg x.order), t) := by
    simp only [start, Session.again, if_true, ht, Option.map_some]
  simp only [runAll, List.foldlM_cons, List.foldlM_nil, hfirst, Option.map_some,
    Option.bind_eq_bind, Option.bind_some, hsecond]
  rfl

/-- The hit of three addresses that a run stores comes back in the next one, and is at most the
possible hits. -/
theorem limited_three_addresses :
    ∃ cfg s, runAll [manyAddresses 3, (manyAddresses 3).again] = some (some (cfg, s)) ∧
      (s.getLineExecutionCount cfg (ascii "/a") 1).hits = 1 ∧
      (s.getLineExecutionCount cfg (ascii "/a") 1).hits ≤
        (s.getLineExecutionCount cfg (ascii "/a") 1).possibleHits := by
  obtain ⟨s, hs⟩ : ∃ s, run compiledSetup (manyAddresses 3).evs = some s := ⟨_, rfl⟩
  obtain ⟨cfg, t, hall, hhits⟩ := runAll_again (compiled_manyAddresses 3) hs
  have hcounts : (run compiledSetup (manyAddresses 3).evs).map (fun s => s.counts ⟨ascii "/a", 1⟩) =
      some [(0, 1), (1, 0), (2, 0)] := by decide
  rw [hs, Option.map_some, Option.some.injEq] at hcounts
  have hone := hhits ⟨ascii "/a", 1⟩
  rw [hcounts] at hone
  have hcompiled := compiled_manyAddresses 3
  have hcount := countable_manyAddresses (n := 3) (by decide)
  refine ⟨cfg, t, hall, hone.trans (by decide), (limited_across_runs _ ?_ ?_ cfg t hall).2 _ _⟩
  · simpa using ⟨hcompiled, hcompiled.again⟩
  · simpa using ⟨hcount, hcount.again⟩

/-- With 2 ^ 32 addresses one hit is more than the possible hits. -/
theorem not_limited_many_addresses :
    (manyAddresses (2 ^ 32)).Compiled ∧
    ∃ s, runAll [manyAddresses (2 ^ 32)] = some (some (compiledSetup, s)) ∧
      ¬(s.getLineExecutionCount compiledSetup (ascii "/a") 1).hits ≤
        (s.getLineExecutionCount compiledSetup (ascii "/a") 1).possibleHits := by
  obtain ⟨s, hs, hhits, hpossible⟩ := runAll_manyAddresses (n := 2 ^ 32) (by decide) (by decide)
  refine ⟨compiled_manyAddresses _, s, hs, ?_⟩
  rw [hhits, hpossible]
  decide

end Session

end Reporter

end Kcov
