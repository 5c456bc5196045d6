import Kcov.Kernel.Probing

/-! Where the probes are between the line that asks for them and the hit that is counted: each is at one
place, whatever the kernel and its modules do in between. -/

namespace Kcov.Kernel

open Bytes Runs

/-! ### Where the addresses are -/

/-- The entries of a list that stand for an address. -/
def State.on (s : State) (l : List Nat) (a : BitVec 64) : Nat :=
  l.countP fun e => (s.entries e).any fun entry => entry.addr = a

/-- The addresses of the hits that the reporter was told. -/
def reported (calls : List Reporter.Event) : List (BitVec 64) :=
  calls.filterMap fun
    | .hit a _ => some a
    | _ => none

/-- The line of `show` for an address of the kernel. -/
def kernelLine (a : BitVec 64) : Text := hexMark ++ hexDigits 16 a.toNat ++ [newline]

section On

variable {s t : State} {l : List Nat} {a : BitVec 64} {e : Nat}

theorem State.on_congr (h : ∀ e ∈ l, t.entries e = s.entries e) : t.on l a = s.on l a :=
  List.countP_congr fun e he => by rw [h e he]

theorem State.on_cons (e : Nat) (l : List Nat) : s.on (e :: l) a = s.on [e] a + s.on l a :=
  @List.countP_append _ _ [e] l

theorem State.on_snoc (l : List Nat) (e : Nat) : s.on (l ++ [e]) a = s.on l a + s.on [e] a :=
  List.countP_append

/-- Taking an entry off a list. -/
theorem State.on_erase (he : e ∈ l) : s.on [e] a + s.on (l.erase e) a = s.on l a := by
  rw [← State.on_cons]
  exact (List.perm_cons_erase he).symm.countP_eq _

theorem State.on_singleton {entry : Entry} (h : s.entries e = some entry) :
    s.on [e] a = if entry.addr = a then 1 else 0 := by
  simp [State.on, List.countP_singleton, h]

end On

/-- The state follows what is meant to happen. Every probe that was planted is at one place: its
address is that of a pending entry, of one that triggered, or of one that is being shown, or it stands
in the text that is not read yet, was lost, or was reported. -/
structure Follows (w : Watch) (s : Probing) (unread lost : List (BitVec 64)) : Prop where
  sound : s.kernel.Sound
  queued : ∀ e, (s.worker.items ++ s.kernel.workqueue).count e ≤ s.kernel.pendingList.count e
  armed : ∀ e ∈ s.kernel.pendingList,
    (s.kernel.entries e).any Entry.registered = true ↔ s.worker ≠ .unregistered e
  asked : ∀ a, a ∈ s.addresses ↔ a ∈ w.asked
  probed : w.probed ⊆ w.asked
  ofKernel : ∀ e entry, s.kernel.entries e = some entry → entry.nameIndex = 0 ∧ entry.baseAddr = 0
  deferred : s.kernel.deferredList = []
  text : s.unread = unread.flatMap kernelLine
  place : ∀ a, s.kernel.on s.kernel.pendingList a + s.kernel.on s.kernel.hitList a +
    s.kernel.on s.kernel.shown a + unread.count a + lost.count a + (reported s.calls).count a =
      if a ∈ w.probed then 1 else 0
  triggered : ∀ a, a ∈ w.triggered ↔ a ∈ w.probed ∧ ∀ e ∈ s.kernel.pendingList,
    (s.kernel.entries e).any (fun entry => entry.addr = a) →
      e ∈ s.worker.items ++ s.kernel.workqueue

section Follows

variable {runFilters : Text → Bool} {daemonize : Bool} {w : Watch} {s : Probing}
  {unread lost : List (BitVec 64)}

theorem follows_start : Follows ⟨∅, ∅, ∅⟩ Probing.start [] [] where
  sound := State.sound_init
  queued := fun _ => le_rfl
  armed := fun e he => by cases he
  asked := fun a => by simp [Probing.start]
  probed := Finset.Subset.refl _
  ofKernel := fun e entry h => by cases h
  deferred := rfl
  text := rfl
  place := fun a => by simp [Probing.start, State.init, State.on, reported]
  triggered := fun a => by simp

/-- Only the module changes, and neither its lists nor its entries do. -/
theorem Follows.frame (h : Follows w s unread lost) {kernel : State} (hsound : kernel.Sound)
    (hentries : kernel.entries = s.kernel.entries)
    (hdeferred : kernel.deferredList = s.kernel.deferredList)
    (hpending : kernel.pendingList = s.kernel.pendingList)
    (hhit : kernel.hitList = s.kernel.hitList) (hshown : kernel.shown = s.kernel.shown)
    (hwork : kernel.workqueue = s.kernel.workqueue) :
    Follows w { s with kernel } unread lost where
  sound := hsound
  queued := fun e => by simpa only [hpending, hwork] using h.queued e
  armed := fun e he => by simpa only [hentries] using h.armed e (hpending ▸ he)
  asked := h.asked
  probed := h.probed
  ofKernel := fun e entry he => h.ofKernel e entry (hentries ▸ he)
  deferred := hdeferred.trans h.deferred
  text := h.text
  place := fun a => by
    have hon : ∀ l, kernel.on l a = s.kernel.on l a := fun l =>
      State.on_congr fun e _ => congrFun hentries e
    simpa only [hon, hpending, hhit, hshown] using h.place a
  triggered := fun a => by simpa only [hentries, hpending, hwork] using h.triggered a

/-- No entry is for a module. -/
theorem Follows.isFor (h : Follows w s unread lost) (name : Text) (e : Nat) :
    s.kernel.isFor name e = false := by
  rw [State.isFor]
  cases hentry : s.kernel.entries e with
  | none => rfl
  | some entry =>
    have hindex : s.kernel.moduleNameToIndex (some name) ≠ 0 := by
      rw [State.moduleNameToIndex]
      split <;> omega
    simp [(h.ofKernel e entry hentry).1, hindex]

/-- Modules that come and go are none of kcov's business. -/
theorem Follows.coming (h : Follows w s unread lost) (name : Text) (core : BitVec 64)
    (registers : Nat → Bool) :
    Follows w { s with kernel := s.kernel.handleComingModule name core registers } unread lost := by
  have henables := State.enables_comingModule h.sound name core registers
  refine h.frame henables.sound ?_ ?_ ?_ ?_ ?_ ?_ <;>
    simp only [State.handleComingModule, h.deferred, List.foldl_nil]

theorem Follows.going (h : Follows w s unread lost) (name : Text) :
    Follows w { s with kernel := s.kernel.handleGoingModule name } unread lost := by
  have hnone : ∀ e, State.isFor { s.kernel with
      modules := Function.update s.kernel.modules name none } name e = false := h.isFor name
  have hgoing : s.kernel.handleGoingModule name = { s.kernel with
      modules := Function.update s.kernel.modules name none } := by
    rw [State.handleGoingModule, State.foldl_goingEntry name h.sound.nodup.2.1,
      List.filter_eq_nil_iff.mpr fun e _ => by rw [hnone]; exact Bool.false_ne_true]
    rfl
  rw [hgoing]
  exact h.frame (fun e => (h.sound e).congr (State.sameAt_modules _)) rfl rfl rfl rfl rfl rfl

/-! ### Asking for a probe -/

theorem Follows.queued_enables (h : Follows w s unread lost) {kernel : State} {l : List Nat}
    (henables : State.Enables s.kernel l kernel) (e : Nat) :
    (s.worker.items ++ kernel.workqueue).count e ≤ kernel.pendingList.count e := by
  rw [henables.workqueue]
  exact (h.queued e).trans (henables.pending e)

theorem reported_snoc (calls : List Reporter.Event) (ev : Reporter.Event) :
    reported (calls ++ [ev]) = reported calls ++ reported [ev] := List.filterMap_append

/-- Nothing is asked of the module. -/
theorem Follows.known (h : Follows w s unread lost) (file : Text) (lineNr : U32)
    (addr : BitVec 64) :
    Follows w { s with calls := s.calls ++ [.line file lineNr addr] } unread lost where
  sound := h.sound
  queued := h.queued
  armed := h.armed
  asked := h.asked
  probed := h.probed
  ofKernel := h.ofKernel
  deferred := h.deferred
  text := h.text
  place := fun a => by simpa [reported] using h.place a
  triggered := h.triggered

/-- A probe of the kernel that is planted waits to trigger. -/
theorem addProbe_planted (s : State) (addr : BitVec 64) :
    s.addProbe none addr true = { s with
      entries := Function.update s.entries s.next (some ⟨0, 0, addr, true⟩)
      next := s.next + 1
      pendingList := s.next :: s.pendingList } := by
  simp [State.addProbe, State.newEntry, State.allocateModuleNameIndex, State.moduleNameToIndex,
    State.enableProbe, State.modifyEntry]

/-- One that is not planted is freed at once. -/
theorem addProbe_refused (s : State) (addr : BitVec 64) :
    s.addProbe none addr false = { s with
      entries := Function.update s.entries s.next none
      next := s.next + 1
      deferredList := s.deferredList.erase s.next
      hitList := s.hitList.erase s.next
      freed := s.freed ++ [s.next] } := by
  simp [State.addProbe, State.newEntry, State.allocateModuleNameIndex, State.moduleNameToIndex,
    State.enableProbe, State.listDel, State.freeEntry]

/-- The entry that is allocated next is on no list. -/
theorem fresh_notMem {s : State} (h : s.Sound) : s.next ∉ s.pendingList ∧ s.next ∉ s.hitList ∧
    s.next ∉ s.shown ∧ s.pendingList.count s.next = 0 := by
  have hzero := (h s.next).fresh le_rfl
  simp only [State.owners, State.links] at hzero
  simp only [← List.count_eq_zero]
  omega

/-- What a new entry leaves alone. -/
theorem on_update_next {s t : State} {new : Option Entry} {l : List Nat} (a : BitVec 64)
    (ht : t.entries = Function.update s.entries s.next new) (hl : s.next ∉ l) :
    t.on l a = s.on l a := by
  refine State.on_congr fun e he => ?_
  rw [ht]
  exact Function.update_of_ne (fun heq => hl (by rwa [heq] at he)) _ _

theorem Follows.ofKernel_update (h : Follows w s unread lost) {x : Nat} {new : Option Entry}
    (hnew : ∀ entry, new = some entry → entry.nameIndex = 0 ∧ entry.baseAddr = 0) (e : Nat)
    (entry : Entry) (he : Function.update s.kernel.entries x new e = some entry) :
    entry.nameIndex = 0 ∧ entry.baseAddr = 0 := by
  by_cases hx : e = x
  · rw [hx, Function.update_self] at he
    exact hnew entry he
  · rw [Function.update_of_ne hx] at he
    exact h.ofKernel e entry he

theorem Follows.mem_asked (h : Follows w s unread lost) (addr a : BitVec 64) :
    a ∈ s.addresses ++ [addr] ↔ a ∈ insert addr w.asked := by
  rw [List.mem_append, List.mem_singleton, h.asked, Finset.mem_insert, or_comm]

theorem Follows.planted (h : Follows w s unread lost) {addr : BitVec 64} (haddr : addr ∉ w.asked)
    (file : Text) (lineNr : U32) :
    Follows { w with asked := insert addr w.asked, probed := insert addr w.probed }
      { s with
        addresses := s.addresses ++ [addr]
        kernel := s.kernel.addProbe none addr true
        calls := s.calls ++ [.line file lineNr addr] } unread lost := by
  have henables := State.enables_addProbe h.sound none addr true
  have hentries : (s.kernel.addProbe none addr true).entries =
      Function.update s.kernel.entries s.kernel.next (some ⟨0, 0, addr, true⟩) := by
    rw [addProbe_planted]
  have hlists : (s.kernel.addProbe none addr true).pendingList =
        s.kernel.next :: s.kernel.pendingList ∧
      (s.kernel.addProbe none addr true).hitList = s.kernel.hitList ∧
      (s.kernel.addProbe none addr true).shown = s.kernel.shown := by
    rw [addProbe_planted]
    exact ⟨rfl, rfl, rfl⟩
  obtain ⟨hpending, hhit, hshown, hcount⟩ := fresh_notMem h.sound
  have hunprobed : addr ∉ w.probed := fun hmem => haddr (h.probed hmem)
  refine ⟨henables.sound, h.queued_enables henables, ?_, h.mem_asked addr,
    Finset.insert_subset_insert addr h.probed, ?_, ?_, h.text, fun a => ?_, fun a => ?_⟩
  · -- The new probe is registered, and no work is running for it.
    dsimp only
    rw [hentries, hlists.1, List.forall_mem_cons, Function.update_self, Option.any_some]
    refine ⟨iff_of_true rfl fun heq => ?_, fun e he => ?_⟩
    · have hle := h.queued s.kernel.next
      rw [heq, Worker.items, hcount, List.count_append, List.count_singleton_self] at hle
      omega
    · rw [Function.update_of_ne fun heq => hpending (by rwa [heq] at he)]
      exact h.armed e he
  · dsimp only
    rw [hentries]
    exact h.ofKernel_update fun entry he => by
      cases he
      exact ⟨rfl, rfl⟩
  · dsimp only
    rw [addProbe_planted]
    exact h.deferred
  · have hplace := h.place a
    have hnew : (s.kernel.addProbe none addr true).on [s.kernel.next] a = if addr = a then 1 else 0 :=
      State.on_singleton (hentries ▸ Function.update_self _ _ _)
    have hreported : reported (s.calls ++ [.line file lineNr addr]) = reported s.calls := by
      simp [reported]
    dsimp only
    rw [hlists.1, hlists.2.1, hlists.2.2, hreported, State.on_cons, hnew,
      on_update_next a hentries hpending, on_update_next a hentries hhit,
      on_update_next a hentries hshown]
    by_cases ha : addr = a
    · subst ha
      simp only [hunprobed, Finset.mem_insert, true_or, if_true, if_false] at hplace ⊢
      omega
    · simp only [ha, Ne.symm ha, Finset.mem_insert, false_or, if_false] at hplace ⊢
      omega
  · -- No work is queued for the new entry.
    have hwork : s.kernel.next ∉ s.worker.items ++ s.kernel.workqueue := by
      have hle := h.queued s.kernel.next
      rw [hcount] at hle
      exact List.count_eq_zero.mp (Nat.le_zero.mp hle)
    have hrest : ∀ e ∈ s.kernel.pendingList,
        Function.update s.kernel.entries s.kernel.next (some ⟨0, 0, addr, true⟩) e =
          s.kernel.entries e := by
      intro e he
      exact Function.update_of_ne (fun heq => hpending (by rwa [heq] at he)) _ _
    dsimp only
    rw [hentries, hlists.1, henables.workqueue, List.forall_mem_cons, Function.update_self,
      Option.any_some, h.triggered, Finset.mem_insert]
    simp only [decide_eq_true_eq, hwork, imp_false]
    constructor
    · rintro ⟨hmem, hall⟩
      refine ⟨Or.inr hmem, fun heq => hunprobed (heq ▸ hmem), fun e he hany => ?_⟩
      rw [hrest e he] at hany
      exact hall e he hany
    · rintro ⟨hmem | hmem, hne, hall⟩
      · exact absurd hmem.symm hne
      · exact ⟨hmem, fun e he hany => hall e he (by rwa [hrest e he])⟩

theorem Follows.refused (h : Follows w s unread lost) (addr : BitVec 64) (file : Text)
    (lineNr : U32) :
    Follows { w with asked := insert addr w.asked }
      { s with
        addresses := s.addresses ++ [addr]
        kernel := s.kernel.addProbe none addr false
        calls := s.calls ++ [.line file lineNr addr] } unread lost := by
  have henables := State.enables_addProbe h.sound none addr false
  obtain ⟨hpending, hhit, hshown, -⟩ := fresh_notMem h.sound
  have hentries : (s.kernel.addProbe none addr false).entries =
      Function.update s.kernel.entries s.kernel.next none := by
    rw [addProbe_refused]
  have hlists : (s.kernel.addProbe none addr false).pendingList = s.kernel.pendingList ∧
      (s.kernel.addProbe none addr false).hitList = s.kernel.hitList ∧
      (s.kernel.addProbe none addr false).shown = s.kernel.shown := by
    rw [addProbe_refused]
    exact ⟨rfl, List.erase_of_not_mem hhit, rfl⟩
  refine ⟨henables.sound, h.queued_enables henables, fun e he => ?_, h.mem_asked addr,
    h.probed.trans (Finset.subset_insert _ _), ?_, ?_, h.text, fun a => ?_, fun a => ?_⟩
  · dsimp only at he ⊢
    rw [hlists.1] at he
    rw [hentries, Function.update_of_ne fun heq => hpending (by rwa [heq] at he)]
    exact h.armed e he
  · dsimp only
    rw [hentries]
    exact h.ofKernel_update fun entry he => by cases he
  · dsimp only
    rw [addProbe_refused, h.deferred]
    rfl
  · have hreported : reported (s.calls ++ [.line file lineNr addr]) = reported s.calls := by
      simp [reported]
    dsimp only
    rw [hlists.1, hlists.2.1, hlists.2.2, hreported, on_update_next a hentries hpending,
      on_update_next a hentries hhit, on_update_next a hentries hshown]
    exact h.place a
  · dsimp only
    rw [hentries, hlists.1, henables.workqueue, h.triggered]
    refine and_congr_right fun _ => forall₂_congr fun e he => ?_
    rw [Function.update_of_ne fun heq => hpending (by rwa [heq] at he)]

/-- What asking for a probe does to the module and to what is meant to happen. -/
theorem Follows.line (h : Follows w s unread lost) (file : Text) (lineNr : U32)
    (addr : BitVec 64) (registers : Bool) :
    Follows (w.step runFilters (.line file lineNr addr registers))
      (s.onLine runFilters file lineNr addr registers) unread lost := by
  have hempty : controlWrite (fun _ => registers) s.kernel [] = s.kernel := rfl
  rw [Watch.step, Probing.onLine]
  cases hfilter : runFilters file with
  | false => simpa [hempty] using h.known file lineNr addr
  | true =>
    by_cases haddr : addr ∈ w.asked
    · have hmem := (h.asked addr).mpr haddr
      have hold : registerBreakpoint s.addresses addr = (s.addresses, []) := by
        rw [registerBreakpoint, if_pos (by simpa using hmem)]
      simpa [hold, hempty, haddr] using h.known file lineNr addr
    · have hmem : addr ∉ s.addresses := fun hmem => haddr ((h.asked addr).mp hmem)
      have hnew : (registerBreakpoint s.addresses addr).1 = s.addresses ++ [addr] := by
        rw [registerBreakpoint, if_neg (by simpa using hmem)]
      have hwrite := controlWrite_registerBreakpoint hmem (fun _ => registers) s.kernel
      simp only [haddr, not_false_eq_true, and_self, if_true, hnew, hwrite]
      cases registers with
      | true => exact h.planted haddr file lineNr
      | false => exact h.refused addr file lineNr

/-! ### Triggering -/

/-- Handlers only queue work. -/
theorem foldl_preHandler (s : State) (l : List Nat) :
    ∃ added, l.foldl State.preHandler s = { s with workqueue := s.workqueue ++ added } ∧
      added.Nodup ∧ ∀ e, e ∈ added ↔
        e ∈ l ∧ (s.entries e).any Entry.registered = true ∧ e ∉ s.workqueue := by
  induction l using List.reverseRecOn with
  | nil => exact ⟨[], by rw [List.append_nil]; rfl, List.nodup_nil, fun e => by simp⟩
  | append_singleton l x ih =>
    obtain ⟨added, hfold, hnodup, hmem⟩ := ih
    rw [List.foldl_append, hfold, List.foldl_cons, List.foldl_nil, State.preHandler]
    split
    next hfire =>
      obtain ⟨hreg, hnot⟩ := hfire
      rw [List.mem_append, not_or] at hnot
      refine ⟨added ++ [x], by rw [List.append_assoc], ?_, fun e => ?_⟩
      · exact List.nodup_append.mpr ⟨hnodup, List.nodup_singleton x, fun a ha b hb => by
          rintro rfl
          exact hnot.2 (List.mem_singleton.mp hb ▸ ha)⟩
      · rw [List.mem_append, List.mem_singleton, hmem, List.mem_append, List.mem_singleton]
        constructor
        · rintro (⟨he, hrest⟩ | rfl)
          · exact ⟨Or.inl he, hrest⟩
          · exact ⟨Or.inr rfl, hreg, hnot.1⟩
        · rintro ⟨he | rfl, hrest⟩
          · exact Or.inl ⟨he, hrest⟩
          · exact Or.inr rfl
    next hfire =>
      refine ⟨added, rfl, hnodup, fun e => ?_⟩
      rw [hmem, List.mem_append, List.mem_singleton]
      refine ⟨fun h => ⟨Or.inl h.1, h.2⟩, ?_⟩
      rintro ⟨he | rfl, hreg, hnot⟩
      · exact ⟨he, hreg, hnot⟩
      · by_contra hnew
        refine hfire ⟨hreg, ?_⟩
        rw [List.mem_append, not_or, hmem]
        exact ⟨hnot, hnew⟩

/-- An entry that is on a list has been allocated. -/
theorem lt_next_of_pending {s : State} (h : s.Sound) {e : Nat} (he : e ∈ s.pendingList) :
    e < s.next := by
  have hpos := List.count_pos_iff.mpr he
  by_contra hge
  have hzero := (h e).fresh (Nat.le_of_not_lt hge)
  simp only [State.owners, State.links] at hzero
  omega

/-- No work is running or queued for the probes that trigger, where none of them is about to be
unregistered. -/
theorem Follows.notMem_items (h : Follows w s unread lost) {addr : BitVec 64}
    (hspares : s.SparesTaken (.execute addr)) {e : Nat}
    (hreg : (s.kernel.entries e).any Entry.registered = true)
    (haddr : (s.kernel.entries e).any (fun entry => entry.addr = addr) = true) :
    e ∉ s.worker.items := by
  intro hmem
  cases hworker : s.worker with
  | idle =>
    rw [hworker] at hmem
    cases hmem
  | taken x =>
    rw [hworker] at hmem
    obtain rfl := List.mem_singleton.mp hmem
    rw [hspares e hworker] at haddr
    cases haddr
  | unregistered x =>
    rw [hworker] at hmem
    obtain rfl := List.mem_singleton.mp hmem
    exact (h.armed e (List.count_pos_iff.mp ((h.sound e).registered hreg))).mp hreg hworker

theorem Follows.execute (h : Follows w s unread lost) {addr : BitVec 64}
    (hspares : s.SparesTaken (.execute addr)) :
    Follows (w.step runFilters (.execute addr)) { s with kernel := s.kernel.execute addr } unread
      lost := by
  obtain ⟨added, hfold, hnodup, hmem⟩ := foldl_preHandler s.kernel
    ((List.range s.kernel.next).filter fun e => (s.kernel.entries e).any fun entry =>
      entry.registered && entry.addr = addr)
  have hat : ∀ e ∈ added, (s.kernel.entries e).any (fun entry => entry.addr = addr) = true := by
    intro e he
    have hfilter := (List.mem_filter.mp ((hmem e).mp he).1).2
    cases hentry : s.kernel.entries e with
    | none => rw [hentry] at hfilter; cases hfilter
    | some entry =>
      rw [hentry, Option.any_some, Bool.and_eq_true] at hfilter
      exact hfilter.2
  have hprobed : (w.step runFilters (.execute addr)).probed = w.probed ∧
      (w.step runFilters (.execute addr)).asked = w.asked ∧
      ∀ a, a ∈ (w.step runFilters (.execute addr)).triggered ↔
        a ∈ w.triggered ∨ (a = addr ∧ addr ∈ w.probed) := by
    rw [Watch.step]
    split
    next hp => exact ⟨rfl, rfl, fun a => by simp [hp, or_comm]⟩
    next hp => exact ⟨rfl, rfl, fun a => by simp [hp]⟩
  rw [State.execute, hfold]
  refine ⟨fun e => (h.sound e).congr ⟨rfl, rfl, rfl, rfl, rfl, rfl, Iff.rfl⟩, fun e => ?_, h.armed,
    fun a => hprobed.2.1 ▸ h.asked a, hprobed.1 ▸ hprobed.2.1 ▸ h.probed, h.ofKernel, h.deferred,
    h.text, fun a => ?_, fun a => ?_⟩
  · have hle := h.queued e
    dsimp only
    rw [← List.append_assoc, List.count_append]
    by_cases he : e ∈ added
    · obtain ⟨-, hreg, hwork⟩ := (hmem e).mp he
      have hitems := h.notMem_items hspares hreg (hat e he)
      have hpos := (h.sound e).registered hreg
      have hone := List.nodup_iff_count_le_one.mp hnodup e
      rw [List.count_eq_zero_of_not_mem (by rw [List.mem_append, not_or]; exact ⟨hitems, hwork⟩)]
      omega
    · rw [List.count_eq_zero_of_not_mem he]
      exact hle
  · rw [hprobed.1]
    exact h.place a
  · rw [hprobed.2.2, hprobed.1]
    dsimp only
    by_cases ha : a = addr
    · subst ha
      constructor
      · intro hold
        refine ⟨hold.elim (fun hmem => ((h.triggered a).mp hmem).1) (·.2), fun e he hany => ?_⟩
        rw [← List.append_assoc, List.mem_append]
        by_cases hreg : (s.kernel.entries e).any Entry.registered = true
        · by_cases hwork : e ∈ s.kernel.workqueue
          · exact Or.inl (List.mem_append_right _ hwork)
          · refine Or.inr ((hmem e).mpr ⟨List.mem_filter.mpr
              ⟨List.mem_range.mpr (lt_next_of_pending h.sound he), ?_⟩, hreg, hwork⟩)
            cases hentry : s.kernel.entries e with
            | none => rw [hentry] at hreg; cases hreg
            | some entry =>
              rw [hentry, Option.any_some] at hreg
              simp only [hentry, Option.any_some] at hany
              rw [Option.any_some, hreg, hany]
              rfl
        · -- its work is running already
          have hworker := not_not.mp fun hne => hreg ((h.armed e he).mpr hne)
          rw [hworker]
          exact Or.inl List.mem_cons_self
      · exact fun hmem => Or.inr ⟨rfl, hmem.1⟩
    · rw [h.triggered]
      simp only [ha, false_and, or_false]
      refine and_congr_right fun _ => forall₂_congr fun e he => imp_congr_right fun hany => ?_
      rw [← List.append_assoc, @List.mem_append _ e (s.worker.items ++ s.kernel.workqueue)]
      refine (or_iff_left_of_imp fun hnew => ?_).symm
      have haddr := hat e hnew
      cases hentry : s.kernel.entries e with
      | none => rw [hentry] at haddr; cases haddr
      | some entry =>
        rw [hentry, Option.any_some, decide_eq_true_eq] at hany haddr
        exact absurd (hany.symm.trans haddr) ha

/-! ### Working -/

/-- The entry whose work is running is pending. -/
theorem Follows.pending_of_items (h : Follows w s unread lost) {e : Nat}
    (he : e ∈ s.worker.items) : e ∈ s.kernel.pendingList := by
  have hle := h.queued e
  rw [List.count_append] at hle
  have hpos := List.count_pos_iff.mpr he
  exact List.count_pos_iff.mp (by omega)

/-- Taking work off the queue. -/
theorem Follows.taken (h : Follows w s unread lost) {e : Nat} {workqueue : List Nat}
    (hworker : s.worker = .idle) (hqueue : s.kernel.workqueue = e :: workqueue) :
    Follows w { s with kernel := { s.kernel with workqueue }, worker := .taken e } unread lost := by
  have hitems : s.worker.items ++ s.kernel.workqueue =
      (Worker.taken e).items ++ workqueue := by rw [hworker, hqueue]; rfl
  refine ⟨fun x => (h.sound x).congr ⟨rfl, rfl, rfl, rfl, rfl, rfl, Iff.rfl⟩, hitems ▸ h.queued,
    fun x hx => (h.armed x hx).trans (iff_of_true ?_ ?_), h.asked, h.probed, h.ofKernel, h.deferred,
    h.text, h.place, fun a => ?_⟩
  · rw [hworker]
    exact Worker.noConfusion
  · exact Worker.noConfusion
  · rw [h.triggered, hitems]

/-- Unregistering a probe. -/
theorem Follows.unregister (h : Follows w s unread lost) {e : Nat} (hworker : s.worker = .taken e) :
    s.kernel.workUnregister e = some (s.kernel.unregisterKprobe e) ∧
      Follows w { s with kernel := s.kernel.unregisterKprobe e, worker := .unregistered e } unread
        lost := by
  have hpending := h.pending_of_items (e := e) (by rw [hworker]; exact List.mem_singleton.mpr rfl)
  have hcount := List.count_pos_iff.mpr hpending
  obtain ⟨entry, hentry⟩ := Option.isSome_iff_exists.mp
    ((h.sound e).alive.mpr (by rw [State.links]; omega))
  have hself : (s.kernel.unregisterKprobe e).entries e = some { entry with registered := false } := by
    rw [State.entries_unregisterKprobe_self, hentry, Option.map_some]
  have hother : ∀ x, x ≠ e → (s.kernel.unregisterKprobe e).entries x = s.kernel.entries x :=
    fun x hx => State.entries_unregisterKprobe_of_ne hx
  have hany : ∀ a x, ((s.kernel.unregisterKprobe e).entries x).any (fun en => en.addr = a) =
      (s.kernel.entries x).any fun en => en.addr = a := by
    intro a x
    by_cases hx : x = e
    · rw [hx, hself, hentry]
      rfl
    · rw [hother x hx]
  have hitems : s.worker.items = (Worker.unregistered e).items := by rw [hworker]; rfl
  refine ⟨by rw [State.workUnregister, hentry]; rfl, State.sound_unregisterKprobe h.sound e,
    hitems ▸ h.queued, fun x hx => ?_, h.asked, h.probed, fun x en hx => ?_, h.deferred, h.text,
    fun a => ?_, fun a => ?_⟩
  · dsimp only
    by_cases hxe : x = e
    · rw [hxe, hself]
      exact iff_of_false Bool.false_ne_true fun hne => hne rfl
    · rw [hother x hxe, h.armed x hx, hworker]
      exact iff_of_true Worker.noConfusion fun heq => hxe (Worker.unregistered.inj heq).symm
  · dsimp only at hx
    by_cases hxe : x = e
    · rw [hxe, hself, Option.some.injEq] at hx
      exact hx ▸ h.ofKernel e entry hentry
    · rw [hother x hxe] at hx
      exact h.ofKernel x en hx
  · have hon : ∀ l, (s.kernel.unregisterKprobe e).on l a = s.kernel.on l a := fun l =>
      List.countP_congr fun x _ => by rw [hany]
    dsimp only
    rw [hon, hon, hon]
    exact h.place a
  · dsimp only
    simp only [h.triggered, hany, hitems]
    exact Iff.rfl

/-- Moving an entry to the list of those that triggered. -/
theorem Follows.move (h : Follows w s unread lost) {e : Nat}
    (hworker : s.worker = .unregistered e) :
    ∃ kernel, s.kernel.workMove e = some kernel ∧
      Follows w { s with kernel, worker := .idle } unread lost := by
  have hpending := h.pending_of_items (e := e) (by rw [hworker]; exact List.mem_singleton.mpr rfl)
  have hreg : (s.kernel.entries e).any Entry.registered = false := by
    rw [← Bool.not_eq_true, h.armed e hpending, hworker]
    exact fun hne => hne rfl
  obtain ⟨hmove, hsound⟩ := State.sound_workMove h.sound hpending hreg
  have hcount := List.count_pos_iff.mpr hpending
  have honce := (h.sound e).once
  simp only [State.owners, State.links] at honce
  have hhit : (s.kernel.listDel e).hitList = s.kernel.hitList :=
    List.erase_of_not_mem (List.count_eq_zero.mp (by omega))
  have hnodup := h.sound.nodup.2.1
  have hitems : ∀ x, (s.worker.items ++ s.kernel.workqueue).count x =
      (if x = e then 1 else 0) + s.kernel.workqueue.count x := by
    intro x
    rw [hworker, Worker.items, List.count_append, List.count_singleton]
    simp only [beq_iff_eq, @eq_comm _ e x]
  refine ⟨_, hmove, hsound, fun x => ?_, fun x hx => ?_, h.asked, h.probed, h.ofKernel,
    congrArg (List.erase · e) h.deferred, h.text, fun a => ?_, fun a => ?_⟩
  · have hle := h.queued x
    rw [hitems] at hle
    show s.kernel.workqueue.count x ≤ (s.kernel.pendingList.erase e).count x
    by_cases hxe : x = e
    · subst hxe
      rw [List.count_erase_self]
      simp only [if_true] at hle
      omega
    · rw [List.count_erase_of_ne hxe]
      simpa [hxe] using hle
  · obtain ⟨hne, hmem⟩ := hnodup.mem_erase_iff.mp hx
    refine (h.armed x hmem).trans (iff_of_true ?_ Worker.noConfusion)
    rw [hworker]
    exact fun heq => hne (Worker.unregistered.inj heq).symm
  · have hplace := h.place a
    have herase := @State.on_erase s.kernel s.kernel.pendingList a e hpending
    show s.kernel.on (s.kernel.pendingList.erase e) a +
      s.kernel.on ((s.kernel.listDel e).hitList ++ [e]) a + s.kernel.on s.kernel.shown a +
        unread.count a + lost.count a + (reported s.calls).count a = _
    rw [hhit, State.on_snoc]
    omega
  · rw [h.triggered]
    refine and_congr_right fun _ => ?_
    rw [hworker]
    show (∀ x ∈ s.kernel.pendingList, _ → x ∈ e :: s.kernel.workqueue) ↔
      ∀ x ∈ s.kernel.pendingList.erase e, _ → x ∈ s.kernel.workqueue
    constructor
    · intro hall x hx hat
      obtain ⟨hne, hmem⟩ := hnodup.mem_erase_iff.mp hx
      exact (List.mem_cons.mp (hall x hmem hat)).resolve_left hne
    · intro hall x hx hat
      by_cases hxe : x = e
      · exact hxe ▸ List.mem_cons_self
      · exact List.mem_cons_of_mem _ (hall x (hnodup.mem_erase_iff.mpr ⟨hxe, hx⟩) hat)

/-- A step of the work moves an entry to the list of those that triggered, or brings this nearer. -/
theorem Follows.work (h : Follows w s unread lost) :
    ∃ t, s.onWork = some t ∧ Follows w t unread lost ∧ t.calls = s.calls := by
  rw [Probing.onWork]
  cases hworker : s.worker with
  | idle =>
    cases hqueue : s.kernel.workqueue with
    | nil => exact ⟨s, rfl, h, rfl⟩
    | cons e workqueue => exact ⟨_, rfl, h.taken hworker hqueue, rfl⟩
  | taken e =>
    obtain ⟨hstep, hfollows⟩ := h.unregister hworker
    exact ⟨_, congrArg (Option.map _) hstep, hfollows, rfl⟩
  | unregistered e =>
    obtain ⟨kernel, hstep, hfollows⟩ := h.move hworker
    exact ⟨_, congrArg (Option.map _) hstep, hfollows, rfl⟩

/-! ### Reading -/

theorem Follows.kernelQueued (h : Follows w s unread lost) : s.kernel.Queued := by
  intro e
  have hle := h.queued e
  rw [List.count_append] at hle
  omega

theorem Follows.unlinkNext (h : Follows w s unread lost) :
    Follows w { s with kernel := s.kernel.unlinkNext } unread lost := by
  obtain ⟨hsound, -⟩ := State.sound_unlinkNext h.sound h.kernelQueued
  rw [State.unlinkNext] at hsound ⊢
  cases hhit : s.kernel.hitList with
  | nil => exact h
  | cons e hitList =>
    rw [hhit] at hsound
    refine ⟨hsound, h.queued, h.armed, h.asked, h.probed, h.ofKernel, h.deferred, h.text,
      fun a => ?_, h.triggered⟩
    have hplace := h.place a
    rw [hhit, State.on_cons] at hplace
    show s.kernel.on s.kernel.pendingList a + s.kernel.on hitList a +
      s.kernel.on (s.kernel.shown ++ [e]) a + unread.count a + lost.count a +
        (reported s.calls).count a = _
    rw [State.on_snoc]
    omega

/-- Showing an entry puts its address into the text, or loses it. -/
theorem Follows.onShow (h : Follows w s unread lost) (e : Nat) (fits : Bool) :
    ∃ t unread' lost', s.onShow e fits = some t ∧ Follows w t unread' lost' ∧
      t.calls = s.calls ∧ (fits = true → lost' = lost) := by
  obtain ⟨kernel, hshow, hsound, -⟩ := State.sound_seqShow h.sound h.kernelQueued e
  by_cases he : e ∈ s.kernel.shown
  · have hcount := List.count_pos_iff.mpr he
    have honce := (h.sound e).once
    simp only [State.owners] at honce
    obtain ⟨entry, hentry⟩ := Option.isSome_iff_exists.mp ((h.sound e).alive.mpr (by omega))
    have hlinks : s.kernel.links e = 0 := by omega
    rw [State.links] at hlinks
    obtain ⟨hindex, hbase⟩ := h.ofKernel e entry hentry
    have hname : s.kernel.moduleName 0 = some none := rfl
    have haddr : entry.addr - entry.baseAddr = entry.addr := by
      rw [hbase]
      simp
    rw [State.seqShow, if_neg (not_not_intro he), hentry] at hshow
    simp only [hindex, hname, haddr, Option.some.injEq] at hshow
    have hprinted : kernel.printed.drop s.kernel.printed.length = [(some none, entry.addr)] := by
      rw [← hshow]
      exact List.drop_left
    have hon : ∀ l a, e ∉ l → kernel.on l a = s.kernel.on l a := by
      intro l a hl
      refine State.on_congr fun x hx => ?_
      rw [← hshow]
      exact Function.update_of_ne (fun heq => hl (by rwa [heq] at hx)) _ _
    have hpending : e ∉ s.kernel.pendingList := List.count_eq_zero.mp (by omega)
    have hhit : e ∉ s.kernel.hitList := List.count_eq_zero.mp (by omega)
    have herased : e ∉ s.kernel.shown.erase e :=
      List.count_eq_zero.mp (by rw [List.count_erase_self]; omega)
    have hlists : kernel.pendingList = s.kernel.pendingList ∧
        kernel.hitList = s.kernel.hitList ∧ kernel.shown = s.kernel.shown.erase e ∧
        kernel.workqueue = s.kernel.workqueue ∧
        kernel.deferredList = s.kernel.deferredList := by
      rw [← hshow]
      exact ⟨rfl, rfl, rfl, rfl, rfl⟩
    have hentries : kernel.entries = Function.update s.kernel.entries e none := by rw [← hshow]; rfl
    have hline : [((some none : Option (Option Text)), entry.addr)].mapM showLine =
        some [kernelLine entry.addr] := rfl
    have hstep : s.onShow e fits = some { s with
        kernel
        unread := if fits then s.unread ++ kernelLine entry.addr else s.unread } := by
      rw [Probing.onShow, State.seqShow, if_neg (not_not_intro he), hentry]
      simp only [hindex, hname, haddr, hshow]
      show (Option.bind _ _) = _
      simp [hprinted, hline]
    refine ⟨_, if fits then unread ++ [entry.addr] else unread,
      if fits then lost else lost ++ [entry.addr], hstep, ?_, rfl, fun hfits => if_pos hfits⟩
    refine ⟨hsound, fun x => ?_, fun x hx => ?_, h.asked, h.probed, fun x en hx => ?_,
      hlists.2.2.2.2.trans h.deferred, ?_, fun a => ?_, fun a => ?_⟩
    · simpa only [hlists.1, hlists.2.2.2.1] using h.queued x
    · dsimp only at hx ⊢
      rw [hlists.1] at hx
      rw [hentries, Function.update_of_ne fun heq => hpending (by rwa [heq] at hx)]
      exact h.armed x hx
    · dsimp only at hx
      rw [hentries] at hx
      exact h.ofKernel_update (fun entry hnone => by cases hnone) x en hx
    · cases fits with
      | true => simp [h.text]
      | false => exact h.text
    · have hplace := h.place a
      have herase := @State.on_erase s.kernel s.kernel.shown a e he
      have hsum : (if fits then unread ++ [entry.addr] else unread).count a +
          (if fits then lost else lost ++ [entry.addr]).count a =
            unread.count a + lost.count a + s.kernel.on [e] a := by
        rw [State.on_singleton hentry]
        cases fits with
        | true =>
          simp only [if_true, List.count_append, List.count_singleton, beq_iff_eq]
          omega
        | false =>
          simp only [Bool.false_eq_true, if_false, List.count_append, List.count_singleton,
            beq_iff_eq]
          omega
      dsimp only
      rw [hlists.1, hlists.2.1, hlists.2.2.1, hon _ a hpending, hon _ a hhit, hon _ a herased]
      omega
    · dsimp only
      rw [h.triggered, hlists.1, hlists.2.2.2.1, hentries]
      refine and_congr_right fun _ => forall₂_congr fun x hx => ?_
      rw [Function.update_of_ne fun heq => hpending (by rwa [heq] at hx)]
  · refine ⟨s, unread, lost, ?_, h, rfl, fun _ => rfl⟩
    have hshow' : s.kernel.seqShow e = some s.kernel := if_pos he
    rw [Probing.onShow, hshow']
    cases fits <;> simp

/-- Reading a line reports its address. -/
theorem Follows.onRead (h : Follows w s unread lost) :
    ∃ t unread', s.onRead daemonize = some t ∧ Follows w t unread' lost ∧
      (t.calls = s.calls ∨ ∃ a, t.calls = s.calls ++ [.hit a 1]) := by
  cases unread with
  | nil =>
    have hnone : continueExecution s.unread = some (none, s.unread) := by
      rw [h.text]
      rfl
    refine ⟨s, [], ?_, h, Or.inl rfl⟩
    rw [Probing.onRead, hnone]
    rfl
  | cons a unread =>
    have hread : continueExecution s.unread =
        some (some ⟨.breakpoint, 0, a⟩, unread.flatMap kernelLine) := by
      rw [h.text, List.flatMap_cons]
      exact continueExecution_showLine rfl _
    refine ⟨{ s with
      unread := unread.flatMap kernelLine
      calls := s.calls ++ [.hit a 1] }, unread, ?_, ?_, Or.inr ⟨a, rfl⟩⟩
    · rw [Probing.onRead, hread]
      rfl
    · refine ⟨h.sound, h.queued, h.armed, h.asked, h.probed, h.ofKernel, h.deferred, rfl,
        fun b => ?_, h.triggered⟩
      have hplace := h.place b
      have hnew : reported [.hit a 1] = [a] := rfl
      dsimp only
      rw [List.count_cons] at hplace
      rw [reported_snoc, hnew, List.count_append, List.count_singleton]
      omega

/-- The calls of the reporter that a happening makes. -/
def Adds (calls calls' : List Reporter.Event) : Happening → Prop
  | .line file lineNr addr _ => calls' = calls ++ [.line file lineNr addr]
  | .read => calls' = calls ∨ ∃ a, calls' = calls ++ [.hit a 1]
  | _ => calls' = calls

theorem follows_step (h : Follows w s unread lost) {x : Happening} (hspares : s.SparesTaken x) :
    ∃ t unread' lost', s.step runFilters daemonize x = some t ∧
      Follows (w.step runFilters x) t unread' lost' ∧ (x.fits = true → lost' = lost) ∧
      Adds s.calls t.calls x := by
  cases x with
  | line file lineNr addr registers =>
    exact ⟨_, unread, lost, rfl, h.line file lineNr addr registers, fun _ => rfl, rfl⟩
  | execute addr => exact ⟨_, unread, lost, rfl, h.execute hspares, fun _ => rfl, rfl⟩
  | work =>
    obtain ⟨t, hstep, hfollows, hcalls⟩ := h.work
    exact ⟨t, unread, lost, hstep, hfollows, fun _ => rfl, hcalls⟩
  | coming name core registers =>
    exact ⟨_, unread, lost, rfl, h.coming name core registers, fun _ => rfl, rfl⟩
  | going name => exact ⟨_, unread, lost, rfl, h.going name, fun _ => rfl, rfl⟩
  | unlinkNext => exact ⟨_, unread, lost, rfl, h.unlinkNext, fun _ => rfl, rfl⟩
  | seqShow e fits =>
    obtain ⟨t, unread', lost', hstep, hfollows, hcalls, hlost⟩ := h.onShow e fits
    exact ⟨t, unread', lost', hstep, hfollows, hlost, hcalls⟩
  | read =>
    obtain ⟨t, unread', hstep, hfollows, hcalls⟩ := @Follows.onRead daemonize _ _ _ _ h
    exact ⟨t, unread', lost, hstep, hfollows, fun _ => rfl, hcalls⟩

end Follows

/-! ### Runs -/

/-- What the reporter was told, if kcov reads after the lines have been found. -/
structure Told (cfg : ReporterSetup) (hs : List Happening) (calls : List Reporter.Event) : Prop where
  lines : calls.filter Reporter.isLine = linesOf hs
  noFile : Reporter.Event.file ∉ calls
  unread : hs.any Happening.isRead = false → reported calls = []
  hits : ∀ ref a, a ∈ Reporter.hitAddressesOf cfg ref calls ↔
    a ∈ Reporter.addressesOf cfg ref calls ∧ a ∈ reported calls

section Runs

variable {cfg : ReporterSetup} {hs : List Happening} {calls calls' : List Reporter.Event}

theorem linesOf_snoc (hs : List Happening) (x : Happening) :
    linesOf (hs ++ [x]) = linesOf hs ++ linesOf [x] := List.filterMap_append

theorem told_start (cfg : ReporterSetup) : Told cfg [] [] :=
  ⟨rfl, List.not_mem_nil, fun _ => rfl, fun ref a => by
    simp [Reporter.hitAddressesOf, reported]⟩

/-- A happening of which the reporter is not told. -/
theorem Told.quiet (h : Told cfg hs calls) {x : Happening} (hline : linesOf [x] = []) :
    Told cfg (hs ++ [x]) calls where
  lines := by rw [linesOf_snoc, hline, List.append_nil, h.lines]
  noFile := h.noFile
  unread := fun hread => h.unread (by
    rw [List.any_append, Bool.or_eq_false_iff] at hread
    exact hread.1)
  hits := h.hits

theorem Told.line (h : Told cfg hs calls) {file : Text} {lineNr : U32} {addr : BitVec 64}
    {registers : Bool} (hfirst : hs.any Happening.isRead = false) :
    Told cfg (hs ++ [.line file lineNr addr registers]) (calls ++ [.line file lineNr addr]) := by
  have hnone := h.unread hfirst
  have hreported : reported (calls ++ [.line file lineNr addr]) = [] := by
    rw [reported_snoc, hnone]
    rfl
  refine ⟨?_, ?_, fun _ => hreported, fun ref a => ?_⟩
  · rw [linesOf_snoc, ← h.lines]
    exact List.filter_append _ _
  · simpa using h.noFile
  · rw [Reporter.hitAddressesOf_snoc (by simp), h.hits, hnone, hreported]
    simp

theorem Told.hit (h : Told cfg hs calls) (a : BitVec 64) :
    Told cfg (hs ++ [.read]) (calls ++ [.hit a 1]) := by
  refine ⟨?_, ?_, fun hread => by simp [Happening.isRead] at hread, fun ref b => ?_⟩
  · rw [linesOf_snoc, ← h.lines]
    exact List.filter_append _ _
  · simpa using h.noFile
  · have hnew : reported [.hit a 1] = [a] := rfl
    have haddresses : Reporter.addressesOf cfg ref (calls ++ [.hit a 1]) =
        Reporter.addressesOf cfg ref calls := by
      rw [Reporter.addressesOf_snoc]
      rfl
    rw [Reporter.mem_hitAddressesOf_hit, h.hits, haddresses, reported_snoc, hnew, List.mem_append,
      List.mem_singleton]
    constructor
    · rintro (⟨hmem, hold⟩ | ⟨rfl, hmem⟩)
      · exact ⟨hmem, Or.inl hold⟩
      · exact ⟨hmem, Or.inr rfl⟩
    · rintro ⟨hmem, hold | rfl⟩
      · exact Or.inl ⟨hmem, hold⟩
      · exact Or.inr ⟨rfl, hmem⟩

theorem Told.step (h : Told cfg hs calls) {x : Happening} (hadds : Adds calls calls' x)
    (hfirst : x.isLine = true → hs.any Happening.isRead = false) :
    Told cfg (hs ++ [x]) calls' := by
  cases x with
  | line file lineNr addr registers =>
    rw [show calls' = _ from hadds]
    exact h.line (hfirst rfl)
  | read =>
    rcases hadds with rfl | ⟨a, rfl⟩
    · exact h.quiet rfl
    · exact h.hit a
  | _ =>
    rw [show calls' = calls from hadds]
    exact h.quiet rfl

/-- No run uses freed memory, and every run does what is meant to happen. -/
theorem follows_run {daemonize : Bool} (hlines : LinesFirst hs)
    (hagain : NotAgain cfg.runFilters daemonize hs) :
    ∃ t unread lost, Probing.run cfg.runFilters daemonize hs = some t ∧
      Follows (Watch.run cfg.runFilters hs) t unread lost ∧
      (hs.all Happening.fits = true → lost = []) ∧ Told cfg hs t.calls := by
  induction hs using List.reverseRecOn with
  | nil => exact ⟨_, [], [], rfl, follows_start, fun _ => rfl, told_start cfg⟩
  | append_singleton hs x ih =>
    obtain ⟨hbefore, hfirst⟩ := allSteps_snoc.mp hlines
    obtain ⟨hagain, hspares⟩ := allSteps_snoc.mp hagain
    obtain ⟨s, unread, lost, hrun, hfollows, hlost, htold⟩ := ih hbefore hagain
    obtain ⟨t, unread', lost', hstep, hfollows', hlost', hadds⟩ :=
      @follows_step cfg.runFilters daemonize _ _ _ _ hfollows x (hspares s hrun)
    refine ⟨t, unread', lost', foldlM_snoc.mpr ⟨s, hrun, hstep⟩, ?_, fun hfits => ?_,
      htold.step hadds hfirst⟩
    · rw [Watch.run, List.foldl_append]
      exact hfollows'
    · rw [List.all_append, Bool.and_eq_true, List.all_cons, List.all_nil, Bool.and_true] at hfits
      rw [hlost' hfits.2, hlost hfits.1]

/-- An address is reported only where its probe has triggered. -/
theorem Follows.triggered_of_reported {w : Watch} {s : Probing} {unread lost : List (BitVec 64)}
    (h : Follows w s unread lost) {a : BitVec 64} (ha : a ∈ reported s.calls) : a ∈ w.triggered := by
  have hplace := h.place a
  have hpos := List.count_pos_iff.mpr ha
  have hprobed : a ∈ w.probed := by
    by_contra hnot
    rw [if_neg hnot] at hplace
    omega
  rw [if_pos hprobed] at hplace
  have hzero : s.kernel.on s.kernel.pendingList a = 0 := by omega
  refine (h.triggered a).mpr ⟨hprobed, fun e he hany => ?_⟩
  exact absurd hany (List.countP_eq_zero.mp hzero e he)

/-- Where nothing is under way or lost, what has triggered was reported. -/
theorem Follows.reported_of_drained {w : Watch} {s : Probing} {unread : List (BitVec 64)}
    (h : Follows w s unread []) (hdrained : s.Drained) {a : BitVec 64} (ha : a ∈ w.triggered) :
    a ∈ reported s.calls := by
  obtain ⟨hprobed, hall⟩ := (h.triggered a).mp ha
  have hplace := h.place a
  have hunread : unread = [] := by
    cases unread with
    | nil => rfl
    | cons b unread =>
      have htext := h.text
      rw [hdrained.unread] at htext
      simp [kernelLine] at htext
  have hpending : s.kernel.on s.kernel.pendingList a = 0 := by
    refine List.countP_eq_zero.mpr fun e he hany => ?_
    have hwork := hall e he hany
    rw [hdrained.worker, hdrained.workqueue] at hwork
    cases hwork
  rw [hpending, hdrained.hitList, hdrained.shown, hunread, if_pos hprobed] at hplace
  refine List.count_pos_iff.mp ?_
  simp only [State.on, List.countP_nil, List.count_nil] at hplace
  omega

/-- In every run of kcov and the kernel in which no instruction is reached again while its probe is about
to be unregistered, the module uses no freed memory, and a line has at most one hit for each of its
addresses where a probe was planted that the kernel has arrived at. It has one for each of them when
nothing is under way any more and the reader had room for all that was shown. -/
theorem hits_eq_triggered (cfg : ReporterSetup) (hmax : cfg.maxPossibleHits ≠ .unlimited)
    (daemonize : Bool) (hs : List Happening) (hlines : LinesFirst hs)
    (hagain : NotAgain cfg.runFilters daemonize hs) (hids : Reporter.SharersDistinct cfg (linesOf hs))
    (hadmits : ∀ ev ∈ linesOf hs, Reporter.Admits cfg ev) :
    ∃ t s, Probing.run cfg.runFilters daemonize hs = some t ∧ Reporter.run cfg t.calls = some s ∧
      (∀ ref, (s.getLineExecutionCount cfg ref.file ref.lineNr).hits.toNat ≤
        ((Reporter.addressesOf cfg ref (linesOf hs)).filter
          (· ∈ (Watch.run cfg.runFilters hs).triggered)).length) ∧
      (t.Drained → hs.all Happening.fits = true → ∀ ref,
        (s.getLineExecutionCount cfg ref.file ref.lineNr).hits =
          if cfg.excluded ref then 0
          else BitVec.ofNat 32 ((Reporter.addressesOf cfg ref (linesOf hs)).filter
            (· ∈ (Watch.run cfg.runFilters hs).triggered)).length) := by
  obtain ⟨t, unread, lost, hrun, hfollows, hlost, htold⟩ := follows_run hlines hagain
  have hmem : ∀ f n a, .line f n a ∈ t.calls → .line f n a ∈ linesOf hs := by
    intro f n a hev
    rw [← htold.lines]
    exact List.mem_filter.mpr ⟨hev, rfl⟩
  obtain ⟨s, hreporter, hcompiled⟩ := Reporter.compiledState_run (decide_eq_true hmax)
    (fun f n g m a hf hg => hids f n g m a (hmem f n a hf) (hmem g m a hg)) htold.noFile
    (fun ev hev => by
      cases ev with
      | line f n a => exact hadmits _ (hmem f n a hev)
      | _ => trivial)
  have hhits : ∀ ref a, a ∈ Reporter.hitAddressesOf cfg ref t.calls ↔
      a ∈ Reporter.addressesOf cfg ref (linesOf hs) ∧ a ∈ reported t.calls := by
    intro ref a
    rw [← htold.lines, Reporter.addressesOf_filter]
    exact htold.hits ref a
  refine ⟨t, s, hrun, hreporter, fun ref => ?_, fun hdrained hfits ref => ?_⟩
  · rw [hcompiled.hits]
    split
    · exact Nat.zero_le _
    · rw [BitVec.toNat_ofNat]
      refine (Nat.mod_le _ _).trans (List.Subperm.length_le ?_)
      refine Reporter.nodup_hitAddressesOf.subperm fun a ha => ?_
      obtain ⟨haddress, hrep⟩ := (hhits ref a).mp ha
      exact List.mem_filter.mpr
        ⟨haddress, decide_eq_true (hfollows.triggered_of_reported hrep)⟩
  · rw [hlost hfits] at hfollows
    have hperm : (Reporter.hitAddressesOf cfg ref t.calls).Perm
        ((Reporter.addressesOf cfg ref (linesOf hs)).filter
          (· ∈ (Watch.run cfg.runFilters hs).triggered)) := by
      refine (List.perm_ext_iff_of_nodup Reporter.nodup_hitAddressesOf
        (Reporter.nodup_addressesOf.filter _)).mpr fun a => ?_
      rw [hhits, List.mem_filter, decide_eq_true_eq]
      exact and_congr_right fun _ => ⟨hfollows.triggered_of_reported,
        hfollows.reported_of_drained hdrained⟩
    rw [hcompiled.hits, hperm.length_eq]

/-- A kernel with two lines, of which the second is reached three times. -/
def secondLine : List Happening :=
  [.line (ascii "main.c") 3 0x1000 true, .line (ascii "main.c") 4 0x2000 true, .execute 0x2000,
    .execute 0x2000, .work, .going (ascii "ext4"), .work, .execute 0x2000, .work, .unlinkNext,
    .seqShow 1 true, .read]

theorem notAgain_secondLine : NotAgain (fun _ => true) false secondLine := by
  refine allSteps_iff_getElem.mpr fun i hi s hs => ?_
  have hworker : ∀ worker, (Probing.run (fun _ => true) false (secondLine.take i)).map
      Probing.worker = some worker → s.worker = worker := by
    intro worker h
    rw [hs, Option.map_some, Option.some.injEq] at h
    exact h
  match i, hi with
  | 2, _ | 3, _ =>
    intro e he
    rw [hworker .idle (by decide)] at he
    cases he
  | 7, _ =>
    intro e he
    rw [hworker (.unregistered 1) (by decide)] at he
    cases he
  | 0, _ | 1, _ | 4, _ | 5, _ | 6, _ | 8, _ | 9, _ | 10, _ | 11, _ => trivial

theorem hits_eq_triggered_secondLine :
    ∃ t s, Probing.run (fun _ => true) false secondLine = some t ∧
      Reporter.run Reporter.compiledSetup t.calls = some s ∧
      (s.getLineExecutionCount Reporter.compiledSetup (ascii "main.c") 3).hits = 0 ∧
      (s.getLineExecutionCount Reporter.compiledSetup (ascii "main.c") 4).hits = 1 := by
  have hlines : linesOf secondLine =
      [.line (ascii "main.c") 3 0x1000, .line (ascii "main.c") 4 0x2000] := rfl
  have hline : ∀ f n a, Reporter.Event.line f n a ∈ linesOf secondLine →
      f = ascii "main.c" ∧ n.toNat ≤ 4 := by
    intro f n a hmem
    simp only [hlines, List.mem_cons, Reporter.Event.line.injEq, List.not_mem_nil, or_false] at hmem
    rcases hmem with ⟨rfl, rfl, -⟩ | ⟨rfl, rfl, -⟩ <;> exact ⟨rfl, by decide⟩
  have hadmits : ∀ ev ∈ linesOf secondLine, Reporter.Admits Reporter.compiledSetup ev := by
    intro ev hev
    cases ev with
    | line f n a =>
      have hn := (hline f n a hev).2
      exact fun _ => ⟨show n.toNat + 1 < 2 ^ 32 by omega, show 0 + 1 < 2 ^ 32 by decide⟩
    | _ => trivial
  obtain ⟨t, s, hrun, hreporter, -, hhits⟩ := hits_eq_triggered Reporter.compiledSetup (by decide)
    false secondLine
    (allSteps_iff_getElem.mpr fun i hi => by
      match i, hi with
      | 0, _ | 1, _ => exact fun _ => rfl
      | 2, _ | 3, _ | 4, _ | 5, _ | 6, _ | 7, _ | 8, _ | 9, _ | 10, _ | 11, _ =>
        exact fun h => by cases h)
    notAgain_secondLine (fun f n g m a hf hg _ => (hline f n a hf).1.trans (hline g m a hg).1.symm) hadmits
  have hdrained : (Probing.run (fun _ => true) false secondLine).map (fun t =>
      (t.worker, t.kernel.workqueue, t.kernel.hitList, t.kernel.shown, t.unread)) =
        some (.idle, [], [], [], []) := by
    decide
  rw [show Probing.run (fun _ => true) false secondLine = some t from hrun, Option.map_some,
    Option.some.injEq, Prod.mk.injEq, Prod.mk.injEq, Prod.mk.injEq, Prod.mk.injEq] at hdrained
  obtain ⟨hworker, hwork, hhit, hshown, hunread⟩ := hdrained
  have hall := hhits ⟨hworker, hwork, hhit, hshown, hunread⟩ rfl
  exact ⟨t, s, hrun, hreporter, (hall ⟨ascii "main.c", 3⟩).trans (by decide),
    (hall ⟨ascii "main.c", 4⟩).trans (by decide)⟩

/-- An instruction that is reached again before its probe is unregistered: the work is queued once more,
and is done when the reader has freed the entry. -/
example : Probing.run (fun _ => true) false
    [.line (ascii "main.c") 3 0x1000 true, .execute 0x1000, .work, .execute 0x1000, .work, .work,
      .unlinkNext, .seqShow 0 true, .work, .work] = none := by
  decide

end Runs

end Kcov.Kernel
