import Kcov.Kernel.KprobeCoverage
import Kcov.Lib.Runs

/-! Who owns the entries of the kernel module: what each step does to the lists, and which runs keep
the queued work and the lists together. -/

namespace Kcov.Kernel

open Bytes Runs

namespace State

/-! ### Owners -/

/-- The number of owners of an entry: the lists, the readers, and the free memory. -/
def owners (s : State) (e : Nat) : Nat := s.links e + s.shown.count e + s.freed.count e

/-- An entry that was allocated has one owner, and its probe is registered only while it is pending. -/
structure SoundAt (s : State) (e : Nat) : Prop where
  once : s.owners e ≤ 1
  fresh : s.next ≤ e → s.owners e = 0
  alive : (s.entries e).isSome = true ↔ 0 < s.links e + s.shown.count e
  registered : (s.entries e).any Entry.registered = true → 0 < s.pendingList.count e

def Sound (s : State) : Prop := ∀ e, s.SoundAt e

/-- The work that is queued is for pending entries, once for each. -/
def Queued (s : State) : Prop := ∀ e, s.workqueue.count e ≤ s.pendingList.count e

/-- Nothing has happened to an entry. -/
structure SameAt (s t : State) (e : Nat) : Prop where
  deferredList : t.deferredList.count e = s.deferredList.count e
  pendingList : t.pendingList.count e = s.pendingList.count e
  hitList : t.hitList.count e = s.hitList.count e
  shown : t.shown.count e = s.shown.count e
  freed : t.freed.count e = s.freed.count e
  entries : t.entries e = s.entries e
  next : t.next ≤ e ↔ s.next ≤ e

section Sound

variable {s t : State} {e x : Nat}

theorem SameAt.trans {u : State} (h : SameAt s t e) (h' : SameAt t u e) : SameAt s u e :=
  ⟨h'.deferredList.trans h.deferredList, h'.pendingList.trans h.pendingList,
    h'.hitList.trans h.hitList, h'.shown.trans h.shown, h'.freed.trans h.freed,
    h'.entries.trans h.entries, h'.next.trans h.next⟩

theorem SoundAt.congr (h : s.SoundAt e) (hsame : SameAt s t e) : t.SoundAt e := by
  obtain ⟨hdeferred, hpending, hhit, hshown, hfreed, hentries, hnext⟩ := hsame
  have hlinks : t.links e = s.links e := by rw [links, links, hdeferred, hpending, hhit]
  have howners : t.owners e = s.owners e := by rw [owners, owners, hlinks, hshown, hfreed]
  refine ⟨howners ▸ h.once, fun hx => howners.trans (h.fresh (hnext.mp hx)), ?_, ?_⟩
  · rw [hentries, hlinks, hshown]
    exact h.alive
  · rw [hentries, hpending]
    exact h.registered

theorem Sound.owned (h : s.Sound) (hqueued : s.Queued) : s.Owned := by
  refine ⟨fun e halive hshown => ?_, fun e he => ?_, ?_⟩
  · have honce := (h e).once
    have hpositive := (h e).alive.mp halive
    rw [List.count_eq_zero_of_not_mem hshown] at hpositive
    rw [owners] at honce
    omega
  · have hcount := List.count_pos_iff.mpr he
    have hle := hqueued e
    have hpending : 0 < s.pendingList.count e := by omega
    refine ⟨(h e).alive.mpr ?_, List.count_pos_iff.mp hpending⟩
    rw [links]
    omega
  · rw [List.nodup_iff_count]
    intro e
    have honce := (h e).once
    rw [owners] at honce
    omega

theorem sound_init : init.Sound := by
  intro e
  refine ⟨?_, ?_, ?_, ?_⟩ <;> simp [init, owners, links]

/-! ### Freeing -/

/-- Unlinking an entry and freeing it. -/
def release (s : State) (e : Nat) : State := (s.listDel e).freeEntry e

theorem clearEntry_eq (unregister : Bool) (s : State) (e : Nat) :
    clearEntry unregister s e = s.release e := by
  cases unregister with
  | false => rfl
  | true => simp [clearEntry, release, unregisterKprobe, modifyEntry, listDel, freeEntry]

theorem goingEntry_eq (name : Text) (s : State) (e : Nat) :
    goingEntry name s e = if s.isFor name e then s.release e else s := by
  have hclear := clearEntry_eq true s e
  rw [clearEntry, if_pos rfl] at hclear
  rw [goingEntry, hclear]
  cases s.isFor name e <;> rfl

theorem sameAt_release (hx : x ≠ e) : SameAt s (s.release e) x := by
  refine ⟨?_, ?_, ?_, rfl, ?_, ?_, Iff.rfl⟩ <;>
    simp [release, listDel, freeEntry, hx, Ne.symm hx]

theorem sound_release (h : s.Sound) (he : 0 < s.links e) : (s.release e).Sound := by
  intro x
  by_cases hx : x = e
  · subst hx
    obtain ⟨honce, hfresh, -, -⟩ := h x
    have hnew : (s.release x).entries x = none := Function.update_self _ _ _
    simp only [owners, links] at honce hfresh he
    have hcounts : (s.release x).links x = 0 ∧ (s.release x).pendingList.count x = 0 ∧
        (s.release x).freed.count x = s.freed.count x + 1 := by
      simp only [links, State.release, listDel, freeEntry, List.count_erase_self,
        List.count_append, List.count_singleton_self, and_true]
      omega
    have hshown : (s.release x).shown = s.shown := rfl
    refine ⟨?_, fun hx => ?_, ?_, ?_⟩
    · rw [owners, hcounts.1, hcounts.2.2, hshown]
      omega
    · exact absurd (hfresh hx) (by omega)
    · rw [hnew, hcounts.1, hshown, Option.isSome_none]
      simp only [Bool.false_eq_true, false_iff]
      omega
    · rw [hnew, hcounts.2.1]
      simp
  · exact (h x).congr (sameAt_release hx)

/-- What freeing the entries `l` one after the other does. -/
structure Releases (s : State) (l : List Nat) (t : State) : Prop where
  sound : t.Sound
  others : ∀ e, e ∉ l → SameAt s t e
  entries : ∀ e ∈ l, t.entries e = none
  workqueue : t.workqueue = s.workqueue
  moduleNames : t.moduleNames = s.moduleNames

theorem releases (h : s.Sound) {l : List Nat} (hnodup : l.Nodup) (hl : ∀ e ∈ l, 0 < s.links e) :
    Releases s l (l.foldl release s) := by
  induction l generalizing s with
  | nil => exact ⟨h, fun _ _ => ⟨rfl, rfl, rfl, rfl, rfl, rfl, Iff.rfl⟩, by simp, rfl, rfl⟩
  | cons e l ih =>
    obtain ⟨hnot, hnodup⟩ := List.nodup_cons.mp hnodup
    obtain ⟨he, hl⟩ := List.forall_mem_cons.mp hl
    have hother : ∀ x, x ≠ e → SameAt s (s.release e) x := fun x hx => sameAt_release hx
    have hrest := ih (sound_release h he) hnodup fun x hx => by
      have hsame := hother x fun heq => hnot (heq ▸ hx)
      rw [links, hsame.deferredList, hsame.pendingList, hsame.hitList]
      exact hl x hx
    refine ⟨hrest.sound, fun x hx => ?_, fun x hx => ?_, hrest.workqueue, hrest.moduleNames⟩
    · rw [List.mem_cons, not_or] at hx
      exact (hother x hx.1).trans (hrest.others x hx.2)
    · rcases List.mem_cons.mp hx with rfl | hx
      · rw [List.foldl_cons, (hrest.others x hnot).entries]
        exact Function.update_self _ _ _
      · exact hrest.entries x hx

/-- An entry that is not allocated is on no list. -/
theorem Sound.links_eq_zero (h : s.Sound) (hnone : s.entries e = none) : s.links e = 0 := by
  have halive := (h e).alive
  rw [hnone] at halive
  simp only [Option.isSome_none, Bool.false_eq_true, false_iff] at halive
  omega

/-- Freeing puts no entry on a list, and takes the entries that are freed off the lists. -/
theorem Releases.count_le {l : List Nat} (h : Releases s l t) (e : Nat) :
    t.deferredList.count e ≤ s.deferredList.count e ∧ t.pendingList.count e ≤ s.pendingList.count e ∧
      t.hitList.count e ≤ s.hitList.count e ∧ (e ∈ l → t.links e = 0) := by
  by_cases he : e ∈ l
  · have hzero := h.sound.links_eq_zero (h.entries e he)
    have hsum := hzero
    rw [links] at hsum
    exact ⟨by omega, by omega, by omega, fun _ => hzero⟩
  · have hsame := h.others e he
    exact ⟨hsame.deferredList.le, hsame.pendingList.le, hsame.hitList.le, fun hmem => absurd hmem he⟩

theorem Sound.nodup (h : s.Sound) :
    s.deferredList.Nodup ∧ s.pendingList.Nodup ∧ s.hitList.Nodup := by
  simp only [List.nodup_iff_count]
  have honce : ∀ e, s.owners e ≤ 1 := fun e => (h e).once
  simp only [owners, links] at honce
  exact ⟨fun e => by have := honce e; omega, fun e => by have := honce e; omega,
    fun e => by have := honce e; omega⟩

/-- `clear` frees everything that is on a list, and leaves the work alone. -/
theorem sound_clear (h : s.Sound) : s.clear.Sound ∧ s.clear.workqueue = s.workqueue := by
  have hlinks : ∀ {s : State} {l : List Nat}, (∀ e ∈ l, 0 < s.deferredList.count e ∨
      0 < s.pendingList.count e ∨ 0 < s.hitList.count e) → ∀ e ∈ l, 0 < s.links e := by
    intro s l hl e he
    rw [links]
    have := hl e he
    omega
  have h₁ := releases h h.nodup.1 (hlinks fun e he => Or.inl (List.count_pos_iff.mpr he))
  have h₂ := releases h₁.sound h₁.sound.nodup.2.2
    (hlinks fun e he => Or.inr (Or.inr (List.count_pos_iff.mpr he)))
  have h₃ := releases h₂.sound h₂.sound.nodup.2.1
    (hlinks fun e he => Or.inr (Or.inl (List.count_pos_iff.mpr he)))
  have hclear : ∀ unregister, clearEntry unregister = release := fun unregister =>
    funext fun s => funext fun e => clearEntry_eq unregister s e
  simp only [State.clear, hclear]
  generalize s.deferredList.foldl release s = s₁ at *
  generalize s₁.hitList.foldl release s₁ = s₂ at *
  generalize s₂.pendingList.foldl release s₂ = s₃ at *
  refine ⟨fun e => (h₃.sound e).congr ?_, h₃.workqueue.trans (h₂.workqueue.trans h₁.workqueue)⟩
  -- One list after the other has been emptied, and none has grown again.
  obtain ⟨hle₁, -, -, hzero₁⟩ := h₁.count_le e
  obtain ⟨hle₂, -, hle₂', hzero₂⟩ := h₂.count_le e
  obtain ⟨hle₃, hle₃'', hle₃', hzero₃⟩ := h₃.count_le e
  rw [links] at hzero₁ hzero₂ hzero₃
  simp only [← List.count_pos_iff] at hzero₁ hzero₂ hzero₃
  exact ⟨by rw [List.count_nil]; omega, by rw [List.count_nil]; omega,
    by rw [List.count_nil]; omega, rfl, rfl, rfl, Iff.rfl⟩

/-! ### Modules -/

theorem isFor_release (name : Text) (hx : x ≠ e) : (s.release e).isFor name x = s.isFor name x := by
  have hentries : (s.release e).entries x = s.entries x := Function.update_of_ne hx _ _
  rw [isFor, isFor, hentries]
  rfl

theorem foldl_goingEntry (name : Text) {l : List Nat} (hl : l.Nodup) :
    l.foldl (goingEntry name) s = (l.filter (s.isFor name)).foldl release s := by
  induction l generalizing s with
  | nil => rfl
  | cons e l ih =>
    obtain ⟨hnot, hl⟩ := List.nodup_cons.mp hl
    rw [List.foldl_cons, goingEntry_eq, List.filter_cons]
    split
    · rw [List.foldl_cons, ih hl]
      congr 1
      apply List.filter_congr
      intro x hx
      exact isFor_release name fun heq => hnot (heq ▸ hx)
    · exact ih hl

/-- A module that goes takes its pending entries with it. -/
theorem releases_goingLoop (h : s.Sound) (name : Text) :
    Releases s (s.pendingList.filter (s.isFor name)) (s.pendingList.foldl (goingEntry name) s) := by
  rw [foldl_goingEntry name h.nodup.2.1]
  refine releases h (h.nodup.2.1.filter _) fun e he => ?_
  have hpos := List.count_pos_iff.mpr (List.mem_of_mem_filter he)
  rw [links]
  omega

theorem sameAt_modules (modules : Text → Option (BitVec 64)) : SameAt s { s with modules } e :=
  ⟨rfl, rfl, rfl, rfl, rfl, rfl, Iff.rfl⟩

theorem releases_goingModule (h : s.Sound) (name : Text) :
    Releases s (s.pendingList.filter (s.isFor name)) (s.handleGoingModule name) := by
  obtain ⟨hsound, hothers, hentries, hwork, hnames⟩ := releases_goingLoop
    (fun e => (h e).congr (sameAt_modules (Function.update s.modules name none))) name
  exact ⟨hsound, fun e he => (sameAt_modules _).trans (hothers e he), hentries, hwork, hnames⟩

/-- What moving deferred entries to the pending list, or freeing them, leaves alone. -/
structure Enables (s : State) (l : List Nat) (t : State) : Prop where
  sound : t.Sound
  others : ∀ e, e ∉ l → SameAt s t e
  pending : ∀ e, s.pendingList.count e ≤ t.pendingList.count e
  workqueue : t.workqueue = s.workqueue

theorem Sound.enables_refl (h : s.Sound) (l : List Nat) : Enables s l s :=
  ⟨h, fun _ _ => ⟨rfl, rfl, rfl, rfl, rfl, rfl, Iff.rfl⟩, fun _ => le_rfl, rfl⟩

/-- The entries of a module that comes are enabled one by one. -/
theorem enables_comingEntry (h : s.Sound) (name : Text) (core : BitVec 64) (registers : Nat → Bool)
    (he : 0 < s.deferredList.count e) :
    Enables s [e] (comingEntry name core registers s e) := by
  rw [comingEntry]
  split
  · exact h.enables_refl [e]
  obtain ⟨honce, hfresh, halive, -⟩ := h e
  simp only [owners, links] at honce hfresh halive
  obtain ⟨entry, hentry⟩ := Option.isSome_iff_exists.mp (halive.mpr (by omega))
  have hself : ∀ t : State, t.SoundAt e → (∀ x, x ≠ e → SameAt s t x) →
      s.pendingList.count e ≤ t.pendingList.count e → t.workqueue = s.workqueue →
      Enables s [e] t := by
    intro t he hother hpending hwork
    refine ⟨fun x => ?_, fun x hx => hother x fun heq => hx (List.mem_singleton.mpr heq),
      fun x => ?_, hwork⟩
    · by_cases hx : x = e
      · exact hx ▸ he
      · exact (h x).congr (hother x hx)
    · by_cases hx : x = e
      · exact hx ▸ hpending
      · exact (hother x hx).pendingList.ge
  cases hreg : registers e with
  | true =>
    simp only [enableProbe, if_true]
    refine hself _ ⟨?_, ?_, ?_, ?_⟩ (fun x hx => ?_) ?_ rfl
    · simp [owners, links, modifyEntry, listDel]
      omega
    · simp [owners, links, modifyEntry, listDel]
      omega
    · simp [links, modifyEntry, listDel, hentry]
    · simp [modifyEntry, listDel, hentry]
    · refine ⟨?_, ?_, ?_, rfl, rfl, ?_, Iff.rfl⟩ <;> simp [modifyEntry, listDel, hx, Ne.symm hx]
    · simp [modifyEntry, listDel]
      omega
  | false =>
    simp only [enableProbe, Bool.false_eq_true, if_false]
    refine hself _ ⟨?_, ?_, ?_, ?_⟩ (fun x hx => ?_) ?_ rfl
    · simp [owners, links, modifyEntry, listDel, freeEntry]
      omega
    · simp [owners, links, modifyEntry, listDel, freeEntry]
      omega
    · simp only [links, modifyEntry, listDel, freeEntry, Function.update_self,
        List.count_erase_self, List.count_cons_self, Option.isSome_none, Bool.false_eq_true, false_iff]
      omega
    · simp [modifyEntry, listDel, freeEntry]
    · refine ⟨?_, ?_, ?_, rfl, ?_, ?_, Iff.rfl⟩ <;>
        simp [modifyEntry, listDel, freeEntry, hx, Ne.symm hx]
    · simp [modifyEntry, listDel, freeEntry]
      omega

theorem enables_comingLoop (h : s.Sound) (name : Text) (core : BitVec 64)
    (registers : Nat → Bool) {l : List Nat} (hnodup : l.Nodup)
    (hl : ∀ e ∈ l, 0 < s.deferredList.count e) :
    Enables s l (l.foldl (comingEntry name core registers) s) := by
  induction l generalizing s with
  | nil => exact h.enables_refl []
  | cons e l ih =>
    obtain ⟨hnot, hnodup⟩ := List.nodup_cons.mp hnodup
    obtain ⟨he, hl⟩ := List.forall_mem_cons.mp hl
    have hone := enables_comingEntry h name core registers he
    have hrest := ih hone.sound hnodup fun x hx => by
      rw [(hone.others x fun hmem => hnot (List.mem_singleton.mp hmem ▸ hx)).deferredList]
      exact hl x hx
    refine ⟨hrest.sound, fun x hx => ?_, fun x => (hone.pending x).trans (hrest.pending x),
      hrest.workqueue.trans hone.workqueue⟩
    rw [List.mem_cons, not_or] at hx
    exact (hone.others x (by simpa using hx.1)).trans (hrest.others x hx.2)

theorem enables_comingModule (h : s.Sound) (name : Text) (core : BitVec 64)
    (registers : Nat → Bool) :
    Enables s s.deferredList (s.handleComingModule name core registers) := by
  obtain ⟨hsound, hothers, hpending, hwork⟩ := enables_comingLoop
    (fun e => (h e).congr (sameAt_modules (Function.update s.modules name (some core)))) name core
    registers h.nodup.1 fun e he => List.count_pos_iff.mpr he
  exact ⟨hsound, fun e he => (sameAt_modules _).trans (hothers e he), hpending, hwork⟩

/-! ### Probes -/

/-- A new entry is on no list yet. -/
theorem newEntry_eq (s : State) (moduleName : Option Text) (module : Option (BitVec 64))
    (offset : BitVec 64) : ∃ entry moduleNames, entry.registered = false ∧
      s.newEntry moduleName module offset = ({ s with
        entries := Function.update s.entries s.next (some entry)
        next := s.next + 1
        moduleNames }, s.next) := by
  have hnames : ∃ moduleNames index, s.allocateModuleNameIndex moduleName =
      ({ s with moduleNames }, index) := by
    cases moduleName with
    | none => exact ⟨s.moduleNames, _, rfl⟩
    | some name =>
      simp only [allocateModuleNameIndex]
      split
      · exact ⟨_, _, rfl⟩
      · exact ⟨s.moduleNames, _, rfl⟩
  obtain ⟨moduleNames, index, heq⟩ := hnames
  rw [newEntry, heq]
  exact ⟨_, moduleNames, rfl, rfl⟩

/-- A new entry goes to the deferred or the pending list, or is freed at once. -/
theorem enables_addProbe (h : s.Sound) (moduleName : Option Text) (offset : BitVec 64)
    (registers : Bool) : Enables s [s.next] (s.addProbe moduleName offset registers) := by
  obtain ⟨entry, moduleNames, hentry, hnew⟩ :=
    s.newEntry_eq moduleName (moduleName.bind s.modules) offset
  have hzero := (h s.next).fresh le_rfl
  simp only [owners, links] at hzero
  have hnext : ∀ x, x ≠ s.next → (s.next + 1 ≤ x ↔ s.next ≤ x) := fun x hx => by omega
  have hself : ∀ t : State, t.SoundAt s.next → (∀ x, x ≠ s.next → SameAt s t x) →
      t.workqueue = s.workqueue → Enables s [s.next] t := by
    intro t he hother hwork
    refine ⟨fun x => ?_, fun x hx => hother x fun heq => hx (List.mem_singleton.mpr heq),
      fun x => ?_, hwork⟩
    · by_cases hx : x = s.next
      · exact hx ▸ he
      · exact (h x).congr (hother x hx)
    · by_cases hx : x = s.next
      · rw [hx]
        omega
      · exact (hother x hx).pendingList.ge
  simp only [addProbe, hnew]
  split
  · refine hself _ ⟨?_, ?_, ?_, ?_⟩ (fun x hx => ?_) rfl
    · simp [owners, links, deferProbe]
      omega
    · simp [deferProbe]
    · simp [links, deferProbe]
    · simp [deferProbe, hentry]
    · refine ⟨?_, ?_, ?_, rfl, rfl, ?_, hnext x hx⟩ <;> simp [deferProbe, hx, Ne.symm hx]
  · cases registers with
    | true =>
      simp only [enableProbe, if_true]
      refine hself _ ⟨?_, ?_, ?_, ?_⟩ (fun x hx => ?_) rfl
      · simp [owners, links, modifyEntry]
        omega
      · simp [modifyEntry]
      · simp [links, modifyEntry]
      · simp [modifyEntry]
      · refine ⟨?_, ?_, ?_, rfl, rfl, ?_, hnext x hx⟩ <;> simp [modifyEntry, hx, Ne.symm hx]
    | false =>
      simp only [enableProbe, Bool.false_eq_true, if_false]
      refine hself _ ⟨?_, ?_, ?_, ?_⟩ (fun x hx => ?_) rfl
      · simp [owners, links, listDel, freeEntry]
        omega
      · simp [listDel, freeEntry]
      · simp only [links, listDel, freeEntry, Function.update_self, List.count_erase_self,
          List.count_cons_self, Option.isSome_none, Bool.false_eq_true, false_iff]
        omega
      · simp [listDel, freeEntry]
      · refine ⟨?_, ?_, ?_, rfl, ?_, ?_, hnext x hx⟩ <;>
          simp [listDel, freeEntry, hx, Ne.symm hx]

theorem sound_preHandler (h : s.Sound) (hqueued : s.Queued) (e : Nat) :
    (s.preHandler e).Sound ∧ (s.preHandler e).Queued := by
  rw [preHandler]
  split
  next hfire =>
    refine ⟨fun x => (h x).congr ⟨rfl, rfl, rfl, rfl, rfl, rfl, Iff.rfl⟩, fun x => ?_⟩
    have hpending := (h e).registered hfire.1
    have hle := hqueued x
    have hzero := List.count_eq_zero_of_not_mem hfire.2
    by_cases hx : x = e
    · subst hx
      simp only [List.count_append, List.count_singleton_self]
      omega
    · simpa [Ne.symm hx] using hle
  next => exact ⟨h, hqueued⟩

theorem entries_unregisterKprobe_of_ne (hx : x ≠ e) :
    (s.unregisterKprobe e).entries x = s.entries x := Function.update_of_ne hx _ _

theorem entries_unregisterKprobe_self : (s.unregisterKprobe e).entries e =
    (s.entries e).map fun entry => { entry with registered := false } := Function.update_self _ _ _

theorem sound_unregisterKprobe (h : s.Sound) (e : Nat) : (s.unregisterKprobe e).Sound := by
  intro x
  by_cases hx : x = e
  · subst hx
    obtain ⟨honce, hfresh, halive, -⟩ := h x
    refine ⟨honce, hfresh, ?_, fun hreg => ?_⟩
    · rw [entries_unregisterKprobe_self, Option.isSome_map]
      exact halive
    · rw [entries_unregisterKprobe_self] at hreg
      cases hentry : s.entries x <;> simp [hentry] at hreg
  · exact (h x).congr ⟨rfl, rfl, rfl, rfl, rfl, entries_unregisterKprobe_of_ne hx, Iff.rfl⟩

/-- The work that has unregistered a probe moves a pending entry to the list of the triggered ones. -/
theorem sound_workMove (h : s.Sound) (hpending : e ∈ s.pendingList)
    (hreg : (s.entries e).any Entry.registered = false) :
    s.workMove e = some { s.listDel e with hitList := (s.listDel e).hitList ++ [e] } ∧
      State.Sound { s.listDel e with hitList := (s.listDel e).hitList ++ [e] } := by
  have hcount := List.count_pos_iff.mpr hpending
  obtain ⟨honce, hfresh, halive, -⟩ := h e
  simp only [owners, links] at honce hfresh halive
  obtain ⟨entry, hentry⟩ := Option.isSome_iff_exists.mp (halive.mpr (by omega))
  refine ⟨?_, fun x => ?_⟩
  · rw [workMove, if_pos ⟨by rw [hentry]; rfl, Or.inr (Or.inl hpending)⟩]
  by_cases hx : x = e
  · subst hx
    refine ⟨?_, ?_, ?_, fun hany => ?_⟩
    · simp [owners, links, listDel]
      omega
    · simp [owners, links, listDel]
      omega
    · simp [links, listDel, hentry]
    · rw [show (s.entries x).any Entry.registered = true from hany] at hreg
      cases hreg
  · refine (h x).congr ⟨?_, ?_, ?_, rfl, rfl, rfl, Iff.rfl⟩ <;>
      simp [listDel, hx, Ne.symm hx]

/-- The work that is queued moves a pending entry to the list of the triggered ones. -/
theorem sound_probeWork (h : s.Sound) (hqueued : s.Queued) :
    ∃ t, s.probeWork = some t ∧ t.Sound ∧ t.Queued := by
  rw [probeWork]
  cases hwork : s.workqueue with
  | nil => exact ⟨s, rfl, h, hqueued⟩
  | cons e workqueue =>
    have hle := hqueued e
    rw [hwork, List.count_cons_self] at hle
    have hpending : e ∈ s.pendingList := List.count_pos_iff.mp (by omega)
    have halive : (s.entries e).isSome = true := (h e).alive.mpr (by rw [links]; omega)
    have hdequeued : State.Sound { s with workqueue } := fun x =>
      (h x).congr ⟨rfl, rfl, rfl, rfl, rfl, rfl, Iff.rfl⟩
    obtain ⟨hmove, hsound⟩ := sound_workMove (sound_unregisterKprobe hdequeued e) hpending (by
      rw [entries_unregisterKprobe_self]
      cases State.entries { s with workqueue } e <;> rfl)
    refine ⟨_, ?_, hsound, fun x => ?_⟩
    · dsimp only
      rw [workUnregister, if_pos halive]
      exact hmove
    · have hcount := hqueued x
      rw [hwork, List.count_cons] at hcount
      by_cases hx : x = e
      · subst hx
        simp [unregisterKprobe, modifyEntry, listDel]
        omega
      · simpa [unregisterKprobe, modifyEntry, listDel, hx, Ne.symm hx] using hcount

/-! ### Reading -/

theorem sound_unlinkNext (h : s.Sound) (hqueued : s.Queued) :
    s.unlinkNext.Sound ∧ s.unlinkNext.Queued := by
  rw [unlinkNext]
  split
  · exact ⟨h, hqueued⟩
  next e hitList hhit =>
    refine ⟨fun x => ?_, fun x => hqueued x⟩
    obtain ⟨honce, hfresh, halive, hregistered⟩ := h x
    simp only [owners, links, hhit, List.count_cons] at honce hfresh halive
    have hshown : (s.shown ++ [e]).count x = s.shown.count x + if e == x then 1 else 0 := by
      rw [List.count_append, List.count_singleton]
    refine ⟨?_, fun hx => ?_, ?_, hregistered⟩
    · simp only [owners, links, hshown]
      omega
    · have := hfresh hx
      simp only [owners, links, hshown]
      omega
    · rw [halive]
      simp only [links, hshown]
      omega

/-- An entry that is shown is freed by its reader. -/
theorem sound_seqShow (h : s.Sound) (hqueued : s.Queued) (e : Nat) :
    ∃ t, s.seqShow e = some t ∧ t.Sound ∧ t.Queued := by
  rw [seqShow]
  split
  next => exact ⟨s, rfl, h, hqueued⟩
  next hmem =>
    have hcount := List.count_pos_iff.mpr (not_not.mp hmem)
    obtain ⟨honce, hfresh, halive, hregistered⟩ := h e
    simp only [owners] at honce hfresh
    obtain ⟨entry, hentry⟩ := Option.isSome_iff_exists.mp (halive.mpr (by omega))
    rw [hentry]
    have hlinks := honce
    rw [links] at hlinks
    refine ⟨_, rfl, fun x => ?_, fun x => hqueued x⟩
    by_cases hx : x = e
    · subst hx
      refine ⟨?_, fun hx => ?_, ?_, ?_⟩
      · simp [owners, links, freeEntry]
        omega
      · exact absurd (hfresh hx) (by omega)
      · simp only [links, freeEntry, Function.update_self, List.count_erase_self,
          Option.isSome_none, Bool.false_eq_true, false_iff]
        omega
      · simp [freeEntry]
    · refine (h x).congr ⟨rfl, rfl, rfl, ?_, ?_, ?_, Iff.rfl⟩ <;>
        simp [freeEntry, hx, Ne.symm hx]

end Sound

end State

/-! ### Runs -/

open State

section Steps

variable {s t : State}

theorem queued_enables {l : List Nat} (hqueued : s.Queued) (h : Enables s l t) : t.Queued := by
  intro e
  rw [h.workqueue]
  exact (hqueued e).trans (h.pending e)

/-- A step from a sound state uses no freed memory, and it keeps the queued work with the pending entries
if and only if it frees no entry with queued work. -/
theorem step_sound (h : s.Sound) (hqueued : s.Queued) (ev : Event) :
    ∃ t, step s ev = some t ∧ t.Sound ∧ (SparesQueued s ev → t.Queued) ∧
      (t.Owned → SparesQueued s ev) := by
  cases ev with
  | addProbe moduleName offset registers =>
    have hstep := enables_addProbe h moduleName offset registers
    exact ⟨_, rfl, hstep.sound, fun _ => queued_enables hqueued hstep, fun _ => trivial⟩
  | clear =>
    obtain ⟨hsound, hwork⟩ := sound_clear h
    refine ⟨_, rfl, hsound, fun hspares e => ?_, fun howned => ?_⟩
    · rw [hwork, (hspares : s.workqueue = [])]
      simp
    · refine List.eq_nil_iff_forall_not_mem.mpr fun e he => ?_
      have hpending := (howned.queued e (hwork ▸ he)).2
      cases hpending
  | fire e =>
    obtain ⟨hsound, hqueued'⟩ := sound_preHandler h hqueued e
    exact ⟨_, rfl, hsound, fun _ => hqueued', fun _ => trivial⟩
  | work =>
    obtain ⟨t, ht, hsound, hqueued'⟩ := sound_probeWork h hqueued
    exact ⟨t, ht, hsound, fun _ => hqueued', fun _ => trivial⟩
  | coming name core registers =>
    have hstep := enables_comingModule h name core registers
    exact ⟨_, rfl, hstep.sound, fun _ => queued_enables hqueued hstep, fun _ => trivial⟩
  | going name =>
    have hstep := releases_goingModule h name
    refine ⟨_, rfl, hstep.sound, fun hspares e => ?_, fun howned e he => ?_⟩
    · rw [hstep.workqueue]
      by_cases hmem : e ∈ s.pendingList.filter (s.isFor name)
      · have hnot : e ∉ s.workqueue := fun he => by
          rw [List.mem_filter, hspares e he] at hmem
          exact Bool.false_ne_true hmem.2
        rw [List.count_eq_zero_of_not_mem hnot]
        exact Nat.zero_le _
      · rw [(hstep.others e hmem).pendingList]
        exact hqueued e
    · by_contra hfor
      have hpending := (h.owned hqueued).queued e he
      have hmem : e ∈ s.pendingList.filter (s.isFor name) :=
        List.mem_filter.mpr ⟨hpending.2, by simpa using hfor⟩
      have halive := (howned.queued e (hstep.workqueue ▸ he)).1
      rw [hstep.entries e hmem] at halive
      cases halive
  | unlinkNext =>
    obtain ⟨hsound, hqueued'⟩ := sound_unlinkNext h hqueued
    exact ⟨_, rfl, hsound, fun _ => hqueued', fun _ => trivial⟩
  | seqShow e =>
    obtain ⟨t, ht, hsound, hqueued'⟩ := sound_seqShow h hqueued e
    exact ⟨t, ht, hsound, fun _ => hqueued', fun _ => trivial⟩

end Steps

/-- The run never uses freed memory, and every state of it owns its entries. -/
def KeepsOwned (evs : List Event) : Prop :=
  ∀ pre, pre <+: evs → ∃ s, run pre = some s ∧ s.Owned

/-- No event frees an entry with queued work. -/
def SparesQueuedWork (evs : List Event) : Prop :=
  AllSteps (fun pre ev => ∀ s, run pre = some s → SparesQueued s ev) evs

theorem run_sound {evs : List Event} (h : SparesQueuedWork evs) :
    ∃ s, run evs = some s ∧ s.Sound ∧ s.Queued := by
  induction evs using List.reverseRecOn with
  | nil => exact ⟨State.init, rfl, sound_init, fun _ => le_rfl⟩
  | append_singleton evs ev ih =>
    obtain ⟨hevs, hev⟩ := allSteps_snoc.mp h
    obtain ⟨s, hs, hsound, hqueued⟩ := ih hevs
    obtain ⟨t, ht, hsound', hqueued', -⟩ := step_sound hsound hqueued ev
    exact ⟨t, foldlM_snoc.mpr ⟨s, hs, ht⟩, hsound', hqueued' (hev s hs)⟩

/-- A run keeps its entries owned if and only if it never frees an entry with queued work. -/
theorem keeps_owned_iff (evs : List Event) : KeepsOwned evs ↔ SparesQueuedWork evs := by
  constructor
  · intro h
    induction evs using List.reverseRecOn with
    | nil => exact allSteps_nil
    | append_singleton evs ev ih =>
      have hevs := ih fun pre hpre => h pre (hpre.trans (List.prefix_append evs [ev]))
      refine allSteps_snoc.mpr ⟨hevs, fun s hs => ?_⟩
      obtain ⟨s', hs', hsound, hqueued⟩ := run_sound hevs
      obtain rfl : s' = s := Option.some.inj (hs'.symm.trans hs)
      obtain ⟨t, ht, -, -, hspares⟩ := step_sound hsound hqueued ev
      obtain ⟨t', ht', howned⟩ := h (evs ++ [ev]) (List.prefix_refl _)
      have hrun : run (evs ++ [ev]) = some t := foldlM_snoc.mpr ⟨s', hs, ht⟩
      obtain rfl : t' = t := Option.some.inj (ht'.symm.trans hrun)
      exact hspares howned
  · intro h pre hpre
    obtain ⟨s, hs, hsound, hqueued⟩ := run_sound fun pre' ev hev => h pre' ev (hev.trans hpre)
    exact ⟨s, hs, hsound.owned hqueued⟩

/-! ### Work that is left behind -/

/-- The probe of the kernel at address 16 triggers, and everything is cleared before its work is
done. -/
def clearedEarly : List Event := [.addProbe none 16 true, .fire 0, .clear]

theorem not_keeps_owned_clearedEarly : ¬KeepsOwned clearedEarly := by
  intro h
  obtain ⟨s, hs, howned⟩ := h clearedEarly (List.prefix_refl _)
  have hwork : (run clearedEarly).map (fun s => (s.workqueue, s.pendingList)) = some ([0], []) := by
    decide
  rw [hs, Option.map_some, Option.some.injEq, Prod.mk.injEq] at hwork
  have hpending := (howned.queued 0 (by rw [hwork.1]; exact List.mem_singleton.mpr rfl)).2
  rw [hwork.2] at hpending
  cases hpending

end Kcov.Kernel
