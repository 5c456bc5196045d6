import Kcov.Engines.Ptrace
import Kcov.Lib.Runs
import Mathlib.Data.Finset.Basic
import Mathlib.Data.Finset.Lattice.Lemmas

/-! What the breakpoints of the ptrace engine are for: in each process, the text with trap
instructions at the planted addresses, and nothing else changed. -/

namespace Kcov.Ptrace

open Bytes Runs

/-! ### Alignment -/

section Alignment

variable {n k a x : Nat}

theorem getAligned_le (n a : Nat) : getAligned n a ≤ a := Nat.div_mul_le_self a n

theorem getAligned_mod (n a : Nat) : getAligned n a % n = 0 := Nat.mul_mod_left (a / n) n

/-- An address is aligned down to the start of the block that it lies in. -/
theorem getAligned_eq_iff (hk : 0 < k) (ha : a % k = 0) :
    getAligned k x = a ↔ a ≤ x ∧ x < a + k := by
  obtain ⟨q, rfl⟩ := Nat.dvd_of_mod_eq_zero ha
  rw [getAligned, Nat.mul_comm k q, Nat.mul_left_inj hk.ne', Nat.div_eq_iff hk]
  have := Nat.add_mul q 1 k
  omega

/-- The start of an instruction lies in the same word as the instruction's bytes. -/
theorem getAligned_getAligned (hk : k ∣ n) : getAligned n (getAligned k x) = getAligned n x := by
  obtain ⟨q, rfl⟩ := hk
  rcases Nat.eq_zero_or_pos k with rfl | hkpos
  · simp [getAligned]
  · rw [getAligned, getAligned, getAligned, ← Nat.div_div_eq_div_mul, Nat.mul_div_cancel _ hkpos,
      Nat.div_div_eq_div_mul]

/-- An aligned instruction does not cross the end of its word. -/
theorem offset_add_le (hn : 0 < n) (hk : k ∣ n) (ha : a % k = 0) :
    a - getAligned n a + k ≤ n := by
  have hkpos : 0 < k := Nat.pos_of_dvd_of_pos hk hn
  have hword := (getAligned_eq_iff hn (getAligned_mod n a)).mp (rfl : getAligned n a = _)
  have hlast : getAligned n (a + (k - 1)) = getAligned n a := by
    rw [← getAligned_getAligned hk, (getAligned_eq_iff hkpos ha).mpr ⟨by omega, by omega⟩]
  have := (getAligned_eq_iff hn (getAligned_mod n a)).mp hlast
  omega

end Alignment

/-! ### Traps in a text -/

/-- A trap instruction and its bytes in memory. -/
structure Trap where
  size : Nat
  pos : 0 < size
  byte : Nat → Byte

namespace Trap

variable (trap : Trap)

/-- The address of the instruction that the byte at `x` belongs to. -/
def slot (x : Nat) : Nat := getAligned trap.size x

/-- `text` with the trap at the addresses in `planted`. -/
def overlay (text : Memory) (planted : Finset Nat) : Memory :=
  fun x => if trap.slot x ∈ planted then trap.byte (x - trap.slot x) else text x

theorem slot_eq_iff {a x : Nat} (ha : a % trap.size = 0) :
    trap.slot x = a ↔ a ≤ x ∧ x < a + trap.size := getAligned_eq_iff trap.pos ha

theorem slot_add {a j : Nat} (ha : a % trap.size = 0) (hj : j < trap.size) :
    trap.slot (a + j) = a :=
  (trap.slot_eq_iff ha).mpr ⟨by omega, by omega⟩

/-- Overwriting an instruction with the trap plants it. -/
theorem overwrite_byte (text : Memory) (planted : Finset Nat) {a : Nat} (ha : a % trap.size = 0) :
    overwrite (trap.overlay text planted) a trap.size trap.byte =
      trap.overlay text (insert a planted) := by
  funext x
  simp only [overwrite, overlay, ← trap.slot_eq_iff ha, Finset.mem_insert]
  by_cases hx : trap.slot x = a
  · simp [hx]
  · simp [hx]

/-- Overwriting an instruction with the one of the text removes the trap. -/
theorem overwrite_text (text : Memory) (planted : Finset Nat) {a : Nat} {f : Nat → Byte}
    (ha : a % trap.size = 0) (hf : ∀ j < trap.size, f j = text (a + j)) :
    overwrite (trap.overlay text planted) a trap.size f =
      trap.overlay text (planted.erase a) := by
  funext x
  simp only [overwrite, overlay, Finset.mem_erase]
  by_cases hx : trap.slot x = a
  · have hrange := (trap.slot_eq_iff ha).mp hx
    rw [if_pos hrange, if_neg (by simp [hx]), hf _ (by omega)]
    congr 1
    omega
  · rw [if_neg (fun h => hx ((trap.slot_eq_iff ha).mpr h))]
    simp [hx]

end Trap

namespace Arch

/-- The number of bytes and the value of the trap instruction. -/
def trapWord : Arch → Nat × Nat
  | .i386 | .x86_64 => (1, 0xcc)
  | .powerpc => (4, 0x7fe00008)
  | .arm => (4, 0xfedeffe7)
  | .aarch64 => (4, 0xd4200000)
  | .riscv64 => (4, 0x00100073)
  | .loongarch64 => (4, 0x002a0004)
  | .sparc64 => (4, 0x91d02001)

def trap (arch : Arch) : Trap where
  size := arch.trapWord.1
  pos := by cases arch <;> decide
  byte j := ((arch.byteOrder.encode arch.trapWord.1 arch.trapWord.2)[j]?).getD 0

/-- What the address of an instruction is a multiple of. -/
def instructionAlign : Arch → Nat
  | .i386 | .x86_64 => 1
  | .riscv64 => 2
  | .powerpc | .arm | .aarch64 | .loongarch64 | .sparc64 => 4

end Arch

theorem trap_size_dvd (arch : Arch) : arch.trap.size ∣ arch.wordSize := by
  cases arch <;> decide

theorem wordSize_pos (arch : Arch) : 0 < arch.wordSize := by cases arch <;> decide

/-- `arch_setupBreakpoint` puts the trap instruction at `addr` and changes no other byte. -/
def SetupIsLocal (arch : Arch) : Prop :=
  ∀ (addr : Nat) (cur : BitVec (8 * arch.wordSize)), addr % arch.instructionAlign = 0 →
    ∀ j < arch.wordSize,
      byteOf arch.byteOrder arch.wordSize (archSetupBreakpoint arch addr cur) j =
        if addr - getAligned arch.wordSize addr ≤ j ∧
          j < addr - getAligned arch.wordSize addr + arch.trap.size
        then arch.trap.byte (j - (addr - getAligned arch.wordSize addr))
        else byteOf arch.byteOrder arch.wordSize cur j

section Setup

/-- The bytes of a word whose field at a byte offset is replaced by the trap instruction. -/
theorem byteOf_trap {n k v j : Nat} (o : Nat) (x : BitVec (8 * n)) (hv : v < 256 ^ k) (hk : k ≤ n)
    (hj : j < n) :
    byteOf .little n ((x &&& ~~~(BitVec.ofNat (8 * n) (2 ^ (8 * k) - 1) <<< (8 * o))) |||
        (BitVec.ofNat (8 * n) v <<< (8 * o))) j =
      if o ≤ j ∧ j < o + k then ((Endian.little.encode k v)[j - o]?).getD 0
      else byteOf .little n x j := by
  have hvn : v < 256 ^ n := hv.trans_le (Nat.pow_le_pow_right (by omega) hk)
  have hval : (BitVec.ofNat (8 * n) v).toNat = v := by
    rw [BitVec.toNat_ofNat, pow_mul]
    exact Nat.mod_eq_of_lt hvn
  rw [byteOf_replaceField x _ o k (by rw [hval, pow_mul]; exact hv) hj]
  by_cases hin : o ≤ j ∧ j < o + k
  · rw [if_pos hin, if_pos hin, byteOf, extractLsb'_ofNat hvn, Endian.encode,
      getElem?_littleBytes v (by omega), Option.getD_some]
  · rw [if_neg hin, if_neg hin]

/-- The architectures that replace a field of a little-endian word. -/
def fieldArchs : List Arch := [.i386, .x86_64, .aarch64, .loongarch64]

theorem archSetupBreakpoint_field {arch : Arch} (h : arch ∈ fieldArchs) {n : Nat} (addr : Nat)
    (cur : BitVec (8 * n)) :
    archSetupBreakpoint arch addr cur =
      (cur &&& ~~~(BitVec.ofNat (8 * n) (2 ^ (8 * arch.trap.size) - 1) <<<
        (8 * (addr - getAligned n addr)))) |||
      (BitVec.ofNat (8 * n) arch.trapWord.2 <<< (8 * (addr - getAligned n addr))) := by
  have hn : 8 * n / 8 = n := by omega
  simp only [fieldArchs, List.mem_cons, List.not_mem_nil, or_false] at h
  rcases h with rfl | rfl | rfl | rfl <;> simp only [archSetupBreakpoint, hn] <;> rfl

theorem setupIsLocal_field {arch : Arch} (h : arch ∈ fieldArchs) : SetupIsLocal arch := by
  intro addr cur _ j hj
  have hlittle : arch.byteOrder = .little := by revert h; cases arch <;> decide
  have hsmall : arch.trapWord.2 < 256 ^ arch.trap.size := by cases arch <;> decide
  have hsize : arch.trap.size ≤ arch.wordSize := by cases arch <;> decide
  rw [archSetupBreakpoint_field h, hlittle, byteOf_trap _ cur hsmall hsize hj]
  simp only [Arch.trap, hlittle]

/-- On riscv the whole word is replaced. -/
theorem not_setupIsLocal_riscv64 : ¬ SetupIsLocal .riscv64 := by
  intro h
  exact absurd (h 0 (BitVec.allOnes 64) rfl 4 (by decide)) (by decide)

/-- On sparc64, whose words are big-endian, the wrong half of the word is replaced. -/
theorem not_setupIsLocal_sparc64 : ¬ SetupIsLocal .sparc64 := by
  intro h
  exact absurd (h 0 0 rfl 0 (by decide)) (by decide)

end Setup

/-! ### The plan -/

/-- The addresses that are registered, those that have a trap in each process, and those that had
one in the active process when an address was registered. -/
structure Plan where
  registered : Finset Nat
  pending : List Nat
  active : Nat
  planted : Nat → Finset Nat
  snapshot : Nat → Finset Nat

namespace Plan

def start (child : Nat) : Plan :=
  { registered := ∅, pending := [], active := child, planted := fun _ => ∅, snapshot := fun _ => ∅ }

def step (t : Plan) : Event → Plan
  | .register addr =>
    if addr = 0 ∨ addr ∈ t.registered then t
    else
      { t with
        registered := insert addr t.registered
        pending := t.pending ++ [addr]
        snapshot := Function.update t.snapshot addr (t.planted t.active) }
  | .setupAll =>
    { t with
      pending := []
      planted := Function.update t.planted t.active (t.planted t.active ∪ t.pending.toFinset) }
  | .stop pid => { t with active := pid }
  | .clear addr =>
    if addr ∈ t.registered then
      { t with planted := Function.update t.planted t.active ((t.planted t.active).erase addr) }
    else t
  | .fork parent child => { t with planted := Function.update t.planted child (t.planted parent) }

def run (child : Nat) (evs : List Event) : Plan := evs.foldl step (start child)

/-- Only registered addresses are planted, and an address is registered before it is planted. -/
structure Valid (align : Nat) (t : Plan) : Prop where
  aligned : ∀ a ∈ t.registered, a % align = 0
  pending : ∀ a ∈ t.pending, a ∈ t.registered
  planted : ∀ p, t.planted p ⊆ t.registered
  snapshot : ∀ a ∈ t.registered, a ∉ t.snapshot a ∧ t.snapshot a ⊆ t.registered

theorem valid_start (align child : Nat) : (start child).Valid align := by
  constructor <;> simp [start]

theorem update_subset {r b : Finset Nat} {f : Nat → Finset Nat} (hf : ∀ p, f p ⊆ r) (hb : b ⊆ r)
    (q p : Nat) : Function.update f q b p ⊆ r :=
  (Function.forall_update_iff f fun _ s => s ⊆ r).mpr ⟨hb, fun p _ => hf p⟩ p

theorem valid_step {align : Nat} {t : Plan} (h : t.Valid align) (ev : Event)
    (hev : ∀ a, ev = .register a → a % align = 0) : (t.step ev).Valid align := by
  cases ev with
  | register addr =>
    rw [step]
    split
    next => exact h
    next hnew =>
      rw [not_or] at hnew
      have hsub := Finset.subset_insert addr t.registered
      refine ⟨?_, fun a ha => ?_, fun p => (h.planted p).trans hsub, fun a ha => ?_⟩
      · exact Finset.forall_mem_insert _ _ _ |>.mpr ⟨hev addr rfl, h.aligned⟩
      · rcases List.mem_append.mp ha with ha | ha
        · exact hsub (h.pending a ha)
        · rw [List.mem_singleton.mp ha]
          exact Finset.mem_insert_self _ _
      · show a ∉ Function.update t.snapshot addr _ a ∧ Function.update t.snapshot addr _ a ⊆ _
        by_cases heq : a = addr
        · rw [heq, Function.update_self]
          exact ⟨fun hmem => hnew.2 (h.planted _ hmem), (h.planted _).trans hsub⟩
        · rw [Function.update_of_ne heq]
          obtain ⟨hnot, hsnap⟩ := h.snapshot a (Finset.mem_of_mem_insert_of_ne ha heq)
          exact ⟨hnot, hsnap.trans hsub⟩
  | setupAll =>
    refine ⟨h.aligned, by simp [step], update_subset h.planted ?_ _, h.snapshot⟩
    exact Finset.union_subset (h.planted _) fun a ha => h.pending a (List.mem_toFinset.mp ha)
  | stop pid => exact ⟨h.aligned, h.pending, h.planted, h.snapshot⟩
  | clear addr =>
    rw [step]
    split
    next =>
      refine ⟨h.aligned, h.pending, update_subset h.planted ?_ _, h.snapshot⟩
      exact (Finset.erase_subset _ _).trans (h.planted _)
    next => exact h
  | fork parent child =>
    exact ⟨h.aligned, h.pending, update_subset h.planted (h.planted parent) _, h.snapshot⟩

theorem valid_run {align : Nat} (child : Nat) (evs : List Event)
    (hevs : ∀ a, .register a ∈ evs → a % align = 0) : (run child evs).Valid align := by
  induction evs using List.reverseRecOn with
  | nil => exact valid_start align child
  | append_singleton evs ev ih =>
    rw [run, List.foldl_append]
    refine valid_step (ih fun a ha => hevs a (List.mem_append_left _ ha)) ev fun a hev => hevs a ?_
    simp [hev]

end Plan

/-! ### The engine follows the plan -/

/-- Each process has the text with the planted traps, and each saved word the text with the traps
that were planted when it was saved. -/
structure Refines {arch : Arch} (text : Memory) (s : Tracer arch) (t : Plan) : Prop where
  active : s.activeChild = t.active
  pending : s.pendingBreakpoints = t.pending
  registered : ∀ a, (s.instructionMap a).isSome ↔ a ∈ t.registered
  memory : ∀ p, s.memory p = arch.trap.overlay text (t.planted p)
  saved : ∀ a w, s.instructionMap a = some w → ∀ j < arch.wordSize,
    byteOf arch.byteOrder arch.wordSize w j =
      arch.trap.overlay text (t.snapshot a) (getAligned arch.wordSize a + j)

section Steps

variable {arch : Arch} {text : Memory} {s : Tracer arch} {t : Plan}

theorem refines_start (text : Memory) (child : Nat) :
    Refines text (Tracer.start arch text child) (Plan.start child) := by
  refine ⟨rfl, rfl, fun a => by simp [Tracer.start, Plan.start], fun p => ?_, fun a w h => ?_⟩
  · funext x
    simp [Tracer.start, Plan.start, Trap.overlay]
  · simp [Tracer.start] at h

theorem refines_register (h : Refines text s t) (addr : Nat) :
    Refines text (s.step (.register addr)) (t.step (.register addr)) := by
  rw [Tracer.step, Tracer.registerBreakpoint, Plan.step]
  by_cases h0 : addr = 0
  · rw [if_pos h0, if_pos (Or.inl h0)]
    exact h
  by_cases hreg : addr ∈ t.registered
  · rw [if_neg h0, if_pos ((h.registered addr).mpr hreg), if_pos (Or.inr hreg)]
    exact h
  rw [if_neg h0, if_neg (fun hsome => hreg ((h.registered addr).mp hsome)),
    if_neg (not_or.mpr ⟨h0, hreg⟩)]
  refine ⟨h.active, ?_, fun a => ?_, h.memory, fun a w hw j hj => ?_⟩
  · exact congrArg (· ++ [addr]) h.pending
  · show (Function.update s.instructionMap addr _ a).isSome ↔ a ∈ insert addr t.registered
    rw [Function.update_apply, Finset.mem_insert]
    split
    next ha => simp [ha]
    next ha => rw [h.registered a, or_iff_right ha]
  · change Function.update s.instructionMap addr _ a = some w at hw
    show byteOf _ _ w j = arch.trap.overlay text (Function.update t.snapshot addr _ a) _
    rw [Function.update_apply] at hw ⊢
    split at hw
    next ha =>
      rw [if_pos ha, ← Option.some.inj hw, Tracer.peekWord, byteOf_loadWord _ _ _ hj, h.memory,
        h.active, ha]
    next ha =>
      rw [if_neg ha]
      exact h.saved a w hw j hj

/-- Setting a breakpoint overwrites one instruction of the active process. -/
theorem setupBreakpoint_memory (hlocal : SetupIsLocal arch) {a : Nat}
    (ha : a % arch.instructionAlign = 0) (hsize : arch.instructionAlign = arch.trap.size) :
    (s.setupBreakpoint a).memory = Function.update s.memory s.activeChild
      (overwrite (s.memory s.activeChild) a arch.trap.size arch.trap.byte) := by
  have hfits := offset_add_le (wordSize_pos arch) (trap_size_dvd arch) (hsize ▸ ha)
  have hstore : storeWord arch.byteOrder arch.wordSize (s.memory s.activeChild)
      (getAligned arch.wordSize a) (archSetupBreakpoint arch a
        (s.peekWord s.activeChild (getAligned arch.wordSize a))) =
      overwrite (s.memory s.activeChild)
        (getAligned arch.wordSize a + (a - getAligned arch.wordSize a)) arch.trap.size
        arch.trap.byte := by
    apply storeWord_eq_overwrite _ _ _ _ _ hfits
    intro j hj
    rw [hlocal a _ ha j hj, Tracer.peekWord, byteOf_loadWord _ _ _ hj]
  rw [Nat.add_sub_cancel' (getAligned_le _ a)] at hstore
  rw [Tracer.setupBreakpoint, Tracer.pokeWord, hstore]

/-- The loop of `setupAllBreakpoints` plants its addresses in the active process. -/
theorem foldl_setupBreakpoint (hlocal : SetupIsLocal arch)
    (hsize : arch.instructionAlign = arch.trap.size) (l : List Nat)
    (hl : ∀ a ∈ l, a % arch.instructionAlign = 0) (s : Tracer arch) (planted : Finset Nat)
    (hmem : s.memory s.activeChild = arch.trap.overlay text planted) :
    l.foldl Tracer.setupBreakpoint s =
      { s with
        memory := Function.update s.memory s.activeChild
          (arch.trap.overlay text (planted ∪ l.toFinset)) } := by
  induction l generalizing s planted with
  | nil =>
    rw [List.toFinset_nil, Finset.union_empty, ← hmem, Function.update_eq_self]
    rfl
  | cons a l ih =>
    obtain ⟨ha, hl⟩ := List.forall_mem_cons.mp hl
    have hset : s.setupBreakpoint a = { s with
        memory := Function.update s.memory s.activeChild
          (arch.trap.overlay text (insert a planted)) } := by
      have hm := setupBreakpoint_memory (s := s) hlocal ha hsize
      rw [hmem, Trap.overwrite_byte _ _ _ (hsize ▸ ha)] at hm
      rw [← hm]
      rfl
    rw [List.foldl_cons, hset, ih hl _ (insert a planted) (by simp)]
    rw [List.toFinset_cons, Finset.insert_union, Finset.union_insert, Function.update_idem]

theorem refines_setupAll (hlocal : SetupIsLocal arch)
    (hsize : arch.instructionAlign = arch.trap.size) (hvalid : t.Valid arch.instructionAlign)
    (h : Refines text s t) : Refines text (s.step .setupAll) (t.step .setupAll) := by
  have hpending : ∀ a ∈ s.pendingBreakpoints, a % arch.instructionAlign = 0 := by
    intro a ha
    exact hvalid.aligned a (hvalid.pending a (h.pending ▸ ha))
  rw [Tracer.step, Tracer.setupAllBreakpoints, foldl_setupBreakpoint hlocal hsize _ hpending s
    (t.planted t.active) (by rw [h.active]; exact h.memory _), h.pending, h.active]
  refine ⟨rfl, rfl, h.registered, fun p => ?_, h.saved⟩
  simp only [Plan.step, Function.update_apply]
  split
  · rfl
  · exact h.memory p

theorem refines_stop (h : Refines text s t) (pid : Nat) :
    Refines text (s.step (.stop pid)) (t.step (.stop pid)) :=
  ⟨rfl, h.pending, h.registered, h.memory, h.saved⟩

theorem refines_fork (h : Refines text s t) (parent child : Nat) :
    Refines text (s.step (.fork parent child)) (t.step (.fork parent child)) := by
  refine ⟨h.active, h.pending, h.registered, fun p => ?_, h.saved⟩
  simp only [Tracer.step, Plan.step, Function.update_apply]
  split
  · exact h.memory parent
  · exact h.memory p

/-- Clearing follows the plan if it removes one trap from the active process. -/
theorem refines_clear (h : Refines text s t) (addr : Nat)
    (hclear : addr ∈ t.registered → (s.step (.clear addr)).memory s.activeChild =
      arch.trap.overlay text ((t.planted t.active).erase addr)) :
    Refines text (s.step (.clear addr)) (t.step (.clear addr)) := by
  by_cases hreg : addr ∈ t.registered
  · obtain ⟨saved, hmap⟩ := Option.isSome_iff_exists.mp ((h.registered addr).mpr hreg)
    have hmem := hclear hreg
    simp only [Tracer.step, Tracer.clearBreakpoint, hmap, Tracer.pokeWord, Plan.step, if_pos hreg,
      Function.update_self] at hmem ⊢
    refine ⟨h.active, h.pending, h.registered, fun p => ?_, h.saved⟩
    rw [hmem, h.active]
    simp only [Function.update_apply]
    split
    · rfl
    · exact h.memory p
  · have hmap : s.instructionMap addr = none := by
      simpa using mt (h.registered addr).mp hreg
    simp only [Tracer.step, Tracer.clearBreakpoint, hmap, Plan.step, if_neg hreg]
    exact h

/-- On x86, clearing writes back one byte of the saved word. -/
theorem byteOf_clear_x86 {n : Nat} (hx86 : arch = .i386 ∨ arch = .x86_64) (addr : Nat)
    (saved cur : BitVec (8 * n)) {j : Nat} (hj : j < n) :
    byteOf .little n (archClearBreakpoint arch addr saved cur) j =
      if addr - getAligned n addr ≤ j ∧ j < addr - getAligned n addr + 1
      then byteOf .little n saved (addr - getAligned n addr + (j - (addr - getAligned n addr)))
      else byteOf .little n cur j := by
  have hn : 8 * n / 8 = n := by omega
  generalize ho : addr - getAligned n addr = o
  have hclear : archClearBreakpoint arch addr saved cur =
      (cur &&& ~~~(BitVec.ofNat (8 * n) (2 ^ (8 * 1) - 1) <<< (8 * o))) |||
        (((saved >>> (8 * o)) &&& 0xff#(8 * n)) <<< (8 * o)) := by
    rcases hx86 with rfl | rfl <;> simp only [archClearBreakpoint, hn, ho] <;> rfl
  have hbyte : ((saved >>> (8 * o)) &&& 0xff#(8 * n)).toNat < 2 ^ (8 * 1) := by
    rw [BitVec.toNat_and, BitVec.toNat_ofNat]
    have h1 := Nat.and_le_right (n := (saved >>> (8 * o)).toNat) (m := 255 % 2 ^ (8 * n))
    have h2 := Nat.mod_le 255 (2 ^ (8 * n))
    omega
  rw [hclear, byteOf_replaceField cur _ o 1 hbyte hj]
  split
  next hin =>
    have hjo : j = o := by omega
    subst hjo
    apply BitVec.eq_of_getLsbD_eq
    intro i hi
    have h255 : Nat.testBit 255 i = true := by
      rw [show 255 = 2 ^ 8 - 1 from rfl, Nat.testBit_two_pow_sub_one]
      simpa using hi
    simp only [byteOf, BitVec.getLsbD_extractLsb', hi, decide_true, Bool.true_and, Nat.sub_self,
      Nat.mul_zero, Nat.zero_add, Nat.add_zero, BitVec.getLsbD_and, BitVec.getLsbD_ushiftRight,
      BitVec.getLsbD_ofNat, h255, Bool.and_true]
    have : i < 8 * n := by omega
    simp [this]
  next => rfl

/-- The saved word has the original instruction at the address for which it was saved. -/
theorem saved_own (hsize : arch.instructionAlign = arch.trap.size)
    (hvalid : t.Valid arch.instructionAlign) (h : Refines text s t) {addr : Nat}
    {saved : BitVec (8 * arch.wordSize)} (hmap : s.instructionMap addr = some saved) {j : Nat}
    (hj : j < arch.trap.size) :
    byteOf arch.byteOrder arch.wordSize saved (addr - getAligned arch.wordSize addr + j) =
      text (addr + j) := by
  have hreg := (h.registered addr).mp (by rw [hmap]; rfl)
  have halign : addr % arch.trap.size = 0 := hsize ▸ hvalid.aligned addr hreg
  have hfits := offset_add_le (wordSize_pos arch) (trap_size_dvd arch) halign
  have hle := getAligned_le arch.wordSize addr
  rw [h.saved addr saved hmap _ (by omega), Trap.overlay]
  rw [show getAligned arch.wordSize addr + (addr - getAligned arch.wordSize addr + j) = addr + j by
    omega, arch.trap.slot_add halign hj, if_neg (hvalid.snapshot addr hreg).1]

/-- On x86, clearing a breakpoint removes its trap from the active process. -/
theorem clear_memory_x86 (hx86 : arch = .i386 ∨ arch = .x86_64)
    (hvalid : t.Valid arch.instructionAlign) (h : Refines text s t) {addr : Nat}
    (hreg : addr ∈ t.registered) :
    (s.step (.clear addr)).memory s.activeChild =
      arch.trap.overlay text ((t.planted t.active).erase addr) := by
  obtain ⟨saved, hmap⟩ := Option.isSome_iff_exists.mp ((h.registered addr).mpr hreg)
  have hsize : arch.instructionAlign = arch.trap.size := by rcases hx86 with rfl | rfl <;> rfl
  have hlittle : arch.byteOrder = .little := by rcases hx86 with rfl | rfl <;> rfl
  have hone : arch.trap.size = 1 := by rcases hx86 with rfl | rfl <;> rfl
  have halign : addr % arch.trap.size = 0 := hsize ▸ hvalid.aligned addr hreg
  have hfits := offset_add_le (wordSize_pos arch) (trap_size_dvd arch) halign
  have hown := fun j => saved_own (j := j) hsize hvalid h hmap
  simp only [Tracer.step, Tracer.clearBreakpoint, hmap, Tracer.pokeWord, Function.update_self]
  rw [storeWord_eq_overwrite (o := addr - getAligned arch.wordSize addr) (k := arch.trap.size)
    arch.byteOrder _ _ _ (fun j => byteOf arch.byteOrder arch.wordSize saved
      (addr - getAligned arch.wordSize addr + j)) hfits, Nat.add_sub_cancel' (getAligned_le _ addr),
    h.memory, h.active, arch.trap.overwrite_text _ _ halign hown]
  intro j hj
  rw [hlittle, byteOf_clear_x86 hx86 addr saved _ hj, Tracer.peekWord, hlittle,
    byteOf_loadWord _ _ _ hj, hone]

end Steps

/-! ### Transparency on x86 -/

section X86

variable {arch : Arch}

theorem refines_run_x86 (hx86 : arch = .i386 ∨ arch = .x86_64) (text : Memory) (child : Nat)
    (evs : List Event) :
    Refines text (Tracer.run arch text child evs) (Plan.run child evs) ∧
      (Plan.run child evs).Valid arch.instructionAlign := by
  have hone : arch.instructionAlign = 1 := by rcases hx86 with rfl | rfl <;> rfl
  have hvalid : ∀ evs, (Plan.run child evs).Valid arch.instructionAlign := by
    intro evs
    exact Plan.valid_run child evs fun a _ => by rw [hone, Nat.mod_one]
  refine ⟨?_, hvalid evs⟩
  have hlocal : SetupIsLocal arch := setupIsLocal_field (by rcases hx86 with rfl | rfl <;> decide)
  have hsize : arch.instructionAlign = arch.trap.size := by rcases hx86 with rfl | rfl <;> rfl
  induction evs using List.reverseRecOn with
  | nil => exact refines_start text child
  | append_singleton evs ev ih =>
    rw [Tracer.run, Plan.run, List.foldl_append, List.foldl_append]
    cases ev with
    | register addr => exact refines_register ih addr
    | setupAll => exact refines_setupAll hlocal hsize (hvalid evs) ih
    | stop pid => exact refines_stop ih pid
    | clear addr => exact refines_clear ih addr (clear_memory_x86 hx86 (hvalid evs) ih)
    | fork parent child => exact refines_fork ih parent child

/-- Breakpoints are transparent on x86: after any run each byte of the text is the original one or
the trap of a registered breakpoint, and clearing a registered breakpoint restores its byte. -/
theorem breakpoints_transparent (hx86 : arch = .i386 ∨ arch = .x86_64) (text : Memory)
    (child : Nat) (evs : List Event) :
    (∀ p x, (Tracer.run arch text child evs).memory p x = text x ∨
      ((Tracer.run arch text child evs).instructionMap x).isSome ∧
        (Tracer.run arch text child evs).memory p x = 0xcc) ∧
    ∀ addr, ((Tracer.run arch text child evs).instructionMap addr).isSome →
      ((Tracer.run arch text child evs).step (.clear addr)).memory
        (Tracer.run arch text child evs).activeChild addr = text addr := by
  obtain ⟨href, hvalid⟩ := refines_run_x86 hx86 text child evs
  have hslot : ∀ x, arch.trap.slot x = x := by
    intro x
    rcases hx86 with rfl | rfl <;> exact (Nat.mul_one _).trans (Nat.div_one x)
  have hbyte : arch.trap.byte 0 = 0xcc := by rcases hx86 with rfl | rfl <;> rfl
  refine ⟨fun p x => ?_, fun addr hmap => ?_⟩
  · rw [href.memory, Trap.overlay, hslot]
    by_cases hx : x ∈ (Plan.run child evs).planted p
    · rw [if_pos hx, Nat.sub_self]
      exact Or.inr ⟨(href.registered x).mpr (hvalid.planted p hx), hbyte⟩
    · exact Or.inl (if_neg hx)
  · rw [clear_memory_x86 hx86 hvalid href ((href.registered addr).mp hmap), Trap.overlay, hslot]
    exact if_neg (Finset.notMem_erase _ _)

/-- Two breakpoints in one word of an i386 process, of which one has been hit. -/
theorem breakpoints_transparent_i386 :
    ((Tracer.run .i386 (fun _ => 0x90) 1 [.register 64, .register 65, .setupAll, .stop 1,
      .clear 64]).step (.clear 65)).memory 1 65 = 0x90 :=
  (breakpoints_transparent (Or.inl rfl) (fun _ => 0x90) 1
    [.register 64, .register 65, .setupAll, .stop 1, .clear 64]).2 65 (by decide)

end X86

/-! ### Locality on the other 64-bit architectures -/

section Local

variable {arch : Arch} {text : Memory} {s : Tracer arch} {t : Plan}

/-- Clearing a registered breakpoint restores its instruction in the active process and changes no
other byte. -/
def LocalAt (text : Memory) (s : Tracer arch) : Event → Prop
  | .clear addr => (s.instructionMap addr).isSome →
      (∀ j < arch.trap.size,
        (s.step (.clear addr)).memory s.activeChild (addr + j) = text (addr + j)) ∧
      ∀ x, ¬(addr ≤ x ∧ x < addr + arch.trap.size) →
        (s.step (.clear addr)).memory s.activeChild x = s.memory s.activeChild x
  | _ => True

/-- Every other instruction in the word of a breakpoint that is cleared has a trap in the active
process if and only if it had one when the breakpoint was registered, or else it is itself the same
as a trap. -/
def SafeAt (arch : Arch) (text : Memory) (t : Plan) : Event → Prop
  | .clear addr => addr ∈ t.registered → ∀ b, b % arch.trap.size = 0 → b ≠ addr →
      getAligned arch.wordSize b = getAligned arch.wordSize addr →
      (b ∈ t.planted t.active ↔ b ∈ t.snapshot addr) ∨
        ∀ j < arch.trap.size, text (b + j) = arch.trap.byte j
  | _ => True

/-- Breakpoints are set and cleared without a change to other instructions. -/
def PatchingIsLocal (arch : Arch) (text : Memory) (child : Nat) (evs : List Event) : Prop :=
  SetupIsLocal arch ∧ AllSteps (fun pre => LocalAt text (Tracer.run arch text child pre)) evs

/-- Without a field to replace, clearing writes back the whole saved word. -/
theorem clear_memory_word (hword : arch ≠ .i386 ∧ arch ≠ .x86_64) (h : Refines text s t)
    {addr : Nat} {saved : BitVec (8 * arch.wordSize)} (hmap : s.instructionMap addr = some saved)
    (x : Nat) :
    (s.step (.clear addr)).memory s.activeChild x =
      arch.trap.overlay text (if getAligned arch.wordSize x = getAligned arch.wordSize addr
        then t.snapshot addr else t.planted t.active) x := by
  have hclear : ∀ cur, archClearBreakpoint arch addr saved cur = saved := by
    intro cur
    obtain ⟨h1, h2⟩ := hword
    cases arch <;> first | rfl | contradiction
  simp only [Tracer.step, Tracer.clearBreakpoint, hmap, Tracer.pokeWord, Function.update_self,
    hclear, storeWord, getAligned_eq_iff (wordSize_pos arch) (getAligned_mod _ addr)]
  split
  next hx =>
    rw [h.saved addr saved hmap _ (by omega), Nat.add_sub_cancel' hx.1]
  next => rw [h.memory, h.active]

/-- An overlay has the same instruction at `b` for two sets if `b` is in both or in neither, or if
the text has a trap there. -/
theorem overlay_eq_iff {trap : Trap} {p q : Finset Nat} {b : Nat} (hb : b % trap.size = 0) :
    (∀ j < trap.size, trap.overlay text p (b + j) = trap.overlay text q (b + j)) ↔
      ((b ∈ p ↔ b ∈ q) ∨ ∀ j < trap.size, text (b + j) = trap.byte j) := by
  have hoverlay : ∀ (r : Finset Nat) (j : Nat), j < trap.size → trap.overlay text r (b + j) =
      if b ∈ r then trap.byte j else text (b + j) := by
    intro r j hj
    rw [Trap.overlay, trap.slot_add hb hj, Nat.add_sub_cancel_left]
  constructor
  · intro h
    by_cases hiff : b ∈ p ↔ b ∈ q
    · exact Or.inl hiff
    · refine Or.inr fun j hj => ?_
      have hj' := h j hj
      rw [hoverlay p j hj, hoverlay q j hj] at hj'
      by_cases hp : b ∈ p
      · rw [if_pos hp, if_neg (fun hq => hiff (iff_of_true hp hq))] at hj'
        exact hj'.symm
      · rw [if_neg hp, if_pos (by tauto)] at hj'
        exact hj'
  · rintro (hiff | htrap) j hj
    · rw [hoverlay p j hj, hoverlay q j hj]
      simp only [hiff]
    · rw [hoverlay p j hj, hoverlay q j hj, htrap j hj, ite_self, ite_self]

/-- Along the plan, a clear is local if and only if it is safe. -/
theorem localAt_clear_iff (hword : arch ≠ .i386 ∧ arch ≠ .x86_64)
    (hsize : arch.instructionAlign = arch.trap.size) (hvalid : t.Valid arch.instructionAlign)
    (h : Refines text s t) (addr : Nat) :
    LocalAt text s (.clear addr) ↔ SafeAt arch text t (.clear addr) := by
  simp only [LocalAt, SafeAt, h.registered]
  apply imp_congr_right
  intro hreg
  obtain ⟨saved, hmap⟩ := Option.isSome_iff_exists.mp ((h.registered addr).mpr hreg)
  have halign : addr % arch.trap.size = 0 := hsize ▸ hvalid.aligned addr hreg
  have hafter := clear_memory_word hword h hmap
  have hnot := (hvalid.snapshot addr hreg).1
  have hword_slot : ∀ x, getAligned arch.wordSize (arch.trap.slot x) = getAligned arch.wordSize x :=
    fun x => getAligned_getAligned (trap_size_dvd arch)
  constructor
  · rintro ⟨-, hother⟩ b hb hne hsame
    rw [iff_comm, ← overlay_eq_iff hb]
    intro j hj
    have hslot := arch.trap.slot_add hb hj
    have hx := hother (b + j) fun hin => hne (hslot.symm.trans ((arch.trap.slot_eq_iff halign).mpr hin))
    rw [hafter, if_pos (by rw [← hword_slot, hslot, hsame]), h.memory, h.active] at hx
    exact hx
  · intro hsafe
    refine ⟨fun j hj => ?_, fun x hx => ?_⟩
    · have hslot := arch.trap.slot_add halign hj
      rw [hafter, if_pos (by rw [← hword_slot, hslot]), Trap.overlay, hslot, if_neg hnot]
    · rw [hafter, h.memory, h.active]
      split
      next hsame =>
        have hb : arch.trap.slot x % arch.trap.size = 0 := getAligned_mod _ _
        have hle : arch.trap.slot x ≤ x := getAligned_le _ _
        have hlt := ((arch.trap.slot_eq_iff hb).mp rfl).2
        have hcase := hsafe (arch.trap.slot x) hb
          (fun heq => hx ((arch.trap.slot_eq_iff halign).mp heq)) (by rw [hword_slot, hsame])
        rw [iff_comm, ← overlay_eq_iff hb] at hcase
        have hbyte := hcase (x - arch.trap.slot x) (by omega)
        rw [Nat.add_sub_cancel' hle] at hbyte
        exact hbyte
      next => rfl

/-- A local clear removes one trap from the active process. -/
theorem clear_memory_local (hsize : arch.instructionAlign = arch.trap.size)
    (hvalid : t.Valid arch.instructionAlign) (h : Refines text s t) {addr : Nat}
    (hlocal : LocalAt text s (.clear addr)) (hreg : addr ∈ t.registered) :
    (s.step (.clear addr)).memory s.activeChild =
      arch.trap.overlay text ((t.planted t.active).erase addr) := by
  obtain ⟨hown, hother⟩ := hlocal ((h.registered addr).mpr hreg)
  have halign : addr % arch.trap.size = 0 := hsize ▸ hvalid.aligned addr hreg
  rw [← arch.trap.overwrite_text text (t.planted t.active) halign (fun j _ => rfl), ← h.active,
    ← h.memory]
  funext x
  rw [overwrite]
  split
  next hin =>
    have hx := hown (x - addr) (by omega)
    rw [Nat.add_sub_cancel' hin.1] at hx
    rw [hx, Nat.add_sub_cancel' hin.1]
  next hout => exact hother x hout

/-- Up to the first clear that is not safe, the engine follows the plan. -/
theorem allSteps_local_iff (hword : arch ≠ .i386 ∧ arch ≠ .x86_64) (hlocal : SetupIsLocal arch)
    (hsize : arch.instructionAlign = arch.trap.size) (text : Memory) (child : Nat)
    (evs : List Event) (hevs : ∀ a, .register a ∈ evs → a % arch.instructionAlign = 0) :
    (AllSteps (fun pre => LocalAt text (Tracer.run arch text child pre)) evs ↔
      AllSteps (fun pre => SafeAt arch text (Plan.run child pre)) evs) ∧
    (AllSteps (fun pre => LocalAt text (Tracer.run arch text child pre)) evs →
      Refines text (Tracer.run arch text child evs) (Plan.run child evs)) := by
  induction evs using List.reverseRecOn with
  | nil =>
    exact ⟨iff_of_true allSteps_nil allSteps_nil, fun _ => refines_start text child⟩
  | append_singleton evs ev ih =>
    have hevs' : ∀ a, .register a ∈ evs → a % arch.instructionAlign = 0 :=
      fun a ha => hevs a (List.mem_append_left _ ha)
    obtain ⟨hiff, href⟩ := ih hevs'
    have hvalid := Plan.valid_run child evs hevs'
    rw [allSteps_snoc, allSteps_snoc, ← hiff]
    refine ⟨and_congr_right fun hall => ?_, fun ⟨hall, hlast⟩ => ?_⟩
    · cases ev with
      | clear addr => exact localAt_clear_iff hword hsize hvalid (href hall) addr
      | _ => exact Iff.rfl
    · have h := href hall
      rw [Tracer.run, Plan.run, List.foldl_append, List.foldl_append]
      cases ev with
      | register addr => exact refines_register h addr
      | setupAll => exact refines_setupAll hlocal hsize hvalid h
      | stop pid => exact refines_stop h pid
      | clear addr => exact refines_clear h addr (clear_memory_local hsize hvalid h hlast)
      | fork parent child => exact refines_fork h parent child

/-- On the other 64-bit architectures, patching is local exactly on aarch64 and loongarch64 and in
the runs in which every clear is safe. -/
theorem patchingIsLocal_iff (harch : arch ∈ [.aarch64, .riscv64, .loongarch64, .sparc64])
    (text : Memory) (child : Nat) (evs : List Event)
    (hevs : ∀ a, .register a ∈ evs → a % arch.instructionAlign = 0) :
    PatchingIsLocal arch text child evs ↔ (arch = .aarch64 ∨ arch = .loongarch64) ∧
      AllSteps (fun pre => SafeAt arch text (Plan.run child pre)) evs := by
  by_cases hin : arch = .aarch64 ∨ arch = .loongarch64
  · have hword : arch ≠ .i386 ∧ arch ≠ .x86_64 := by rcases hin with rfl | rfl <;> decide
    have hlocal : SetupIsLocal arch := setupIsLocal_field (by rcases hin with rfl | rfl <;> decide)
    have hsize : arch.instructionAlign = arch.trap.size := by rcases hin with rfl | rfl <;> rfl
    rw [PatchingIsLocal, and_iff_right hlocal, and_iff_right hin]
    exact (allSteps_local_iff hword hlocal hsize text child evs hevs).1
  · refine iff_of_false (fun h => ?_) fun h => hin h.1
    simp only [List.mem_cons, List.not_mem_nil, or_false] at harch
    rcases harch with rfl | rfl | rfl | rfl
    · exact hin (Or.inl rfl)
    · exact not_setupIsLocal_riscv64 h.1
    · exact hin (Or.inr rfl)
    · exact not_setupIsLocal_sparc64 h.1

/-- Two breakpoints in one word, of which the second is registered when the first is set, and hit
before it. -/
theorem patchingIsLocal_nested : PatchingIsLocal .aarch64 (fun _ => 0) 1
    [.register 64, .setupAll, .register 68, .setupAll, .clear 68, .clear 64] := by
  refine (patchingIsLocal_iff (by decide) (fun _ => 0) 1
    [.register 64, .setupAll, .register 68, .setupAll, .clear 68, .clear 64]
    (by simp [Arch.instructionAlign])).mpr ⟨Or.inl rfl, ?_⟩
  have hset : AllSteps (fun pre => SafeAt .aarch64 (fun _ => 0) (Plan.run 1 pre))
      [.register 64, .setupAll, .register 68, .setupAll] := by
    rintro pre ev hpre
    cases ev with
    | clear addr =>
      have hmem := hpre.subset (List.mem_append_right _ (List.mem_singleton_self _))
      simp at hmem
    | _ => trivial
  refine (allSteps_snoc.mpr ⟨allSteps_snoc.mpr ⟨hset, ?_⟩, ?_⟩ :
    AllSteps _ ([Event.register 64, .setupAll, .register 68, .setupAll] ++ [.clear 68] ++
      [.clear 64]))
  · -- The trap at 64 was there when 68 was registered.
    intro _ b _ hne _
    exact Or.inl (by simp [Plan.run, Plan.step, Plan.start, hne])
  · -- The one at 68 is as absent as it was when 64 was registered.
    intro _ b _ hne _
    exact Or.inl (by simp [Plan.run, Plan.step, Plan.start, hne])

/-- Two breakpoints in one word: when the first one is hit, the second one is lost. -/
theorem not_patchingIsLocal_two :
    ¬ PatchingIsLocal .aarch64 (fun _ => 0) 1
      [.register 64, .register 68, .setupAll, .clear 64] := by
  rintro ⟨hlocal, hall⟩
  have hsafe := (allSteps_local_iff (by decide) hlocal rfl _ 1 _
    (by simp [Arch.instructionAlign])).1.mp hall
  have hclear := hsafe [.register 64, .register 68, .setupAll] (.clear 64) (List.prefix_refl _)
    (by decide) 68 (by decide) (by decide) (by decide)
  rcases hclear with hiff | htrap
  · exact absurd hiff (by decide)
  · exact absurd (htrap 3 (by decide)) (by decide)

end Local

end Kcov.Ptrace
