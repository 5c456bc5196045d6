import Mathlib.Data.List.Pairwise
import Kcov.Lib.OrderedMap
import Kcov.Parsers.Elf

/-! The disassembler behind `--verify`: the sections by their addresses, each swept for instructions
once an address in it is verified. -/

namespace Kcov

open Bytes

/-- `Section`, without the flag. The copy of its data comes from `malloc`, which gives at most
`PTRDIFF_MAX` bytes. -/
structure Section where
  data : List Byte
  startAddress : U64
  fits : data.length < 2 ^ 63
  deriving DecidableEq, Repr

namespace Section

def size (s : Section) : U64 := BitVec.ofNat 64 s.data.length

def Contains (s : Section) (address : U64) : Prop :=
  s.startAddress.toNat ≤ address.toNat ∧ address.toNat < s.startAddress.toNat + s.data.length

end Section

/-- `disassembler_ftype`: the length of the instruction at an offset of a section, negative where
there is none. -/
abbrev Opcodes := Section → U64 → BitVec 32

section Sweep

variable (opcodes : Opcodes) (s : Section)

/-- The loop of `disassemble`: the addresses at which it finds instructions from `pc` on. -/
def Section.sweep : Nat → U64 → List U64
  | 0, _ => []
  | fuel + 1, pc =>
    let count := opcodes s pc
    if count.toInt < 0 then []
    else
      let next := pc + count.signExtend 64
      (pc + s.startAddress) :: if 0 < count.toInt ∧ next < s.size then sweep fuel next else []

/-- Every turn but the last moves on inside the section, and the first one is always made. -/
def Section.disassemble : List U64 := s.sweep opcodes (s.data.length + 1) 0

end Sweep

/-- An element of `m_cache`. -/
structure CachedSection where
  contents : Section
  disassembled : Bool
  deriving DecidableEq, Repr

/-- `BfdDisassembler`: the sections by their bases, and the keys of `m_instructions`. -/
structure Disassembler where
  cache : OrderedMap Nat CachedSection
  instructions : List U64

namespace Disassembler

/-- What `setup` leaves. -/
def setup : Disassembler := ⟨.empty, []⟩

def addSection (d : Disassembler) (s : Section) : Disassembler :=
  match d.cache.find? s.startAddress.toNat with
  | some _ => d
  | none => { d with cache := d.cache.insert s.startAddress.toNat ⟨s, false⟩ }

/-- How `lookupSection` ends. -/
inductive Lookup where
  | found (p : CachedSection)
  | null
  /-- `std::logic_error`. -/
  | thrown
  /-- The iterator is moved before the first entry. -/
  | beforeFirst
  deriving DecidableEq, Repr

variable (d : Disassembler) (address : U64)

/-- `lookupSection` from `--it` on. -/
def stepBack : Nat → Lookup
  | 0 => .beforeFirst
  | it + 1 =>
    match d.cache.entries[it]? with
    | none => .null
    | some (_, cur) =>
      let stop := cur.contents.startAddress + cur.contents.size - 1
      if address < cur.contents.startAddress then .thrown
      else if address > stop then .null
      else .found cur

def lookupSection : Lookup :=
  let it := d.cache.lowerBound address.toNat
  match d.cache.entries[it]? with
  | some (base, p) => if base = address.toNat then .found p else d.stepBack address it
  | none => d.stepBack address it

variable (opcodes : Opcodes)

/-- `disassemble` of an element of the cache. -/
def disassemble (p : CachedSection) : Disassembler :=
  if p.disassembled then d
  else
    { cache := d.cache.insert p.contents.startAddress.toNat { p with disassembled := true }
      instructions := d.instructions ++ p.contents.disassemble opcodes }

/-- `verify`, or `none` where the lookup fails. -/
def verify : Option (Bool × Disassembler) :=
  match d.lookupSection address with
  | .null => some (true, d)
  | .found p =>
    let d := d.disassemble opcodes p
    some (d.instructions.contains address, d)
  | .thrown | .beforeFirst => none

/-- What a sequence of calls of `verify` leaves. -/
def verifyAll : Disassembler → List U64 → Option Disassembler
  | d, [] => some d
  | d, address :: rest =>
    match d.verify address opcodes with
    | none => none
    | some (_, d) => verifyAll d rest

end Disassembler

/-! ### What the sweep reaches -/

section Decodes

variable (opcodes : Opcodes) (s : Section)

/-- The length of the instruction at an offset, by the library. -/
def Section.lengthAt (o : Nat) : Int := (opcodes s (BitVec.ofNat 64 o)).toInt

/-- The offsets that are decoded from `first` on: the next one is reached over an instruction that
is not empty, and lies inside the section. -/
inductive Section.Decodes (first : Nat) : Nat → Prop
  | first : 0 ≤ s.lengthAt opcodes first → Decodes first first
  | next {o o' : Nat} : Decodes first o → 0 < s.lengthAt opcodes o →
      (o' : Int) = o + s.lengthAt opcodes o → o' < s.data.length → 0 ≤ s.lengthAt opcodes o' →
      Decodes first o'

end Decodes

theorem toNat_add_signExtend {pc : U64} {count : BitVec 32} (hpc : pc.toNat < 2 ^ 63)
    (hcount : 0 ≤ count.toInt) :
    ((pc + count.signExtend 64).toNat : Int) = pc.toNat + count.toInt := by
  have hlt : count.toInt < 2 ^ 31 := BitVec.toInt_lt
  rw [BitVec.toNat_add, BitVec.signExtend, BitVec.toNat_ofInt, Int.emod_eq_of_lt hcount (by omega),
    Nat.mod_eq_of_lt (by omega)]
  omega

namespace Section

section Sweep

variable {opcodes : Opcodes} {s : Section}

theorem Decodes.lengthAt_nonneg {first o : Nat} (h : s.Decodes opcodes first o) :
    0 ≤ s.lengthAt opcodes first := by
  induction h with
  | first h => exact h
  | next _ _ _ _ _ ih => exact ih

/-- The instruction at the start comes first, the others are decoded from the offset behind it. -/
theorem decodes_iff_second {first o : Nat} :
    s.Decodes opcodes first o ↔ 0 ≤ s.lengthAt opcodes first ∧
      (o = first ∨ ∃ second : Nat, 0 < s.lengthAt opcodes first ∧
        (second : Int) = first + s.lengthAt opcodes first ∧ second < s.data.length ∧
        s.Decodes opcodes second o) := by
  constructor
  · intro h
    refine ⟨h.lengthAt_nonneg, ?_⟩
    induction h with
    | first => exact .inl rfl
    | @next o o' _ hpos ho' hlt hlength ih =>
      rcases ih with rfl | ⟨second, hfirst, hsecond, hinside, hdecodes⟩
      · exact .inr ⟨o', hpos, ho', hlt, .first hlength⟩
      · exact .inr ⟨second, hfirst, hsecond, hinside, .next hdecodes hpos ho' hlt hlength⟩
  · rintro ⟨hlength, rfl | ⟨second, hpos, hsecond, hinside, hdecodes⟩⟩
    · exact .first hlength
    · induction hdecodes with
      | first h => exact .next (.first hlength) hpos hsecond hinside h
      | next _ hpos' ho' hlt h ih => exact .next ih hpos' ho' hlt h

theorem toNat_size : s.size.toNat = s.data.length := by
  have hfits := s.fits
  rw [size, BitVec.toNat_ofNat, Nat.mod_eq_of_lt (by omega)]

/-- With fuel for the rest of the section the loop finds what is decoded from `pc` on. -/
theorem mem_sweep_iff {fuel : Nat} {pc a : U64} (hpc : pc.toNat < 2 ^ 63) (hpos : 0 < fuel)
    (hfuel : s.data.length < pc.toNat + fuel) :
    a ∈ s.sweep opcodes fuel pc ↔
      ∃ o, s.Decodes opcodes pc.toNat o ∧ a = BitVec.ofNat 64 o + s.startAddress := by
  induction fuel generalizing pc with
  | zero => omega
  | succ fuel ih =>
    have hlengthAt : s.lengthAt opcodes pc.toNat = (opcodes s pc).toInt := by
      rw [lengthAt, BitVec.ofNat_toNat, BitVec.setWidth_eq]
    have hfits := s.fits
    rw [sweep]
    by_cases hneg : (opcodes s pc).toInt < 0
    · rw [if_pos hneg]
      refine iff_of_false List.not_mem_nil ?_
      rintro ⟨o, ho, -⟩
      have hnonneg := ho.lengthAt_nonneg
      omega
    · have hnext := toNat_add_signExtend hpc (not_lt.mp hneg)
      rw [if_neg hneg, List.mem_cons]
      by_cases hgo : 0 < (opcodes s pc).toInt ∧ pc + (opcodes s pc).signExtend 64 < s.size
      · obtain ⟨hcount, hinside⟩ := hgo
        rw [BitVec.lt_def, toNat_size] at hinside
        rw [if_pos ⟨hcount, by rwa [BitVec.lt_def, toNat_size]⟩,
          ih (by omega) (by omega) (by omega)]
        constructor
        · rintro (rfl | ⟨o, ho, rfl⟩)
          · exact ⟨pc.toNat, .first (by omega), by simp⟩
          · have hdecodes : s.Decodes opcodes pc.toNat o :=
              decodes_iff_second.mpr ⟨by omega, .inr ⟨_, by omega, by omega, hinside, ho⟩⟩
            exact ⟨o, hdecodes, rfl⟩
        · rintro ⟨o, ho, rfl⟩
          obtain ⟨-, rfl | ⟨second, -, hsecond, -, hdecodes⟩⟩ := decodes_iff_second.mp ho
          · simp
          · have heq : second = (pc + (opcodes s pc).signExtend 64).toNat := by omega
            exact .inr ⟨o, heq ▸ hdecodes, rfl⟩
      · rw [if_neg hgo]
        constructor
        · rintro (rfl | h)
          · exact ⟨pc.toNat, .first (by omega), by simp⟩
          · simp at h
        · rintro ⟨o, ho, rfl⟩
          obtain ⟨-, rfl | ⟨second, hcount, hsecond, hinside, -⟩⟩ := decodes_iff_second.mp ho
          · simp
          · rw [BitVec.lt_def, toNat_size] at hgo
            omega

theorem mem_disassemble_iff {a : U64} :
    a ∈ s.disassemble opcodes ↔
      ∃ o, s.Decodes opcodes 0 o ∧ a = BitVec.ofNat 64 o + s.startAddress :=
  mem_sweep_iff (by simp) (by simp) (by simp)

theorem Decodes.lt_length {o : Nat} (hs : s.data ≠ []) (h : s.Decodes opcodes 0 o) :
    o < s.data.length := by
  cases h with
  | first => exact List.length_pos_iff.mpr hs
  | next _ _ _ hlt _ => exact hlt

end Sweep

end Section
/-! ### Sections that do not overlap -/

/-- The sections are not empty, lie below 2^64, and are pairwise disjoint. -/
structure Layout (sections : List Section) : Prop where
  nonempty : ∀ s ∈ sections, s.data ≠ []
  below : ∀ s ∈ sections, s.startAddress.toNat + s.data.length ≤ 2 ^ 64
  disjoint : sections.Pairwise fun s t => ∀ address, ¬(s.Contains address ∧ t.Contains address)

namespace Layout

variable {sections : List Section} {s t : Section} {address : U64}

theorem eq_of_contains (h : Layout sections) (hs : s ∈ sections) (ht : t ∈ sections)
    (hsa : s.Contains address) (hta : t.Contains address) : s = t := by
  by_contra hne
  have hsymm : Std.Symm fun s t : Section =>
      ∀ address, ¬(s.Contains address ∧ t.Contains address) :=
    ⟨fun _ _ hst address hts => hst address hts.symm⟩
  exact h.disjoint.forall hs ht hne address ⟨hsa, hta⟩

theorem contains_startAddress (h : Layout sections) (hs : s ∈ sections) :
    s.Contains s.startAddress :=
  ⟨le_rfl, Nat.lt_add_of_pos_right (List.length_pos_iff.mpr (h.nonempty s hs))⟩

theorem of_snoc (h : Layout (sections ++ [s])) : Layout sections where
  nonempty t ht := h.nonempty t (List.mem_append_left _ ht)
  below t ht := h.below t (List.mem_append_left _ ht)
  disjoint := (List.pairwise_append.mp h.disjoint).1

/-- Behind the last start at or before an address in a section there is no other. -/
theorem start_le (h : Layout sections) (hs : s ∈ sections) (ht : t ∈ sections)
    (ha : s.Contains address) (hle : t.startAddress.toNat ≤ address.toNat) :
    t.startAddress.toNat ≤ s.startAddress.toNat := by
  by_contra hlt
  have hst : s.Contains t.startAddress := ⟨by omega, hle.trans_lt ha.2⟩
  have heq := h.eq_of_contains hs ht hst (h.contains_startAddress ht)
  rw [heq] at hlt
  exact hlt le_rfl

end Layout

namespace Disassembler

variable {opcodes : Opcodes} {sections : List Section} {d : Disassembler} {s : Section}
variable {address : U64}

/-- The cache holds the sections, and the instructions are those of the disassembled ones. -/
structure Sound (opcodes : Opcodes) (sections : List Section) (d : Disassembler) : Prop where
  added : ∀ e ∈ d.cache.entries,
    e.1 = e.2.contents.startAddress.toNat ∧ e.2.contents ∈ sections
  cached : ∀ s ∈ sections, ∃ p, (s.startAddress.toNat, p) ∈ d.cache.entries ∧ p.contents = s
  instructions : ∀ a, a ∈ d.instructions ↔
    ∃ e ∈ d.cache.entries, e.2.disassembled = true ∧ a ∈ e.2.contents.disassemble opcodes

theorem sound_setup : Sound opcodes [] setup where
  added := by simp [setup, OrderedMap.empty]
  cached := by simp
  instructions := by simp [setup, OrderedMap.empty]

theorem Sound.addSection (h : Sound opcodes sections d) (hlayout : Layout (sections ++ [s])) :
    Sound opcodes (sections ++ [s]) (d.addSection s) := by
  have hs : s ∈ sections ++ [s] := by simp
  have hnew : ∀ t ∈ sections, t.startAddress.toNat ≠ s.startAddress.toNat := by
    intro t ht heq
    have hdisjoint := (List.pairwise_append.mp hlayout.disjoint).2.2 t ht s (by simp)
    refine hdisjoint s.startAddress ⟨?_, hlayout.contains_startAddress hs⟩
    rw [← BitVec.eq_of_toNat_eq heq]
    exact hlayout.contains_startAddress (List.mem_append_left _ ht)
  have hkeys : ∀ e ∈ d.cache.entries, e.1 ≠ s.startAddress.toNat := by
    intro e he
    rw [(h.added e he).1]
    exact hnew _ (h.added e he).2
  have hadd : d.addSection s =
      { d with cache := d.cache.insert s.startAddress.toNat ⟨s, false⟩ } := by
    rw [Disassembler.addSection, OrderedMap.find?_eq_none.mpr hkeys]
  rw [hadd]
  constructor
  case added =>
    intro e he
    rcases OrderedMap.mem_insert.mp he with rfl | ⟨he, -⟩
    · exact ⟨rfl, hs⟩
    · exact ⟨(h.added e he).1, List.mem_append_left _ (h.added e he).2⟩
  case cached =>
    intro t ht
    rw [List.mem_append, List.mem_singleton] at ht
    rcases ht with ht | rfl
    · obtain ⟨p, hp, hcontents⟩ := h.cached t ht
      exact ⟨p, OrderedMap.mem_insert.mpr (.inr ⟨hp, hkeys _ hp⟩), hcontents⟩
    · exact ⟨⟨t, false⟩, OrderedMap.mem_insert.mpr (.inl rfl), rfl⟩
  case instructions =>
    intro a
    rw [h.instructions a]
    constructor
    · rintro ⟨e, he, hdone, ha⟩
      exact ⟨e, OrderedMap.mem_insert.mpr (.inr ⟨he, hkeys e he⟩), hdone, ha⟩
    · rintro ⟨e, he, hdone, ha⟩
      rcases OrderedMap.mem_insert.mp he with rfl | ⟨he, -⟩
      · cases hdone
      · exact ⟨e, he, hdone, ha⟩

theorem sound_addSections (hlayout : Layout sections) :
    Sound opcodes sections (sections.foldl addSection setup) := by
  induction sections using List.reverseRecOn with
  | nil => exact sound_setup
  | append_singleton sections s ih =>
    rw [List.foldl_append]
    exact (ih hlayout.of_snoc).addSection hlayout

/-! ### The lookup -/

/-- The last address of a section does not wrap around, also at the end of the address space. -/
theorem toNat_stop (hlayout : Layout sections) (hs : s ∈ sections) :
    (s.startAddress + s.size - 1).toNat = s.startAddress.toNat + s.data.length - 1 := by
  have hbelow := hlayout.below s hs
  have hpos := List.length_pos_iff.mpr (hlayout.nonempty s hs)
  have hsize : s.size.toNat = s.data.length := Section.toNat_size
  bv_omega

theorem Sound.lookupSection_eq (h : Sound opcodes sections d) (hlayout : Layout sections)
    (hs : s ∈ sections) (ha : s.Contains address) :
    ∃ p, d.lookupSection address = .found p ∧ p.contents = s ∧
      (s.startAddress.toNat, p) ∈ d.cache.entries := by
  obtain ⟨p, hp, hcontents⟩ := h.cached s hs
  refine ⟨p, ?_, hcontents, hp⟩
  have hstarts : ∀ e ∈ d.cache.entries, e.1 ≤ address.toNat → e.1 ≤ s.startAddress.toNat := by
    intro e he hle
    rw [(h.added e he).1] at hle ⊢
    exact hlayout.start_le hs (h.added e he).2 ha hle
  rw [lookupSection]
  rcases ha.1.eq_or_lt with heq | hlt
  · rw [heq] at hp
    simp only [OrderedMap.getElem?_lowerBound_of_mem hp, if_true]
  · obtain ⟨i, hi, hentry⟩ :=
      OrderedMap.getElem?_before_lowerBound hp hlt fun e he hle => hstarts e he hle.le
    have hback : d.stepBack address (d.cache.lowerBound address.toNat) = .found p := by
      have hstop : ¬address > p.contents.startAddress + p.contents.size - 1 := by
        rw [gt_iff_lt, BitVec.lt_def, hcontents, toNat_stop hlayout hs]
        have hinside := ha.2
        omega
      have hstart : ¬address < p.contents.startAddress := by
        rw [BitVec.lt_def, hcontents]
        omega
      rw [hi]
      simp only [stepBack, hentry, if_neg hstart, if_neg hstop]
    cases hbound : d.cache.entries[d.cache.lowerBound address.toNat]? with
    | none => exact hback
    | some e =>
      obtain ⟨base, q⟩ := e
      have hne : base ≠ address.toNat := by
        intro heq
        have hle := hstarts _ (List.mem_of_getElem? hbound) heq.le
        omega
      simp only [if_neg hne, hback]

/-! ### Verifying addresses -/

theorem Sound.disassemble (h : Sound opcodes sections d) {k : Nat} {p : CachedSection}
    (hp : (k, p) ∈ d.cache.entries) : Sound opcodes sections (d.disassemble opcodes p) := by
  rw [Disassembler.disassemble]
  by_cases hdone : p.disassembled = true
  · rw [if_pos hdone]
    exact h
  · obtain ⟨hkey, hmem⟩ := h.added _ hp
    simp only at hkey hmem
    rw [if_neg hdone, ← hkey]
    constructor
    case added =>
      intro e he
      rcases OrderedMap.mem_insert.mp he with rfl | ⟨he, -⟩
      · exact ⟨hkey, hmem⟩
      · exact h.added e he
    case cached =>
      intro s hs
      obtain ⟨q, hq, hcontents⟩ := h.cached s hs
      by_cases hsame : s.startAddress.toNat = k
      · rw [hsame] at hq ⊢
        refine ⟨_, OrderedMap.mem_insert.mpr (.inl rfl), ?_⟩
        rw [OrderedMap.eq_of_mem hp hq]
        exact hcontents
      · exact ⟨q, OrderedMap.mem_insert.mpr (.inr ⟨hq, hsame⟩), hcontents⟩
    case instructions =>
      intro a
      rw [List.mem_append, h.instructions a]
      constructor
      · rintro (⟨e, he, hedone, ha⟩ | ha)
        · refine ⟨e, OrderedMap.mem_insert.mpr (.inr ⟨he, ?_⟩), hedone, ha⟩
          rintro rfl
          rw [OrderedMap.eq_of_mem hp he] at hdone
          exact hdone hedone
        · exact ⟨_, OrderedMap.mem_insert.mpr (.inl rfl), rfl, ha⟩
      · rintro ⟨e, he, hedone, ha⟩
        rcases OrderedMap.mem_insert.mp he with rfl | ⟨he, -⟩
        · exact .inr ha
        · exact .inl ⟨e, he, hedone, ha⟩

/-- Once its section is disassembled, an address in it is known exactly if the sweep reaches it. -/
theorem Sound.mem_instructions (h : Sound opcodes sections d) (hlayout : Layout sections)
    (hs : s ∈ sections) (ha : s.Contains address) {p : CachedSection} {k : Nat}
    (hp : (k, p) ∈ d.cache.entries) (hcontents : p.contents = s) (hdone : p.disassembled = true) :
    address ∈ d.instructions ↔
      s.Decodes opcodes 0 (address.toNat - s.startAddress.toNat) := by
  rw [h.instructions]
  constructor
  · rintro ⟨e, he, -, hmem⟩
    obtain ⟨o, ho, rfl⟩ := Section.mem_disassemble_iff.mp hmem
    have ht := (h.added e he).2
    have hlt := ho.lt_length (hlayout.nonempty _ ht)
    have hbelow := hlayout.below _ ht
    have haddress : (BitVec.ofNat 64 o + e.2.contents.startAddress).toNat =
        e.2.contents.startAddress.toNat + o := by
      rw [BitVec.toNat_add, BitVec.toNat_ofNat, Nat.mod_eq_of_lt (by omega : o < 2 ^ 64)]
      omega
    have hcontains : e.2.contents.Contains (BitVec.ofNat 64 o + e.2.contents.startAddress) :=
      ⟨by omega, by omega⟩
    have heq := hlayout.eq_of_contains ht hs hcontains ha
    rw [haddress, ← heq, Nat.add_sub_cancel_left]
    exact ho
  · intro hdecodes
    refine ⟨_, hp, hdone, ?_⟩
    rw [hcontents]
    refine Section.mem_disassemble_iff.mpr ⟨_, hdecodes, ?_⟩
    apply BitVec.eq_of_toNat_eq
    have hstart := ha.1
    have hlt := address.isLt
    rw [BitVec.toNat_add, BitVec.toNat_ofNat]
    omega

theorem Sound.verify_eq (h : Sound opcodes sections d) (hlayout : Layout sections)
    (hs : s ∈ sections) (ha : s.Contains address) :
    ∃ answer d', d.verify address opcodes = some (answer, d') ∧ Sound opcodes sections d' ∧
      (answer = true ↔ s.Decodes opcodes 0 (address.toNat - s.startAddress.toNat)) := by
  obtain ⟨p, hlookup, hcontents, hp⟩ := h.lookupSection_eq hlayout hs ha
  have hsound := h.disassemble hp
  refine ⟨_, _, by rw [verify, hlookup], hsound, ?_⟩
  have hdone : ∃ q, (s.startAddress.toNat, q) ∈ (d.disassemble opcodes p).cache.entries ∧
      q.contents = s ∧ q.disassembled = true := by
    rw [Disassembler.disassemble]
    by_cases hdone : p.disassembled = true
    · rw [if_pos hdone]
      exact ⟨p, hp, hcontents, hdone⟩
    · rw [if_neg hdone, hcontents]
      exact ⟨_, OrderedMap.mem_insert.mpr (.inl rfl), rfl, rfl⟩
  obtain ⟨q, hq, hqcontents, hqdone⟩ := hdone
  rw [List.contains_iff_mem, hsound.mem_instructions hlayout hs ha hq hqcontents hqdone]

theorem Sound.verifyAll_eq (h : Sound opcodes sections d) (hlayout : Layout sections)
    {addresses : List U64} (hall : ∀ a ∈ addresses, ∃ s ∈ sections, s.Contains a) :
    ∃ d', d.verifyAll opcodes addresses = some d' ∧ Sound opcodes sections d' := by
  induction addresses generalizing d with
  | nil => exact ⟨d, rfl, h⟩
  | cons a rest ih =>
    obtain ⟨s, hs, ha⟩ := hall a List.mem_cons_self
    obtain ⟨answer, d', hverify, hsound, -⟩ := h.verify_eq hlayout hs ha
    obtain ⟨d'', hrest, hsound'⟩ := ih hsound fun b hb => hall b (List.mem_cons_of_mem a hb)
    exact ⟨d'', by rw [verifyAll, hverify]; exact hrest, hsound'⟩

/-- Whatever has been verified before, an address is accepted exactly if the sweep of its section
reaches it. -/
theorem verify_iff_decodes (opcodes : Opcodes) {sections : List Section} (hlayout : Layout sections)
    {earlier : List U64} (hearlier : ∀ a ∈ earlier, ∃ s ∈ sections, s.Contains a)
    {s : Section} (hs : s ∈ sections) {address : U64} (ha : s.Contains address) :
    ∃ d, (sections.foldl addSection setup).verifyAll opcodes earlier = some d ∧
      (∃ p, d.lookupSection address = .found p ∧ p.contents = s) ∧
      ∃ answer d', d.verify address opcodes = some (answer, d') ∧
        (answer = true ↔ s.Decodes opcodes 0 (address.toNat - s.startAddress.toNat)) := by
  obtain ⟨d, hrun, hsound⟩ := (sound_addSections hlayout).verifyAll_eq hlayout hearlier
  obtain ⟨p, hlookup, hcontents, -⟩ := hsound.lookupSection_eq hlayout hs ha
  obtain ⟨answer, d', hverify, -, hanswer⟩ := hsound.verify_eq hlayout hs ha
  exact ⟨d, hrun, ⟨p, hlookup, hcontents⟩, answer, d', hverify, hanswer⟩

/-- `nop`, `xor %eax,%eax` and `ret`. -/
def nopXorRet : Section := ⟨[0x90, 0x31, 0xc0, 0xc3], 0x1000, by decide⟩

def ret : Section := ⟨[0xc3], 0x1004, by decide⟩

/-- The lengths of these instructions. -/
def opcodeLength : Opcodes := fun s pc =>
  match s.data[pc.toNat]? with
  | some 0x90 => 1
  | some 0x31 => 2
  | some 0xc3 => 1
  | _ => -1

theorem layout_nopXorRet : Layout [ret, nopXorRet] where
  nonempty := by decide
  below := by decide
  disjoint := by
    rw [List.pairwise_pair]
    rintro address ⟨h, h'⟩
    have hstart : ret.startAddress.toNat = 0x1004 := rfl
    have hstop : nopXorRet.startAddress.toNat + nopXorRet.data.length = 0x1004 := rfl
    have hle := h.1
    have hlt := h'.2
    omega

theorem verify_iff_decodes_xor :
    ∃ d, ([ret, nopXorRet].foldl addSection setup).verifyAll opcodeLength [0x1004] = some d ∧
      (∃ p, d.lookupSection 0x1002 = .found p ∧ p.contents = nopXorRet) ∧
      ∃ answer d', d.verify 0x1002 opcodeLength = some (answer, d') ∧
        (answer = true ↔ nopXorRet.Decodes opcodeLength 0 2) :=
  verify_iff_decodes opcodeLength layout_nopXorRet
    (by
      intro a ha
      rw [List.mem_singleton] at ha
      rw [ha]
      exact ⟨ret, List.mem_cons_self, by decide, by decide⟩)
    (List.mem_cons_of_mem _ List.mem_cons_self) ⟨by decide, by decide⟩

example : (([ret, nopXorRet].foldl addSection setup).verify 0x1002 opcodeLength).map Prod.fst =
    some false := by
  decide

end Disassembler
end Kcov
