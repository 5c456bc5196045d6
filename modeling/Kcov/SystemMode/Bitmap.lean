import Kcov.SystemMode.Memory
import Kcov.SystemMode.ProcessedFile
import Mathlib.Data.List.Induction

/-! The addresses that the reporting side gets are those whose breakpoints were hit. -/

namespace Kcov.SystemMode

open Bytes

/-! ### Bits -/

theorem and_shiftLeft_ne_zero {w : BitVec 32} {k : Nat} (hk : k < 32) :
    w &&& (1#32 <<< k) ≠ 0 ↔ w.getLsbD k = true := by
  rw [← BitVec.twoPow_eq, BitVec.and_twoPow]
  split
  · rename_i hbit
    simp only [hbit, iff_true]
    intro hzero
    have hset := congrArg (·.getLsbD k) hzero
    simp [hk] at hset
  · rename_i hbit
    simp [hbit]

theorem getLsbD_or_shiftLeft (w : BitVec 32) {j k : Nat} (hk : k < 32) :
    (w ||| (1#32 <<< k)).getLsbD j = true ↔ w.getLsbD j = true ∨ j = k := by
  rw [← BitVec.twoPow_eq, BitVec.getLsbD_or, BitVec.getLsbD_twoPow]
  simp only [Bool.or_eq_true, Bool.and_eq_true, decide_eq_true_eq, hk, true_and]
  rw [@eq_comm _ k j]

/-- The bit `j` of the word `k`. -/
def bitAt (words : List (BitVec 32)) (k j : Nat) : Bool := (words[k]?.getD 0).getLsbD j

theorem bitAt_nil (k j : Nat) : bitAt [] k j = false := by simp [bitAt]

theorem bitAt_replicate_zero (n k j : Nat) : bitAt (List.replicate n 0) k j = false := by
  unfold bitAt
  rw [List.getElem?_replicate]
  split <;> simp

theorem lt_of_bitAt {words : List (BitVec 32)} {k j : Nat} (h : bitAt words k j = true) :
    k < words.length := by
  by_contra hge
  unfold bitAt at h
  rw [List.getElem?_eq_none (by omega)] at h
  simp at h

/-- Setting one bit of a word. -/
theorem bitAt_set {words : List (BitVec 32)} {i b : Nat} {val : BitVec 32}
    (hval : words[i]? = some val) (hb : b < 32) (k j : Nat) :
    bitAt (words.set i (val ||| (1#32 <<< b))) k j = true ↔
      bitAt words k j = true ∨ (k = i ∧ j = b) := by
  have hlt := (List.getElem?_eq_some_iff.mp hval).choose
  unfold bitAt
  by_cases hk : k = i
  · subst hk
    rw [List.getElem?_set_self hlt, hval]
    simp only [Option.getD_some, getLsbD_or_shiftLeft val hb, true_and]
  · rw [List.getElem?_set_ne (Ne.symm hk)]
    simp [hk]

theorem index_eq_iff (i j : BitVec 32) :
    j = i ↔ (j / 32).toNat = (i / 32).toNat ∧ (j % 32).toNat = (i % 32).toNat := by
  rw [← BitVec.toNat_inj, BitVec.toNat_udiv, BitVec.toNat_udiv, BitVec.toNat_umod,
    BitVec.toNat_umod]
  have h32 : (32 : BitVec 32).toNat = 32 := rfl
  rw [h32]
  omega

theorem mod_32_lt (i : BitVec 32) : (i % 32).toNat < 32 := by
  rw [BitVec.toNat_umod]
  exact Nat.mod_lt _ (by decide)

namespace SystemModeMemory

theorem indexIsHit_eq_bitAt (m : SystemModeMemory) (i : BitVec 32) :
    m.indexIsHit i = bitAt m.data (i / 32).toNat (i % 32).toNat := by
  unfold indexIsHit bitAt
  split
  · rename_i hnone
    rw [hnone]
    simp
  · rename_i w hsome
    rw [hsome, Bool.eq_iff_iff, decide_eq_true_eq, and_shiftLeft_ne_zero (mod_32_lt i)]
    rfl

/-- Setting the bit of an index in its word. -/
theorem bitAt_set_index {words : List (BitVec 32)} {i : BitVec 32} {val : BitVec 32}
    (hval : words[(i / 32).toNat]? = some val) (j : BitVec 32) :
    bitAt (words.set (i / 32).toNat (val ||| (1#32 <<< (i % 32).toNat))) (j / 32).toNat
        (j % 32).toNat = true ↔
      bitAt words (j / 32).toNat (j % 32).toNat = true ∨ j = i := by
  rw [bitAt_set hval (mod_32_lt i), index_eq_iff i j]

/-- `reportIndex` sets its own bit, when the bitmap has it, and no other. -/
theorem indexIsHit_reportIndex (m : SystemModeMemory) (i j : BitVec 32) :
    (m.reportIndex i).indexIsHit j = true ↔
      m.indexIsHit j = true ∨ (j = i ∧ (i / 32).toNat < m.nEntries.toNat) := by
  unfold reportIndex
  rw [← m.size]
  split
  · rename_i hskip
    rw [Bool.or_eq_true, decide_eq_true_eq] at hskip
    constructor
    · exact Or.inl
    · rintro (hhit | ⟨rfl, hlt⟩)
      · exact hhit
      · exact hskip.resolve_right (by omega)
  · rename_i hskip
    rw [Bool.or_eq_true, decide_eq_true_eq, not_or] at hskip
    have hlt : (i / 32).toNat < m.data.length := by omega
    obtain ⟨val, hval⟩ : ∃ val, m.data[(i / 32).toNat]? = some val :=
      ⟨_, List.getElem?_eq_getElem hlt⟩
    rw [indexIsHit_eq_bitAt, indexIsHit_eq_bitAt]
    dsimp only
    rw [List.modify_eq_set, hval, Option.getD_some, bitAt_set_index hval]
    simp only [hlt, and_true]

@[simp] theorem filename_reportIndex (m : SystemModeMemory) (i : BitVec 32) :
    (m.reportIndex i).filename = m.filename := by
  unfold reportIndex
  split <;> rfl

@[simp] theorem options_reportIndex (m : SystemModeMemory) (i : BitVec 32) :
    (m.reportIndex i).options = m.options := by
  unfold reportIndex
  split <;> rfl

@[simp] theorem nEntries_reportIndex (m : SystemModeMemory) (i : BitVec 32) :
    (m.reportIndex i).nEntries = m.nEntries := by
  unfold reportIndex
  split <;> rfl

theorem exists_new (fn opts : List Byte) {n : BitVec 32} (h : n.toNat + 2 < 2 ^ 32) :
    ∃ m, new fn opts n = some m ∧ m.filename = fn ∧ m.options = opts ∧ m.nEntries = n ∧
      ∀ i, m.indexIsHit i = false := by
  refine ⟨_, if_pos h, rfl, rfl, rfl, fun i => ?_⟩
  rw [indexIsHit_eq_bitAt]
  exact bitAt_replicate_zero _ _ _

theorem counts_new {fn opts : List Byte} {n : BitVec 32} {m : SystemModeMemory}
    (h : new fn opts n = some m) : m.dirtyCount = 0 ∧ m.cleanCount = 0 := by
  obtain ⟨-, hm⟩ := Option.ite_none_right_eq_some.mp h
  cases hm
  exact ⟨rfl, rfl⟩

theorem isDirty_new {fn opts : List Byte} {n : BitVec 32} {m : SystemModeMemory}
    (h : new fn opts n = some m) : m.isDirty = false := by
  obtain ⟨hdirty, hclean⟩ := counts_new h
  rw [isDirty, hdirty, hclean]
  rfl

end SystemModeMemory

/-! ### From addresses to indices -/

section Attach

variable {entries : List (BitVec 64)} {a : BitVec 64}

theorem attach_append (entries : List (BitVec 64)) (b : BitVec 64) :
    ProcessHandler.attach (entries ++ [b]) =
      Function.update (ProcessHandler.attach entries) b
        (some (BitVec.ofNat 32 entries.length)) := by
  unfold ProcessHandler.attach
  rw [List.zipIdx_append, List.foldl_append]
  simp

/-- The index that an address gets is one of its places among the entries. -/
theorem getElem?_attach (hlen : entries.length < 2 ^ 32) {i : BitVec 32}
    (h : ProcessHandler.attach entries a = some i) : entries[i.toNat]? = some a := by
  induction entries using List.reverseRecOn with
  | nil => cases h
  | append_singleton entries b ih =>
    rw [List.length_append, List.length_singleton] at hlen
    rw [attach_append] at h
    by_cases hab : a = b
    · subst hab
      rw [Function.update_self] at h
      cases h
      rw [BitVec.toNat_ofNat, Nat.mod_eq_of_lt (by omega), List.getElem?_concat_length]
    · rw [Function.update_of_ne hab] at h
      have hget := ih (by omega) h
      rw [List.getElem?_append_left (List.getElem?_eq_some_iff.mp hget).choose]
      exact hget

theorem isSome_attach : (ProcessHandler.attach entries a).isSome ↔ a ∈ entries := by
  induction entries using List.reverseRecOn with
  | nil => simp [ProcessHandler.attach]
  | append_singleton entries b ih =>
    rw [attach_append]
    by_cases hab : a = b
    · simp [hab]
    · rw [Function.update_of_ne hab, ih]
      simp [hab]

end Attach

/-- What the events of a process leave in its memory. -/
structure Recorded (indexByAddress : BitVec 64 → Option (BitVec 32))
    (events : List (EngineEvent (BitVec 64))) (before after : SystemModeMemory) : Prop where
  filename : after.filename = before.filename
  options : after.options = before.options
  nEntries : after.nEntries = before.nEntries
  hit : ∀ j, after.indexIsHit j = true ↔ before.indexIsHit j = true ∨
    (j / 32).toNat < before.nEntries.toNat ∧
      ∃ ev ∈ events, ev.type = .breakpoint ∧ indexByAddress ev.addr = some j

theorem recorded_onEvent (indexByAddress : BitVec 64 → Option (BitVec 32))
    (m : SystemModeMemory) (ev : EngineEvent (BitVec 64)) :
    Recorded indexByAddress [ev] m (ProcessHandler.onEvent indexByAddress m ev) := by
  unfold ProcessHandler.onEvent
  split
  · rename_i htype
    split
    · rename_i hnone
      exact ⟨rfl, rfl, rfl, by simp [hnone]⟩
    · rename_i i hsome
      refine ⟨by simp, by simp, by simp, fun j => ?_⟩
      rw [SystemModeMemory.indexIsHit_reportIndex]
      simp only [List.mem_singleton, exists_eq_left, htype, hsome, Option.some.injEq, true_and]
      constructor
      · rintro (hhit | ⟨rfl, hlt⟩)
        · exact Or.inl hhit
        · exact Or.inr ⟨hlt, rfl⟩
      · rintro (hhit | ⟨hlt, rfl⟩)
        · exact Or.inl hhit
        · exact Or.inr ⟨rfl, hlt⟩
  · rename_i htype
    exact ⟨rfl, rfl, rfl, by simp [htype]⟩

theorem recorded_foldl (indexByAddress : BitVec 64 → Option (BitVec 32)) (m : SystemModeMemory)
    (events : List (EngineEvent (BitVec 64))) :
    Recorded indexByAddress events m
      (events.foldl (ProcessHandler.onEvent indexByAddress) m) := by
  induction events generalizing m with
  | nil => exact ⟨rfl, rfl, rfl, by simp⟩
  | cons ev events ih =>
    have hone := recorded_onEvent indexByAddress m ev
    have hrest := ih (ProcessHandler.onEvent indexByAddress m ev)
    rw [List.foldl_cons]
    refine ⟨hrest.filename.trans hone.filename, hrest.options.trans hone.options,
      hrest.nEntries.trans hone.nEntries, fun j => ?_⟩
    rw [hrest.hit, hone.hit, hone.nEntries]
    simp only [List.mem_cons, List.not_mem_nil, or_false, exists_eq_or_imp, exists_eq_left]
    tauto

/-! ### Through the file -/

section File

variable {host : Endian} {junk : Nat → Byte} {m : SystemModeMemory}

@[simp] theorem length_wordBytes (host : Endian) (words : List (BitVec 32)) :
    (wordBytes host words).length = words.length * 4 := by
  rw [Nat.mul_comm]
  exact length_flatMap_of_length (fun w : BitVec 32 => host.length_encode 4 w.toNat) words

theorem decodeWords_wordBytes (host : Endian) (words : List (BitVec 32)) :
    decodeWords host words.length (wordBytes host words) = words := by
  induction words with
  | nil => rfl
  | cons w words ih =>
    have hcons : wordBytes host (w :: words) = host.encode 4 w.toNat ++ wordBytes host words := rfl
    rw [List.length_cons, decodeWords, hcons, field_encode,
      ofNat_mod_pow (show 8 * 4 = 32 from rfl), List.drop_left' (Endian.length_encode host 4 w.toNat), ih]

/-- The offset of the file name. -/
def nameOffset (m : SystemModeMemory) : Nat := sizeofSystemModeFile + m.nEntries.toNat * 4

/-- The offset of the options, before it is cut to 32 bits. -/
def optionsOffset (m : SystemModeMemory) : Nat := nameOffset m + m.filename.length + 1

/-- The parts of the file of a memory, where the strings do not reach into the header. -/
structure FileImage (host : Endian) (m : SystemModeMemory) (file : List Byte) : Prop where
  size : nameOffset m ≤ file.length
  front : StandsAt file 0 (host.encode 4 systemModeFileMagic.toNat ++
    host.encode 4 systemModeFileVersion.toNat ++ host.encode 4 m.nEntries.toNat)
  offsets : StandsAt file 16 (host.encode 4 (nameOffset m) ++
    host.encode 4 (optionsOffset m % 2 ^ 32))
  words : StandsAt file sizeofSystemModeFile (wordBytes host m.data)
  strings : optionsOffset m < 2 ^ 32 → StandsAt file (nameOffset m) (cString m.filename ++ [0]) ∧
    StandsAt file (optionsOffset m) (cString m.options ++ [0])

/-- The number of entries stands behind two other words. -/
theorem field_nEntries {file : List Byte} {magic version : Nat} {n : BitVec 32}
    (h : StandsAt file 0 (host.encode 4 magic ++ host.encode 4 version ++ host.encode 4 n.toNat)) :
    field host file 8 4 = n.toNat := by
  obtain ⟨-, hn⟩ := standsAt_append.mp h
  simp only [List.length_append, Endian.length_encode] at hn
  rw [hn.field]
  exact Nat.mod_eq_of_lt n.isLt

theorem exists_write {buf data : List Byte} {off : Nat} (h : off + data.length ≤ buf.length) :
    ∃ out, write buf off data = some out :=
  ⟨_, write_eq_some.mpr ⟨h, rfl⟩⟩

theorem memoryToFile_image (hname : nameOffset m < 2 ^ 32)
    (hopts : sizeofSystemModeFile ≤ optionsOffset m % 2 ^ 32) :
    ∃ file, memoryToFile host junk m = some file ∧ FileImage host m file := by
  have hF : (BitVec.ofNat 32 (m.nEntries.toNat * 4 + sizeofSystemModeFile)).toNat =
      nameOffset m := by
    unfold nameOffset at hname ⊢
    rw [BitVec.toNat_ofNat, Nat.mod_eq_of_lt (by omega), Nat.add_comm]
  have hK : (BitVec.ofNat 32 (nameOffset m + m.filename.length + 1)).toNat =
      optionsOffset m % 2 ^ 32 := BitVec.toNat_ofNat _ _
  have hle : optionsOffset m % 2 ^ 32 ≤ optionsOffset m := Nat.mod_le _ _
  have hfn := length_cString m.filename
  have hop := length_cString m.options
  have hsize := m.size
  have hO : optionsOffset m = nameOffset m + m.filename.length + 1 := rfl
  have hN : nameOffset m = 24 + m.nEntries.toNat * 4 := rfl
  unfold sizeofSystemModeFile at hopts
  let block := (List.range (sizeofSystemModeFile + m.nEntries.toNat * 4 + m.filename.length +
    m.options.length + 2)).map junk
  have hblock : block.length = 24 + m.nEntries.toNat * 4 + m.filename.length +
      m.options.length + 2 := by simp [block, sizeofSystemModeFile]
  let front := host.encode 4 systemModeFileMagic.toNat ++
    host.encode 4 systemModeFileVersion.toNat ++ host.encode 4 m.nEntries.toNat
  have hfront : front.length = 12 := by simp [front]
  let offsets := host.encode 4 (nameOffset m) ++ host.encode 4 (optionsOffset m % 2 ^ 32)
  have hoffsets : offsets.length = 8 := by simp [offsets]
  have hnamelen : (cString m.filename ++ [0]).length ≤ m.filename.length + 1 := by simpa using hfn
  have hoptslen : (cString m.options ++ [0]).length ≤ m.options.length + 1 := by simpa using hop
  have hwords : (wordBytes host m.data).length = m.nEntries.toNat * 4 := by simp [hsize]
  obtain ⟨o1, h1⟩ := @exists_write block front 0 (by omega)
  have l1 := length_write h1
  obtain ⟨o2, h2⟩ := @exists_write o1 offsets 16 (by omega)
  have l2 := length_write h2
  obtain ⟨o3, h3⟩ := @exists_write o2 (cString m.filename ++ [0]) (nameOffset m) (by omega)
  have l3 := length_write h3
  obtain ⟨o4, h4⟩ := @exists_write o3 (cString m.options ++ [0])
    (optionsOffset m % 2 ^ 32) (by omega)
  have l4 := length_write h4
  have hstands : StandsAt o4 0 front :=
    (((standsAt_write h1).write h2 (by omega)).write h3 (by omega)).write h4 (by omega)
  have hcount : field host o4 8 4 = m.nEntries.toNat := field_nEntries hstands
  have hread : read (wordBytes host (m.data ++ [m.dirtyCount, m.cleanCount])) 0
      (field host o4 8 4 * 4) = some (wordBytes host m.data) := by
    have hsplit : wordBytes host (m.data ++ [m.dirtyCount, m.cleanCount]) =
        wordBytes host m.data ++ wordBytes host [m.dirtyCount, m.cleanCount] := List.flatMap_append
    rw [read_eq_some, hcount, hsplit, List.drop_zero, List.take_left' hwords, List.length_append]
    exact ⟨by omega, rfl⟩
  obtain ⟨o5, h5⟩ := @exists_write o4 (wordBytes host m.data) 24 (by omega)
  have l5 := length_write h5
  refine ⟨o5, ?_, by omega, ?_, ?_, standsAt_write h5, fun hwrap => ⟨?_, ?_⟩⟩
  · unfold memoryToFile
    simp only [hF, hK, Option.bind_eq_bind]
    rw [h1, Option.bind_some, h2, Option.bind_some, h3, Option.bind_some, h4, Option.bind_some,
      hread]
    exact h5
  · exact hstands.write h5 (by omega)
  · exact (((standsAt_write h2).write h3 (by omega)).write h4 (by omega)).write h5 (by omega)
  · rw [Nat.mod_eq_of_lt hwrap] at h4
    exact ((standsAt_write h3).write h4 (by omega)).write h5 (by omega)
  · rw [Nat.mod_eq_of_lt hwrap] at h4
    exact (standsAt_write h4).write h5 (by omega)

/-- The header of a file that `fileToMemory` does not refuse at once. -/
theorem FileImage.fields {file : List Byte} (h : FileImage host m file)
    (hname : nameOffset m < 2 ^ 32) :
    BitVec.ofNat 32 (field host file 0 4) = systemModeFileMagic ∧
      BitVec.ofNat 32 (field host file 4 4) = systemModeFileVersion ∧
      BitVec.ofNat 32 (field host file 8 4) = m.nEntries ∧
      (BitVec.ofNat 32 (field host file 16 4)).toNat = nameOffset m ∧
      (BitVec.ofNat 32 (field host file 20 4)).toNat = optionsOffset m % 2 ^ 32 := by
  obtain ⟨hfront, -⟩ := standsAt_append.mp h.front
  obtain ⟨hmagic, hversion⟩ := standsAt_append.mp hfront
  obtain ⟨hF, hK⟩ := standsAt_append.mp h.offsets
  simp only [Endian.length_encode] at hversion hK
  refine ⟨?_, ?_, ?_, ?_, ?_⟩
  · rw [hmagic.field]
    exact ofNat_mod_pow rfl _
  · rw [hversion.field]
    exact ofNat_mod_pow rfl _
  · rw [field_nEntries h.front, BitVec.ofNat_toNat, BitVec.setWidth_eq]
  · rw [hF.field, BitVec.toNat_ofNat]
    omega
  · rw [hK.field, BitVec.toNat_ofNat]
    omega

/-- The check that finds the second offset wrong when it has wrapped. -/
theorem FileImage.offsets_lt_iff {file : List Byte} (h : FileImage host m file)
    (hname : nameOffset m < 2 ^ 32 - 1) :
    BitVec.ofNat 32 (field host file 20 4) < BitVec.ofNat 32 (field host file 16 4) + 1 ↔
      optionsOffset m % 2 ^ 32 < nameOffset m + 1 := by
  obtain ⟨-, -, -, hF, hK⟩ := h.fields (by omega)
  have h1 : (1 : BitVec 32).toNat = 1 := rfl
  rw [BitVec.lt_def, hK, BitVec.toNat_add, hF, h1,
    Nat.mod_eq_of_lt (show nameOffset m + 1 < 2 ^ 32 by omega)]

/-- The memory `results` has what the file of `m` contains. -/
structure SystemModeMemory.ReadBack (m results : SystemModeMemory) : Prop where
  filename : results.filename = cString m.filename
  options : results.options = cString m.options
  nEntries : results.nEntries = m.nEntries
  data : results.data = m.data
  clean : results.isDirty = false

/-- A file whose offsets did not wrap gives back the memory. -/
theorem FileImage.fileToMemory {file : List Byte} (h : FileImage host m file)
    (hopts : optionsOffset m < 2 ^ 32) :
    ∃ results, fileToMemory host file = .ok results ∧ m.ReadBack results := by
  have hO : optionsOffset m = nameOffset m + m.filename.length + 1 := rfl
  have hN : nameOffset m = 24 + m.nEntries.toNat * 4 := rfl
  have hsize := h.size
  obtain ⟨hmagic, hversion, hn, hF, hK⟩ := h.fields (by omega)
  rw [Nat.mod_eq_of_lt hopts] at hK
  obtain ⟨hname, hoptions⟩ := h.strings hopts
  have hlen : (wordBytes host m.data).length = m.nEntries.toNat * 4 := by simp [m.size]
  have hread : read file 24 (m.nEntries.toNat * 4) = some (wordBytes host m.data) := by
    rw [← hlen]
    exact h.words.read (by unfold sizeofSystemModeFile; omega)
  obtain ⟨fresh, hnew, hfilename, hoptions', -⟩ := SystemModeMemory.exists_new
    (cString m.filename) (cString m.options) (show m.nEntries.toNat + 2 < 2 ^ 32 by omega)
  have hclean := SystemModeMemory.isDirty_new hnew
  have hheader : read file 0 24 = some ((file.drop 0).take 24) :=
    read_eq_some.mpr ⟨by omega, rfl⟩
  have hdecode := decodeWords_wordBytes host m.data
  rw [m.size] at hdecode
  have hlt : ¬BitVec.ofNat 32 (field host file 20 4) < BitVec.ofNat 32 (field host file 16 4) + 1 := by
    rw [h.offsets_lt_iff (by omega)]
    omega
  unfold SystemMode.fileToMemory sizeofSystemModeFile
  simp only [hmagic, hversion, hn, hF, hK]
  rw [hheader, inBounds_some, ok_bind, refuseIf_neg (by simp), ok_bind, refuseIf_neg (by simp),
    ok_bind, refuseIf_neg (by omega), ok_bind, refuseIf_neg hlt, ok_bind,
    hname.cStringAt (zero_notMem_cString _), inBounds_some, ok_bind,
    hoptions.cStringAt (zero_notMem_cString _), inBounds_some, ok_bind, hnew, inBounds_some,
    ok_bind, hread, inBounds_some, ok_bind]
  exact ⟨_, rfl, hfilename, hoptions', rfl, hdecode, hclean⟩

theorem SystemModeMemory.ReadBack.indexIsHit {results : SystemModeMemory} (h : m.ReadBack results)
    (i : BitVec 32) : results.indexIsHit i = m.indexIsHit i := by
  unfold SystemModeMemory.indexIsHit
  rw [h.data]

/-- A file whose second offset wrapped is refused. -/
theorem FileImage.fileToMemory_wrapped {file : List Byte} (h : FileImage host m file)
    (hname : nameOffset m < 2 ^ 32 - 1) (hlen : m.filename.length < 2 ^ 32)
    (hopts : 2 ^ 32 ≤ optionsOffset m) : SystemMode.fileToMemory host file = .error .rejected := by
  have hO : optionsOffset m = nameOffset m + m.filename.length + 1 := rfl
  have hN : nameOffset m = 24 + m.nEntries.toNat * 4 := rfl
  have hsize := h.size
  obtain ⟨hmagic, hversion, hn, hF, -⟩ := h.fields (by omega)
  have hheader : read file 0 24 = some ((file.drop 0).take 24) :=
    read_eq_some.mpr ⟨by omega, rfl⟩
  have hlt : BitVec.ofNat 32 (field host file 20 4) < BitVec.ofNat 32 (field host file 16 4) + 1 := by
    rw [h.offsets_lt_iff hname]
    omega
  unfold SystemMode.fileToMemory sizeofSystemModeFile
  simp only [hmagic, hversion, hn, hF]
  rw [hheader, inBounds_some, ok_bind, refuseIf_neg (by simp), ok_bind, refuseIf_neg (by simp),
    ok_bind, refuseIf_neg (by omega), ok_bind, refuseIf, if_pos hlt]
  rfl

end File

/-! ### From indices to addresses -/

namespace SystemModeEngine

theorem registerBreakpoints_eq (addrs : List (BitVec 64)) : registerBreakpoints addrs = addrs := by
  unfold registerBreakpoints
  induction addrs using List.reverseRecOn with
  | nil => rfl
  | append_singleton addrs a ih => rw [List.foldl_append, ih]; rfl

/-- The loop reaches every bit of the bitmap when the number of bits fits in 32 bits. -/
theorem mem_visited {results : SystemModeMemory} (hn : results.nEntries.toNat < 2 ^ 27)
    {i : BitVec 32} (h : results.indexIsHit i = true) : i ∈ visited results := by
  rw [SystemModeMemory.indexIsHit_eq_bitAt] at h
  have hword := lt_of_bitAt h
  have hsize := results.size
  have h32 : (32 : BitVec 32).toNat = 32 := rfl
  rw [BitVec.toNat_udiv, h32] at hword
  unfold visited
  rw [List.mem_map]
  refine ⟨i.toNat, List.mem_range.mpr ?_, by simp⟩
  rw [BitVec.toNat_mul, h32]
  omega

/-- Every bit that is set is reported as the address of its index. -/
theorem handleReadFile_eq_some {addrs : List (BitVec 64)} {results : SystemModeMemory}
    (hn : results.nEntries.toNat < 2 ^ 27)
    (hinside : ∀ i, results.indexIsHit i = true → i.toNat < addrs.length) :
    ∃ out, handleReadFile addrs results = some out ∧
      ∀ a, a ∈ out ↔ ∃ i, results.indexIsHit i = true ∧ addrs[i.toNat]? = some a := by
  have hmapM : ∀ l : List (BitVec 32), (∀ i ∈ l, i.toNat < addrs.length) →
      ∃ out, l.mapM (fun i => addrs[i.toNat]?) = some out ∧
        ∀ a, a ∈ out ↔ ∃ i ∈ l, addrs[i.toNat]? = some a := by
    intro l hl
    induction l with
    | nil => exact ⟨[], rfl, by simp⟩
    | cons i l ih =>
      obtain ⟨out, hout, hmem⟩ := ih fun j hj => hl j (List.mem_cons_of_mem _ hj)
      obtain ⟨b, hi⟩ : ∃ b, addrs[i.toNat]? = some b :=
        ⟨_, List.getElem?_eq_getElem (hl i List.mem_cons_self)⟩
      refine ⟨b :: out, ?_, fun a => ?_⟩
      · rw [List.mapM_cons, hi, hout]
        rfl
      · rw [List.mem_cons, hmem]
        simp only [List.mem_cons, exists_eq_or_imp, hi, Option.some.injEq]
        rw [@eq_comm _ a]
  obtain ⟨out, hout, hmem⟩ := hmapM ((visited results).filter results.indexIsHit)
    fun i hi => hinside i (List.mem_filter.mp hi).2
  refine ⟨out, hout, fun a => ?_⟩
  rw [hmem]
  constructor
  · rintro ⟨i, hi, ha⟩
    exact ⟨i, (List.mem_filter.mp hi).2, ha⟩
  · rintro ⟨i, hi, ha⟩
    exact ⟨i, List.mem_filter.mpr ⟨mem_visited hn hi, hi⟩, ha⟩

end SystemModeEngine

/-! ### The composition -/

/-- The addresses that are reported are those of the breakpoint events at an address of `entries`. -/
def ReportsHits (entries : List (BitVec 64)) (events : List (EngineEvent (BitVec 64)))
    (reported : Option (List (BitVec 64))) : Prop :=
  ∃ out, reported = some out ∧
    ∀ a, a ∈ out ↔ a ∈ entries ∧ ∃ ev ∈ events, ev.type = .breakpoint ∧ ev.addr = a

/-- The sizes in a file that the daemon has parsed. -/
theorem fromProcessedFile_sizes {host : Endian} {base : Nat} {data : List Byte} {f : SystemModeFile}
    (h : fromProcessedFile host base data = .ok f) :
    f.entries.length < 65536 ∧ f.filename.length < 2 ^ 32 := by
  unfold fromProcessedFile at h
  obtain ⟨t, -, hparts⟩ := bind_eq_ok.mp h
  obtain ⟨hentries, hname, hlast⟩ := parseParts_eq_ok hparts
  have hbytes := length_of_cStringAt hname hlast
  have hsize := (t.filenameSize - 1).isLt
  have hcount := t.nEntries.isLt
  omega

section Composition

variable {entries : List (BitVec 64)} {events : List (EngineEvent (BitVec 64))}
  {before after : SystemModeMemory}

/-- The bits that the events of a process set in a new memory. -/
theorem Recorded.hit_iff (h : Recorded (ProcessHandler.attach entries) events before after)
    (hlen : entries.length < 2 ^ 32) (hn : before.nEntries.toNat = entries.length)
    (hnew : ∀ i, before.indexIsHit i = false) (i : BitVec 32) :
    after.indexIsHit i = true ↔
      ∃ ev ∈ events, ev.type = .breakpoint ∧ ProcessHandler.attach entries ev.addr = some i := by
  rw [h.hit, hnew, hn]
  constructor
  · rintro (hfalse | ⟨-, hev⟩)
    · cases hfalse
    · exact hev
  · rintro ⟨ev, hmem, htype, hattach⟩
    have hlt := (List.getElem?_eq_some_iff.mp (getElem?_attach hlen hattach)).choose
    have h32 : (32 : BitVec 32).toNat = 32 := rfl
    refine Or.inr ⟨?_, ev, hmem, htype, hattach⟩
    rw [BitVec.toNat_udiv, h32]
    omega

/-- Their addresses are those of the events. -/
theorem Recorded.address_iff (h : Recorded (ProcessHandler.attach entries) events before after)
    (hlen : entries.length < 2 ^ 32) (hn : before.nEntries.toNat = entries.length)
    (hnew : ∀ i, before.indexIsHit i = false) (a : BitVec 64) :
    (∃ i, after.indexIsHit i = true ∧ entries[i.toNat]? = some a) ↔
      a ∈ entries ∧ ∃ ev ∈ events, ev.type = .breakpoint ∧ ev.addr = a := by
  constructor
  · rintro ⟨i, hhit, ha⟩
    obtain ⟨ev, hmem, htype, hattach⟩ := (h.hit_iff hlen hn hnew i).mp hhit
    have haddr := getElem?_attach hlen hattach
    rw [ha, Option.some.injEq] at haddr
    exact ⟨List.mem_of_getElem? ha, ev, hmem, htype, haddr.symm⟩
  · rintro ⟨ha, ev, hmem, htype, rfl⟩
    obtain ⟨i, hattach⟩ := Option.isSome_iff_exists.mp (isSome_attach.mpr ha)
    exact ⟨i, (h.hit_iff hlen hn hnew i).mpr ⟨ev, hmem, htype, hattach⟩,
      getElem?_attach hlen hattach⟩

end Composition

section Reported

variable {host : Endian} {junk : Nat → Byte} {sysFile : SystemModeFile}
  {events : List (EngineEvent (BitVec 64))}

/-- The memory that is written to the file, and what reading the file comes down to. -/
theorem exists_output (hcount : sysFile.entries.length < 65536) :
    ∃ before after, Recorded (ProcessHandler.attach sysFile.entries) events before after ∧
      before.nEntries.toNat = sysFile.entries.length ∧ (∀ i, before.indexIsHit i = false) ∧
      after.nEntries.toNat = sysFile.entries.length ∧ after.filename = sysFile.filename ∧
      ∀ file, memoryToFile host junk after = some file →
        reportedAddresses host junk sysFile sysFile.entries events =
          SystemModeEngine.readResults host sysFile.entries file := by
  have hn : (BitVec.ofNat 32 sysFile.entries.length).toNat = sysFile.entries.length := by
    rw [BitVec.toNat_ofNat]
    omega
  obtain ⟨before, hnew, hfilename, -, hnEntries, hzero⟩ :=
    SystemModeMemory.exists_new sysFile.filename sysFile.options
      (show (BitVec.ofNat 32 sysFile.entries.length).toNat + 2 < 2 ^ 32 by omega)
  have hrec := recorded_foldl (ProcessHandler.attach sysFile.entries) before events
  refine ⟨before, _, hrec, by rw [hnEntries, hn], hzero, by rw [hrec.nEntries, hnEntries, hn],
    by rw [hrec.filename, hfilename], fun file hfile => ?_⟩
  unfold reportedAddresses
  simp only [hnew, Option.bind_eq_bind, Option.bind_some, hfile,
    SystemModeEngine.registerBreakpoints_eq]

theorem nameOffset_eq {m : SystemModeMemory} (hn : m.nEntries.toNat = sysFile.entries.length) :
    nameOffset m = 24 + sysFile.entries.length * 4 := by
  unfold nameOffset sizeofSystemModeFile
  rw [hn]

theorem optionsOffset_eq {m : SystemModeMemory} (hn : m.nEntries.toNat = sysFile.entries.length)
    (hname : m.filename = sysFile.filename) :
    optionsOffset m = 24 + sysFile.entries.length * 4 + sysFile.filename.length + 1 := by
  unfold optionsOffset
  rw [nameOffset_eq hn, hname]

/-- As long as the offset of the options fits in 32 bits, exactly the addresses of the events are
reported. -/
theorem reportsHits_of_fits (hcount : sysFile.entries.length < 65536)
    (hfits : 24 + sysFile.entries.length * 4 + sysFile.filename.length + 1 < 2 ^ 32) :
    ReportsHits sysFile.entries events
      (reportedAddresses host junk sysFile sysFile.entries events) := by
  obtain ⟨before, after, hrec, hnBefore, hzero, hn, hname, hreported⟩ :=
    @exists_output host junk sysFile events hcount
  have haddress := hrec.address_iff (by omega) hnBefore hzero
  have hhit := hrec.hit_iff (by omega) hnBefore hzero
  have hN := nameOffset_eq hn
  have hO := optionsOffset_eq hn hname
  obtain ⟨file, hfile, himage⟩ := @memoryToFile_image host junk after (by omega)
    (by unfold sizeofSystemModeFile; omega)
  obtain ⟨results, hresults, hback⟩ := himage.fileToMemory (by omega)
  have hsame := hback.indexIsHit
  have hnResults : results.nEntries.toNat = sysFile.entries.length := by rw [hback.nEntries, hn]
  have hinside : ∀ i, results.indexIsHit i = true → i.toNat < sysFile.entries.length := by
    intro i hi
    rw [hsame, hhit] at hi
    obtain ⟨ev, -, -, hattach⟩ := hi
    exact (List.getElem?_eq_some_iff.mp (getElem?_attach (by omega) hattach)).choose
  obtain ⟨out, hout, hmem⟩ := SystemModeEngine.handleReadFile_eq_some (by omega) hinside
  refine ⟨out, ?_, fun a => ?_⟩
  · rw [hreported file hfile, SystemModeEngine.readResults, hresults]
    exact hout
  · simp only [hmem, hsame, haddress]

/-- Where the offset wraps and lies behind the header again, the file is refused, and nothing is
reported. -/
theorem reportsHits_iff_of_wraps (hcount : sysFile.entries.length < 65536)
    (hlen : sysFile.filename.length < 2 ^ 32)
    (hwraps : 2 ^ 32 + 24 ≤ 24 + sysFile.entries.length * 4 + sysFile.filename.length + 1) :
    ReportsHits sysFile.entries events
        (reportedAddresses host junk sysFile sysFile.entries events) ↔
      ∀ ev ∈ events, ev.type = .breakpoint → ev.addr ∉ sysFile.entries := by
  obtain ⟨before, after, hrec, hnBefore, hzero, hn, hname, hreported⟩ :=
    @exists_output host junk sysFile events hcount
  have hN := nameOffset_eq hn
  have hO := optionsOffset_eq hn hname
  obtain ⟨file, hfile, himage⟩ := @memoryToFile_image host junk after (by omega)
    (by unfold sizeofSystemModeFile; omega)
  have hrefused := himage.fileToMemory_wrapped (by omega) (by rw [hname]; exact hlen) (by omega)
  rw [hreported file hfile, SystemModeEngine.readResults, hrefused]
  unfold ReportsHits
  constructor
  · rintro ⟨out, hout, hmem⟩ ev hev htype haddr
    cases hout
    exact List.not_mem_nil ((hmem ev.addr).mpr ⟨haddr, ev, hev, htype, rfl⟩)
  · intro hnone
    refine ⟨[], rfl, fun a => ?_⟩
    simp only [List.not_mem_nil, false_iff, not_and, not_exists]
    rintro ha ev hev htype rfl
    exact hnone ev hev htype ha

end Reported

/-- What is reported for a file that the daemon has parsed, by the offset of the options. -/
theorem reports_hits (host : Endian) (junk : Nat → Byte) {base : Nat} {data : List Byte}
    {sysFile : SystemModeFile} (hparse : fromProcessedFile host base data = .ok sysFile)
    {entries : List (BitVec 64)} (hentries : sysFile.entries = entries)
    (events : List (EngineEvent (BitVec 64))) :
    (sizeofSystemModeFile + entries.length * 4 + sysFile.filename.length + 1 < 2 ^ 32 →
      ReportsHits entries events (reportedAddresses host junk sysFile entries events)) ∧
    (2 ^ 32 + sizeofSystemModeFile ≤
        sizeofSystemModeFile + entries.length * 4 + sysFile.filename.length + 1 →
      (ReportsHits entries events (reportedAddresses host junk sysFile entries events) ↔
        ∀ ev ∈ events, ev.type = .breakpoint → ev.addr ∉ entries)) := by
  subst hentries
  obtain ⟨hcount, hlen⟩ := fromProcessedFile_sizes hparse
  exact ⟨reportsHits_of_fits hcount, reportsHits_iff_of_wraps hcount hlen⟩

/-- A file with a duplicate address. -/
def smallSource : SystemModeFile :=
  { filename := ascii "/a", options := ascii " ", id := 7, data := [1], entries := [16, 32, 16] }

/-- The same file as the daemon gets it from the image. -/
def smallFile : SystemModeFile := { smallSource with data := smallSource.image .little }

theorem reports_hits_small :
    fromProcessedFile .little 0 smallFile.data = .ok smallFile ∧
      ReportsHits [16, 32, 16] [⟨.breakpoint, 0, 16⟩, ⟨.breakpoint, 0, 48⟩]
        (reportedAddresses .little (fun _ => 0) smallFile [16, 32, 16]
          [⟨.breakpoint, 0, 16⟩, ⟨.breakpoint, 0, 48⟩]) := by
  have hparse : fromProcessedFile .little 0 smallFile.data = .ok smallFile :=
    fromProcessedFile_image .little rfl ⟨by decide, by decide, by decide, by decide⟩ (by decide)
      (by decide)
  exact ⟨hparse, (reports_hits .little (fun _ => 0) hparse rfl _).1 (by decide)⟩

/-- A string of `2 ^ 32 - 9` characters. -/
@[irreducible] def longString : List Byte := List.replicate (2 ^ 32 - 9) 97

theorem length_longString : longString.length = 2 ^ 32 - 9 := by
  unfold longString
  exact List.length_replicate

theorem zero_notMem_longString : 0 ∉ longString := by
  unfold longString
  intro h
  have heq := List.eq_of_mem_replicate h
  cases heq

/-- A file with two addresses whose file name and options are that long. -/
def longSource : SystemModeFile :=
  { filename := longString, options := longString, id := 7, data := [1], entries := [16, 32] }

def longFile : SystemModeFile := { longSource with data := longSource.image .little }

theorem fits_longSource : longSource.Fits := by
  have hpad := padTo8_of_mod (show (2 ^ 32 - 8) % 8 = 0 by omega)
  have hname : longSource.filename.length + 1 = 2 ^ 32 - 8 := by
    rw [show longSource.filename = longString from rfl, length_longString]
    omega
  have hopts : longSource.options.length + 1 = 2 ^ 32 - 8 := by
    rw [show longSource.options = longString from rfl, length_longString]
    omega
  have hentries : longSource.entries.length = 2 := rfl
  constructor
  · omega
  · rw [hname, hpad]
    omega
  · rw [hopts, hpad]
    omega
  · rw [hname, hopts, hentries]
    omega

/-- The hit of the first address is not reported: the offset of the options is `2 ^ 32 + 24`. -/
theorem not_reports_hits_long :
    fromProcessedFile .little 0 longFile.data = .ok longFile ∧
      ¬ReportsHits [16, 32] [⟨.breakpoint, 0, 16⟩]
        (reportedAddresses .little (fun _ => 0) longFile [16, 32] [⟨.breakpoint, 0, 16⟩]) := by
  have hparse : fromProcessedFile .little 0 longFile.data = .ok longFile :=
    fromProcessedFile_image .little rfl fits_longSource zero_notMem_longString
      zero_notMem_longString
  obtain ⟨hcount, hlen⟩ := fromProcessedFile_sizes hparse
  have hname : longFile.filename.length = 2 ^ 32 - 9 := length_longString
  have hentries : longFile.entries.length = 2 := rfl
  refine ⟨hparse, fun h => ?_⟩
  have hnone := (reportsHits_iff_of_wraps hcount hlen (by rw [hname, hentries]; omega)).mp h
  exact hnone ⟨.breakpoint, 0, 16⟩ List.mem_cons_self rfl List.mem_cons_self

end Kcov.SystemMode
