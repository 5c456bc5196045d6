import Kcov.Merge.Parser
import Mathlib.Algebra.BigOperators.Group.List.Basic

/-! Merging stored metadata records: what a file has after any sequence of them. -/

namespace Kcov

open Bytes

/-! ### One file -/

section File

variable {f g h : MergeFile} {n m : U32} {a b : U64}

theorem AddrMap.lookup_addTo (l : AddrMap) (a b : U64) (c : U32) :
    (l.addTo a c).lookup b = if b = a then some (l.count a + c) else l.lookup b := by
  rw [addTo]
  split
  next hb => rw [hb, AList.lookup_insert]
  next hb => rw [AList.lookup_insert_ne hb]

theorem AddrMap.count_addTo (l : AddrMap) (a b : U64) (c : U32) :
    (l.addTo a c).count b = if b = a then l.count a + c else l.count b := by
  rw [count, lookup_addTo]
  split <;> rfl

theorem MergeFile.lookup_addLine : ((f.addLine n a).lineAddrs m).lookup b =
    if m = n ∧ b = a then some ((f.lineAddrs n).count a + 1) else (f.lineAddrs m).lookup b := by
  rw [lineAddrs, addLine]
  by_cases hm : m = n
  · subst hm
    simp only [AList.lookup_insert, Option.getD_some, AddrMap.lookup_addTo, true_and]
  · rw [AList.lookup_insert_ne hm, if_neg fun h => hm h.1, lineAddrs]

theorem MergeFile.hasAddr_addLine : (f.addLine n a).hasAddr m b = true ↔
    f.hasAddr m b = true ∨ (m, b) = (n, a) := by
  rw [hasAddr, hasAddr, decide_eq_true_eq, decide_eq_true_eq, ← AList.lookup_isSome,
    ← AList.lookup_isSome, lookup_addLine, Prod.mk.injEq]
  split
  next h => simp [h]
  next h => simp [h]

end File

namespace Record

/-- The words of the address table, each with the line it belongs to. -/
def words (r : Record) : List (U32 × U64) := r.entries.flatMap fun e => e.2.map fun w => (e.1, w)

end Record

/-- The line and the address of a word. -/
def strip (p : U32 × U64) : U32 × U64 := (p.1, p.2 &&& ~~~hitBit)

/-- How often the address is marked as hit. -/
def hitsIn (ws : List (U32 × U64)) (a : U64) : Nat :=
  ws.countP fun p => p.2 &&& hitBit ≠ 0 && (strip p).2 = a

/-- The entry of a map of counters after `n` additions. -/
def raised (old : Option U32) (n : Nat) : Option U32 :=
  if n = 0 then old else some (old.getD 0 + BitVec.ofNat 32 n)

/-- The file `g` is the file `f` with the words `ws` added. -/
structure Absorbs (f : MergeFile) (ws : List (U32 × U64)) (g : MergeFile) : Prop where
  checksum : g.checksum = f.checksum
  isLocal : g.isLocal = f.isLocal
  lineNrs : ∀ l, l ∈ g.lines ↔ l ∈ f.lines ∨ ∃ w ∈ ws, w.1 = l
  lookup : ∀ l a, (g.lineAddrs l).lookup a =
    raised ((f.lineAddrs l).lookup a) ((ws.map strip).count (l, a))
  hits : ∀ a, g.addrHits.lookup a = raised (f.addrHits.lookup a) (hitsIn ws a)

section Absorbs

variable {f g h : MergeFile} {ws vs : List (U32 × U64)} {old : Option U32}

theorem raised_zero (old : Option U32) : raised old 0 = old := if_pos rfl

theorem getD_raised (old : Option U32) (n : Nat) :
    (raised old n).getD 0 = old.getD 0 + BitVec.ofNat 32 n := by
  rw [raised]
  split
  next hn => simp [hn]
  next => rfl

theorem isSome_raised (old : Option U32) (n : Nat) :
    (raised old n).isSome = true ↔ old.isSome = true ∨ n ≠ 0 := by
  rw [raised]
  split
  next hn => simp [hn]
  next hn => simp [hn]

theorem raised_raised (old : Option U32) (m n : Nat) :
    raised (raised old m) n = raised old (m + n) := by
  by_cases hn : n = 0
  · rw [hn, raised_zero, Nat.add_zero]
  · rw [raised, if_neg hn, getD_raised, raised, if_neg (by omega), BitVec.ofNat_add,
      BitVec.add_assoc]

/-- A counter of 32 bits is the same only after no addition, or if it was there and has gone round. -/
theorem raised_eq_self {n : Nat} :
    raised old n = old ↔ (n ≠ 0 → old.isSome = true ∧ n % 2 ^ 32 = 0) := by
  rw [raised]
  split
  next hn => simp [hn]
  next hn =>
    cases old with
    | none => simp [hn]
    | some c =>
      have hself : c + BitVec.ofNat 32 n = c ↔ n % 2 ^ 32 = 0 := by
        rw [← BitVec.toNat_inj, BitVec.toNat_add, BitVec.toNat_ofNat]
        have hlt := c.isLt
        omega
      simp [hn, hself]

theorem Absorbs.refl (f : MergeFile) : Absorbs f [] f :=
  ⟨rfl, rfl, fun _ => by simp, fun _ _ => (raised_zero _).symm, fun _ => (raised_zero _).symm⟩

theorem Absorbs.trans (hf : Absorbs f ws g) (hg : Absorbs g vs h) : Absorbs f (ws ++ vs) h := by
  refine ⟨hg.checksum.trans hf.checksum, hg.isLocal.trans hf.isLocal, fun l => ?_, fun l a => ?_,
    fun a => ?_⟩
  · rw [hg.lineNrs, hf.lineNrs]
    simp only [List.mem_append, or_and_right, exists_or, or_assoc]
  · rw [hg.lookup, hf.lookup, raised_raised, List.map_append, List.count_append]
  · rw [hg.hits, hf.hits, raised_raised, hitsIn, hitsIn, hitsIn, List.countP_append]

/-- Two files with the same maps, whatever the order of their entries. -/
structure MergeFile.Same (f g : MergeFile) : Prop where
  checksum : g.checksum = f.checksum
  isLocal : g.isLocal = f.isLocal
  lineNrs : ∀ l, l ∈ g.lines ↔ l ∈ f.lines
  lookup : ∀ l a, (g.lineAddrs l).lookup a = (f.lineAddrs l).lookup a
  hits : ∀ a, g.addrHits.lookup a = f.addrHits.lookup a

/-- Every address of the words is one of its line already, every address that they hit has a counter
already, and all of these counters of 32 bits go round to where they are. -/
structure MergeFile.Unmoved (f : MergeFile) (ws : List (U32 × U64)) : Prop where
  lines : ∀ l a, (l, a) ∈ ws.map strip →
    f.hasAddr l a = true ∧ (ws.map strip).count (l, a) % 2 ^ 32 = 0
  hits : ∀ a, hitsIn ws a ≠ 0 → (f.addrHits.lookup a).isSome = true ∧ hitsIn ws a % 2 ^ 32 = 0

/-- Adding words leaves a file as it is exactly if these move none of its counters. -/
theorem Absorbs.same_iff (h : Absorbs f ws g) : f.Same g ↔ f.Unmoved ws := by
  constructor
  · intro hsame
    refine ⟨fun l a hmem => ?_, fun a ha => ?_⟩
    · have hlookup := raised_eq_self.mp ((h.lookup l a).symm.trans (hsame.lookup l a))
        (List.count_pos_iff.mpr hmem).ne'
      rw [AList.lookup_isSome] at hlookup
      exact ⟨decide_eq_true hlookup.1, hlookup.2⟩
    · exact raised_eq_self.mp ((h.hits a).symm.trans (hsame.hits a)) ha
  · intro hunmoved
    refine ⟨h.checksum, h.isLocal, fun l => ?_, fun l a => ?_, fun a => ?_⟩
    · refine (h.lineNrs l).trans (or_iff_left_of_imp ?_)
      rintro ⟨w, hw, rfl⟩
      -- a line without an entry has no addresses
      have haddr := (hunmoved.lines _ _ (List.mem_map_of_mem hw)).1
      by_contra hnone
      rw [MergeFile.hasAddr, MergeFile.lineAddrs, AList.lookup_eq_none.mpr hnone] at haddr
      simp at haddr
    · refine (h.lookup l a).trans (raised_eq_self.mpr fun hcount => ?_)
      have hline := hunmoved.lines l a (List.count_pos_iff.mp (Nat.pos_of_ne_zero hcount))
      rw [AList.lookup_isSome]
      exact ⟨of_decide_eq_true hline.1, hline.2⟩
    · exact (h.hits a).trans (raised_eq_self.mpr (hunmoved.hits a))

theorem Absorbs.hasAddr (h : Absorbs f ws g) (l : U32) (a : U64) :
    g.hasAddr l a = true ↔ f.hasAddr l a = true ∨ (l, a) ∈ ws.map strip := by
  rw [MergeFile.hasAddr, MergeFile.hasAddr, decide_eq_true_eq, decide_eq_true_eq,
    ← AList.lookup_isSome, h.lookup, isSome_raised, AList.lookup_isSome, ← List.count_pos_iff,
    Nat.pos_iff_ne_zero]

theorem Absorbs.count (h : Absorbs f ws g) (a : U64) :
    g.addrHits.count a = f.addrHits.count a + BitVec.ofNat 32 (hitsIn ws a) := by
  rw [AddrMap.count, h.hits, getD_raised, AddrMap.count]

end Absorbs

namespace MergeParser

/-! ### One record -/

/-- The words `ws` are added to the file. -/
structure ParseStep (filename : Text) (ws : List (U32 × U64)) (s t : MergeParser) : Prop where
  other : ∀ q, q ≠ filename → t.files q = s.files q
  self : ∀ f, s.files filename = some f → ∃ g, t.files filename = some g ∧ Absorbs f ws g

section Parse

variable {cfg : MergeSetup} {filename : Text} {s t u : MergeParser} {ws vs : List (U32 × U64)}

theorem ParseStep.refl (s : MergeParser) : ParseStep filename [] s s :=
  ⟨fun _ _ => rfl, fun f hf => ⟨f, hf, Absorbs.refl f⟩⟩

theorem ParseStep.trans (hs : ParseStep filename ws s t) (ht : ParseStep filename vs t u) :
    ParseStep filename (ws ++ vs) s u := by
  refine ⟨fun q hq => (ht.other q hq).trans (hs.other q hq), fun f hf => ?_⟩
  obtain ⟨g, hg, hfg⟩ := hs.self f hf
  obtain ⟨k, hk, hgk⟩ := ht.self g hg
  exact ⟨k, hk, hfg.trans hgk⟩

theorem parseAddress_step (s : MergeParser) (lineNr : U32) (word : U64) :
    ParseStep filename [(lineNr, word)] s (parseAddress filename lineNr s word) := by
  refine ⟨fun q hq => ?_, fun f hf => ?_⟩
  · rw [parseAddress]
    split <;> simp [report, modifyFile_files, hq]
  · have hadd : ∀ l a, ((f.addLine lineNr (word &&& ~~~hitBit)).lineAddrs l).lookup a =
        raised ((f.lineAddrs l).lookup a) (([(lineNr, word)].map strip).count (l, a)) := by
      intro l a
      have hcount : ([(lineNr, word)].map strip).count (l, a) =
          if l = lineNr ∧ a = word &&& ~~~hitBit then 1 else 0 := by
        rw [List.map_singleton, strip, List.count_singleton]
        simp only [beq_iff_eq, Prod.mk.injEq, @eq_comm _ lineNr, @eq_comm _ (word &&& ~~~hitBit)]
      rw [MergeFile.lookup_addLine, hcount]
      split
      next heq =>
        obtain ⟨rfl, rfl⟩ := heq
        rfl
      next => rw [raised_zero]
    have hkeys : ∀ l, l ∈ (f.addLine lineNr (word &&& ~~~hitBit)).lines ↔
        l ∈ f.lines ∨ ∃ w ∈ [(lineNr, word)], w.1 = l := by
      intro l
      rw [MergeFile.addLine, AList.mem_insert]
      simp [or_comm, eq_comm]
    by_cases hhit : word &&& hitBit = 0
    · refine ⟨f.addLine lineNr (word &&& ~~~hitBit), ?_, rfl, rfl, hkeys, hadd, fun a => ?_⟩
      · simp [parseAddress, hhit, report, modifyFile_files, hf]
      · have hzero : hitsIn [(lineNr, word)] a = 0 := by simp [hitsIn, hhit]
        rw [hzero, raised_zero]
        rfl
    · refine ⟨(f.addLine lineNr (word &&& ~~~hitBit)).registerHits (word &&& ~~~hitBit) 1, ?_, rfl,
        rfl, hkeys, hadd, fun a => ?_⟩
      · simp only [parseAddress, ne_eq, hhit, not_false_eq_true, if_true, report, modifyFile_files,
          hf, Option.map_some]
      · have hone : hitsIn [(lineNr, word)] a = if a = word &&& ~~~hitBit then 1 else 0 := by
          by_cases ha : a = word &&& ~~~hitBit
          · simpa [hitsIn, strip, ha] using hhit
          · simp [hitsIn, strip, ha, Ne.symm ha]
        rw [hone, MergeFile.registerHits, AddrMap.lookup_addTo]
        split
        next ha =>
          rw [ha]
          rfl
        next =>
          rw [raised_zero]
          rfl

theorem parseEntries_step (s : MergeParser) (entries : List (U32 × List U64)) :
    ParseStep filename (entries.flatMap fun e => e.2.map fun w => (e.1, w)) s
      (s.parseEntries filename entries) := by
  have hwords : ∀ (lineNr : U32) (words : List U64) (s : MergeParser),
      ParseStep filename (words.map fun w => (lineNr, w)) s
        (words.foldl (parseAddress filename lineNr) s) := by
    intro lineNr words
    induction words with
    | nil => exact fun s => ParseStep.refl s
    | cons w words ih => exact fun s => (parseAddress_step s lineNr w).trans (ih _)
  induction entries generalizing s with
  | nil => exact ParseStep.refl s
  | cons e entries ih => exact (hwords e.1 e.2 s).trans (ih _)

end Parse

end MergeParser

/-! ### All records -/

namespace Record

/-- The file that the record is about. -/
def file (cfg : MergeSetup) (r : Record) : Text := cfg.mangleSourcePath r.fileName

/-- The file exists and has the checksum of the record. -/
def isFresh (cfg : MergeSetup) (r : Record) : Bool :=
  cfg.host.fileExists (r.file cfg) &&
    (cfg.host.readFile (r.file cfg)).map cfg.host.hashBlock == some r.checksum

/-- The file exists, but has another checksum. -/
def isStale (cfg : MergeSetup) (r : Record) : Bool :=
  cfg.host.fileExists (r.file cfg) && !r.isFresh cfg

end Record

namespace MergeParser

/-- The records of the file whose checksum is right. -/
def freshOf (cfg : MergeSetup) (records : List Record) (f : Text) : List Record :=
  records.filter fun r => r.file cfg = f && r.isFresh cfg

/-- The records of an existing file that the parser uses: the first one, and of the later ones those
whose checksum is right. -/
def usedOf (cfg : MergeSetup) (records : List Record) (f : Text) : List Record :=
  match records.filter fun r => r.file cfg = f with
  | [] => []
  | r :: rs => r :: rs.filter fun r => r.isFresh cfg

/-- What the parser has after `records`. -/
structure Parsed (cfg : MergeSetup) (records : List Record) (s : MergeParser) : Prop where
  missing : ∀ f, cfg.host.fileExists f = false → s.files f = none
  unnamed : ∀ f, (∀ r ∈ records, r.file cfg ≠ f) → s.files f = none
  named : ∀ f, cfg.host.fileExists f = true → (∃ r ∈ records, r.file cfg = f) →
    ∃ empty file, MergeFile.create cfg.host f = some empty ∧ s.files f = some file ∧
      Absorbs empty ((usedOf cfg records f).flatMap Record.words) file

section Used

variable {cfg : MergeSetup} {records : List Record} {r : Record} {f : Text}

theorem usedOf_snoc_other (h : r.file cfg ≠ f) :
    usedOf cfg (records ++ [r]) f = usedOf cfg records f := by
  rw [usedOf, List.filter_append, List.filter_cons_of_neg (by simpa using h), List.filter_nil,
    List.append_nil, usedOf]

theorem usedOf_snoc_first (hnone : ∀ r' ∈ records, r'.file cfg ≠ f) (h : r.file cfg = f) :
    usedOf cfg (records ++ [r]) f = [r] := by
  have hnil : records.filter (fun r => r.file cfg = f) = [] :=
    List.filter_eq_nil_iff.mpr fun r' hr' => by simpa using hnone r' hr'
  rw [usedOf, List.filter_append, hnil, List.filter_cons_of_pos (by simpa using h)]
  rfl

theorem usedOf_snoc_later (hsome : ∃ r' ∈ records, r'.file cfg = f) (h : r.file cfg = f) :
    usedOf cfg (records ++ [r]) f =
      if r.isFresh cfg then usedOf cfg records f ++ [r] else usedOf cfg records f := by
  obtain ⟨r', hr', hf⟩ := hsome
  have hne : records.filter (fun r => r.file cfg = f) ≠ [] :=
    List.ne_nil_of_mem (List.mem_filter.mpr ⟨hr', by simpa using hf⟩)
  obtain ⟨r₀, rs, hcons⟩ := List.exists_cons_of_ne_nil hne
  rw [usedOf, usedOf, List.filter_append, hcons, List.filter_cons_of_pos (by simpa using h),
    List.filter_nil]
  simp only [List.cons_append, List.filter_append, List.filter_cons, List.filter_nil]
  split <;> simp

end Used

section Run

variable {cfg : MergeSetup} {records : List Record} {r : Record} {s t : MergeParser} {f : Text}

theorem create_eq_some {host : Host} {file : MergeFile} :
    MergeFile.create host f = some file ↔ ∃ data, host.readFile f = some data ∧
      file = { checksum := host.hashBlock data, lines := ∅, addrHits := ∅, isLocal := false } := by
  rw [MergeFile.create, Option.bind_eq_bind, Option.bind_eq_some_iff]
  simp [eq_comm]

/-- The file of the record is opened or known. -/
theorem parseFileData_eq_some (h : s.parseFileData cfg r = some t) :
    (cfg.host.fileExists (r.file cfg) = false ∧ t = s) ∨
    (cfg.host.fileExists (r.file cfg) = true ∧ s.files (r.file cfg) = none ∧
      ∃ empty u, MergeFile.create cfg.host (r.file cfg) = some empty ∧
        u.files = Function.update s.files (r.file cfg) (some empty) ∧
        ParseStep (r.file cfg) r.words u t) ∨
    (cfg.host.fileExists (r.file cfg) = true ∧ ∃ file, s.files (r.file cfg) = some file ∧
      ((file.checksum ≠ r.checksum ∧ t = s) ∨
        (file.checksum = r.checksum ∧ ParseStep (r.file cfg) r.words s t))) := by
  rw [parseFileData] at h
  change (if !cfg.host.fileExists (r.file cfg) then some s else _) = some t at h
  cases hex : cfg.host.fileExists (r.file cfg) with
  | false =>
    rw [hex] at h
    exact Or.inl ⟨rfl, (Option.some.inj h).symm⟩
  | true =>
    rw [hex] at h
    apply Or.inr
    cases hfile : s.files (r.file cfg) with
    | none =>
      have hfile' : s.files (cfg.mangleSourcePath r.fileName) = none := hfile
      simp only [Bool.not_true, Bool.false_eq_true, if_false, hfile', openFile,
        Option.bind_eq_bind, Option.bind_assoc, Option.bind_eq_some_iff, Option.pure_def,
        Option.bind_some, Option.some.injEq] at h
      obtain ⟨empty, hempty, rfl⟩ := h
      exact Or.inl ⟨rfl, rfl, empty, _, hempty, rfl, parseEntries_step _ r.entries⟩
    | some file =>
      have hfile' : s.files (cfg.mangleSourcePath r.fileName) = some file := hfile
      simp only [Bool.not_true, Bool.false_eq_true, if_false, hfile'] at h
      refine Or.inr ⟨rfl, file, rfl, ?_⟩
      split at h
      next hne => exact Or.inl ⟨hne, (Option.some.inj h).symm⟩
      next heq =>
        rw [not_not] at heq
        exact Or.inr ⟨heq, Option.some.inj h ▸ parseEntries_step s r.entries⟩

theorem parsed_create : Parsed cfg [] create :=
  ⟨fun _ _ => rfl, fun _ _ => rfl, fun _ _ ⟨_, h, _⟩ => by simp at h⟩

/-- One more record concerns only its own file. -/
theorem Parsed.snoc (h : Parsed cfg records s)
    (hother : ∀ q, q ≠ r.file cfg → t.files q = s.files q)
    (hmissing : cfg.host.fileExists (r.file cfg) = false → t.files (r.file cfg) = none)
    (hself : cfg.host.fileExists (r.file cfg) = true → ∃ empty file,
      MergeFile.create cfg.host (r.file cfg) = some empty ∧ t.files (r.file cfg) = some file ∧
        Absorbs empty ((usedOf cfg (records ++ [r]) (r.file cfg)).flatMap Record.words) file) :
    Parsed cfg (records ++ [r]) t := by
  refine ⟨fun f hex => ?_, fun f hf => ?_, fun f hex hsome => ?_⟩
  · by_cases hf : f = r.file cfg
    · subst hf
      exact hmissing hex
    · rw [hother f hf]
      exact h.missing f hex
  · have hr := hf r (by simp)
    rw [hother f hr.symm]
    exact h.unnamed f fun r' hr' => hf r' (List.mem_append_left _ hr')
  · by_cases hf : r.file cfg = f
    · subst hf
      exact hself hex
    · rw [usedOf_snoc_other hf, hother f (Ne.symm hf)]
      obtain ⟨r', hr', hrf⟩ := hsome
      refine h.named f hex ⟨r', ?_, hrf⟩
      rcases List.mem_append.mp hr' with hr' | hr'
      · exact hr'
      · exact absurd (List.mem_singleton.mp hr' ▸ hrf) hf

/-- A known file has the checksum of its contents. -/
theorem Parsed.known (h : Parsed cfg records s) {file : MergeFile}
    (hfile : s.files (r.file cfg) = some file) :
    (∃ r' ∈ records, r'.file cfg = r.file cfg) ∧
      (r.isFresh cfg = true ↔ file.checksum = r.checksum) := by
  have hex : cfg.host.fileExists (r.file cfg) = true := by
    by_contra hne
    simp [h.missing _ (Bool.not_eq_true _ ▸ hne)] at hfile
  have hsome : ∃ r' ∈ records, r'.file cfg = r.file cfg := by
    by_contra hne
    simp only [not_exists, not_and] at hne
    simp [h.unnamed _ hne] at hfile
  refine ⟨hsome, ?_⟩
  obtain ⟨empty, file', hempty, hfile', habsorbs⟩ := h.named _ hex hsome
  obtain rfl : file = file' := Option.some.inj (hfile.symm.trans hfile')
  obtain ⟨data, hdata, rfl⟩ := create_eq_some.mp hempty
  rw [habsorbs.checksum, Record.isFresh, hex, hdata]
  simp

theorem Parsed.step (h : Parsed cfg records s) (hstep : s.parseFileData cfg r = some t) :
    Parsed cfg (records ++ [r]) t := by
  rcases parseFileData_eq_some hstep with ⟨hex, rfl⟩ | ⟨hex, hnone, empty, u, hempty, hu, hparse⟩ |
    ⟨hex, file, hfile, ⟨hne, rfl⟩ | ⟨heq, hparse⟩⟩
  · refine h.snoc (fun _ _ => rfl) (h.missing _) fun hex' => ?_
    simp [hex] at hex'
  · have hnew : ∀ r' ∈ records, r'.file cfg ≠ r.file cfg := by
      intro r' hr' heq
      obtain ⟨-, file, -, hfile, -⟩ := h.named (r.file cfg) hex ⟨r', hr', heq⟩
      simp [hnone] at hfile
    refine h.snoc (fun q hq => ?_) (fun hex' => ?_) fun _ => ?_
    · rw [hparse.other q hq, hu, Function.update_of_ne hq]
    · simp [hex] at hex'
    · obtain ⟨g, hg, habsorbs⟩ := hparse.self empty (by rw [hu, Function.update_self])
      refine ⟨empty, g, hempty, hg, ?_⟩
      rw [usedOf_snoc_first hnew rfl]
      simpa using habsorbs
  · obtain ⟨hsome, hfresh⟩ := h.known hfile
    have hstale : r.isFresh cfg = false := by
      rw [← Bool.not_eq_true, hfresh]
      exact hne
    apply h.snoc (fun _ _ => rfl) (h.missing _)
    intro _
    rw [usedOf_snoc_later hsome rfl, hstale]
    exact h.named _ hex hsome
  · obtain ⟨hsome, hfresh⟩ := h.known hfile
    refine h.snoc hparse.other (fun hex' => ?_) fun _ => ?_
    · simp [hex] at hex'
    · obtain ⟨empty, file', hempty, hfile', habsorbs⟩ := h.named _ hex hsome
      obtain rfl : file = file' := Option.some.inj (hfile.symm.trans hfile')
      obtain ⟨g, hg, hadd⟩ := hparse.self file hfile
      refine ⟨empty, g, hempty, hg, ?_⟩
      rw [usedOf_snoc_later hsome rfl, if_pos (hfresh.mpr heq), List.flatMap_append,
        List.flatMap_singleton]
      exact habsorbs.trans hadd

theorem parsed_run (h : parseAll cfg records = some s) : Parsed cfg records s := by
  induction records using List.reverseRecOn generalizing s with
  | nil =>
    cases h
    exact parsed_create
  | append_singleton records r ih =>
    rw [parseAll, List.foldlM_append, Option.bind_eq_bind, Option.bind_eq_some_iff] at h
    obtain ⟨s₀, hs₀, hstep⟩ := h
    exact (ih hs₀).step (by simpa using hstep)

theorem parseFileData_isSome (h : Parsed cfg records s) : (s.parseFileData cfg r).isSome ↔
    (cfg.host.fileExists (r.file cfg) = true → (cfg.host.readFile (r.file cfg)).isSome) := by
  rw [parseFileData]
  change (if !cfg.host.fileExists (r.file cfg) then some s else _).isSome ↔ _
  cases hex : cfg.host.fileExists (r.file cfg) with
  | false => simp
  | true =>
    simp only [Bool.not_true, Bool.false_eq_true, if_false, forall_const]
    cases hfile : s.files (r.file cfg) with
    | none =>
      have hfile' : s.files (cfg.mangleSourcePath r.fileName) = none := hfile
      simp only [hfile', openFile, MergeFile.create]
      change (Option.bind _ _).isSome ↔ (cfg.host.readFile (cfg.mangleSourcePath r.fileName)).isSome
      cases cfg.host.readFile (cfg.mangleSourcePath r.fileName) <;> simp
    | some file =>
      have hfile' : s.files (cfg.mangleSourcePath r.fileName) = some file := hfile
      obtain ⟨empty, -, hempty, -⟩ := h.named _ hex (h.known hfile).1
      obtain ⟨data, hdata, -⟩ := create_eq_some.mp hempty
      rw [hdata]
      simp only [hfile', Option.isSome_some, iff_true]
      split <;> rfl

/-- The parser panics if and only if an existing file of a record cannot be read. -/
theorem parseAll_isSome : (parseAll cfg records).isSome ↔ ∀ r ∈ records,
    cfg.host.fileExists (r.file cfg) = true → (cfg.host.readFile (r.file cfg)).isSome := by
  induction records using List.reverseRecOn with
  | nil => simp [parseAll]
  | append_singleton records r ih =>
    have hsnoc : parseAll cfg (records ++ [r]) =
        (parseAll cfg records).bind fun s => s.parseFileData cfg r := by
      simp [parseAll, List.foldlM_append]
    rw [hsnoc, List.forall_mem_append, List.forall_mem_singleton, ← ih]
    cases hs : parseAll cfg records with
    | none => simp
    | some s =>
      rw [Option.bind_some, parseFileData_isSome (parsed_run hs)]
      simp

end Run

/-! ### Stale records -/

def hasAddr (s : MergeParser) (f : Text) (l : U32) (a : U64) : Bool :=
  (s.files f).any fun file => file.hasAddr l a

def isHit (s : MergeParser) (f : Text) (a : U64) : Bool :=
  (s.files f).any fun file => file.isHit a

/-- How often the records mark the address as hit. -/
def hitsOf (records : List Record) (a : U64) : Nat := hitsIn (records.flatMap Record.words) a

/-- The parser has the lines, the addresses and the hits of the records whose file exists and has
their checksum, and nothing else. -/
structure MergedFrom (cfg : MergeSetup) (records : List Record) (s : MergeParser) : Prop where
  lines : ∀ f l a, s.hasAddr f l a = true ↔
    ∃ r ∈ records, r.isFresh cfg = true ∧ r.file cfg = f ∧ (l, a) ∈ r.words.map strip
  hits : ∀ f a, s.isHit f a = true ↔
    ∃ r ∈ records, r.isFresh cfg = true ∧ r.file cfg = f ∧ hitsIn r.words a ≠ 0

/-- It does not matter which record of a file comes first. -/
structure AnyFirst (cfg : MergeSetup) (records : List Record) : Prop where
  readable : ∀ r ∈ records, cfg.host.fileExists (r.file cfg) = true →
    (cfg.host.readFile (r.file cfg)).isSome
  lines : ∀ r ∈ records, r.isStale cfg = true → ∀ p ∈ r.words.map strip,
    ∃ r' ∈ freshOf cfg records (r.file cfg), p ∈ r'.words.map strip
  hits : ∀ f a, hitsOf (freshOf cfg records f) a % 2 ^ 32 ≠ 0 ↔ hitsOf (freshOf cfg records f) a ≠ 0
  staleHits : ∀ r ∈ records, r.isStale cfg = true → ∀ a,
    (hitsIn r.words a + hitsOf (freshOf cfg records (r.file cfg)) a) % 2 ^ 32 ≠ 0 ↔
      hitsOf (freshOf cfg records (r.file cfg)) a ≠ 0

section Stale

variable {cfg : MergeSetup} {records : List Record} {r : Record} {s : MergeParser} {f : Text}

theorem hitsOf_cons (r : Record) (records : List Record) (a : U64) :
    hitsOf (r :: records) a = hitsIn r.words a + hitsOf records a := by
  rw [hitsOf, List.flatMap_cons, hitsIn, List.countP_append]
  rfl

theorem hitsOf_ne_zero (records : List Record) (a : U64) :
    hitsOf records a ≠ 0 ↔ ∃ r ∈ records, hitsIn r.words a ≠ 0 := by
  induction records with
  | nil => simp [hitsOf, hitsIn]
  | cons r records ih =>
    rw [hitsOf_cons, List.exists_mem_cons_iff, ← ih]
    omega

/-- The parser uses the records with the right checksum, and at most one other. -/
theorem usedOf_cases (cfg : MergeSetup) (records : List Record) (f : Text) :
    usedOf cfg records f = freshOf cfg records f ∨
      ∃ r ∈ records, r.file cfg = f ∧ r.isFresh cfg = false ∧
        usedOf cfg records f = r :: freshOf cfg records f := by
  have hfresh : freshOf cfg records f =
      (records.filter fun r => r.file cfg = f).filter fun r => r.isFresh cfg := by
    rw [freshOf, List.filter_filter]
    simp only [Bool.and_comm]
  rw [hfresh, usedOf]
  cases hfilter : records.filter fun r => r.file cfg = f with
  | nil => exact Or.inl rfl
  | cons r rs =>
    have hmem : r ∈ records.filter fun r => r.file cfg = f := by
      rw [hfilter]
      exact List.mem_cons_self
    obtain ⟨hr, hf⟩ := List.mem_filter.mp hmem
    cases hr' : r.isFresh cfg with
    | true => exact Or.inl (List.filter_cons_of_pos hr').symm
    | false =>
      refine Or.inr ⟨r, hr, by simpa using hf, hr', ?_⟩
      rw [List.filter_cons_of_neg (by simpa using hr')]

theorem usedOf_cons (r : Record) (records : List Record) :
    usedOf cfg (r :: records) (r.file cfg) = r :: freshOf cfg records (r.file cfg) := by
  rw [usedOf, List.filter_cons_of_pos (by simp), freshOf]
  simp only [List.filter_filter, Bool.and_comm]

theorem Parsed.missing_used (h : Parsed cfg records s) (hex : cfg.host.fileExists f = false) :
    (∀ l a, s.hasAddr f l a = false) ∧ ∀ a, s.isHit f a = false := by
  simp [hasAddr, isHit, h.missing f hex]

theorem Parsed.used (h : Parsed cfg records s) (hex : cfg.host.fileExists f = true) :
    (∀ l a, s.hasAddr f l a = true ↔ ∃ r ∈ usedOf cfg records f, (l, a) ∈ r.words.map strip) ∧
      ∀ a, s.isHit f a = true ↔ hitsOf (usedOf cfg records f) a % 2 ^ 32 ≠ 0 := by
  by_cases hsome : ∃ r ∈ records, r.file cfg = f
  · obtain ⟨empty, file, hempty, hfile, habsorbs⟩ := h.named f hex hsome
    obtain ⟨data, -, rfl⟩ := create_eq_some.mp hempty
    constructor
    · intro l a
      rw [hasAddr, hfile, Option.any_some, habsorbs.hasAddr, List.map_flatMap, List.mem_flatMap]
      simp [MergeFile.hasAddr, MergeFile.lineAddrs]
    · intro a
      rw [isHit, hfile, Option.any_some, MergeFile.isHit, decide_eq_true_eq, habsorbs.count,
        ne_eq, ← BitVec.toNat_inj]
      simp [AddrMap.count, hitsOf]
  · have hused : usedOf cfg records f = [] := by
      rw [usedOf, List.filter_eq_nil_iff.mpr]
      intro r hr
      simpa using fun hf => hsome ⟨r, hr, hf⟩
    have hnone : s.files f = none := h.unnamed f fun r hr hf => hsome ⟨r, hr, hf⟩
    simp [hasAddr, isHit, hnone, hused, hitsOf, hitsIn]

theorem exists_of_mem_freshOf (hr : r ∈ freshOf cfg records f) :
    r ∈ records ∧ r.file cfg = f ∧ r.isFresh cfg = true ∧ cfg.host.fileExists f = true := by
  simp only [freshOf, List.mem_filter, Bool.and_eq_true, decide_eq_true_eq] at hr
  obtain ⟨hr, hf, hfresh⟩ := hr
  have hex := hfresh
  rw [Record.isFresh, Bool.and_eq_true] at hex
  exact ⟨hr, hf, hfresh, hf ▸ hex.1⟩

theorem mem_freshOf : r ∈ freshOf cfg records f ↔
    r ∈ records ∧ r.isFresh cfg = true ∧ r.file cfg = f := by
  simp only [freshOf, List.mem_filter, Bool.and_eq_true, decide_eq_true_eq, and_comm]

/-- The property of the merge, in terms of the records of each file. -/
theorem mergedFrom_iff : MergedFrom cfg records s ↔
    (∀ f l a, s.hasAddr f l a = true ↔
      ∃ r ∈ freshOf cfg records f, (l, a) ∈ r.words.map strip) ∧
    ∀ f a, s.isHit f a = true ↔ hitsOf (freshOf cfg records f) a ≠ 0 := by
  have hlines : ∀ f l a, (∃ r ∈ freshOf cfg records f, (l, a) ∈ r.words.map strip) ↔
      ∃ r ∈ records, r.isFresh cfg = true ∧ r.file cfg = f ∧ (l, a) ∈ r.words.map strip := by
    intro f l a
    simp only [mem_freshOf, and_assoc]
  have hhits : ∀ f a, hitsOf (freshOf cfg records f) a ≠ 0 ↔
      ∃ r ∈ records, r.isFresh cfg = true ∧ r.file cfg = f ∧ hitsIn r.words a ≠ 0 := by
    intro f a
    rw [hitsOf_ne_zero]
    simp only [mem_freshOf, and_assoc]
  constructor
  · rintro ⟨h1, h2⟩
    exact ⟨fun f l a => (h1 f l a).trans (hlines f l a).symm,
      fun f a => (h2 f a).trans (hhits f a).symm⟩
  · rintro ⟨h1, h2⟩
    exact ⟨fun f l a => (h1 f l a).trans (hlines f l a), fun f a => (h2 f a).trans (hhits f a)⟩

theorem freshOf_perm {records' : List Record} (h : records'.Perm records) (f : Text) :
    (freshOf cfg records' f).Perm (freshOf cfg records f) := h.filter _

theorem hitsOf_perm {records' : List Record} (h : records'.Perm records) (a : U64) :
    hitsOf records' a = hitsOf records a := (h.flatMap_right _).countP_eq _

theorem isStale_iff : r.isStale cfg = true ↔
    cfg.host.fileExists (r.file cfg) = true ∧ r.isFresh cfg = false := by
  rw [Record.isStale, Bool.and_eq_true, Bool.not_eq_true']

/-- If it does not matter which record comes first, the order of the records does not matter. -/
theorem AnyFirst.merged (h : AnyFirst cfg records) {records' : List Record}
    (hperm : records'.Perm records) :
    ∃ s, parseAll cfg records' = some s ∧ MergedFrom cfg records s := by
  obtain ⟨s, hs⟩ := Option.isSome_iff_exists.mp
    (parseAll_isSome.mpr fun r hr => h.readable r (hperm.mem_iff.mp hr))
  have hparsed := parsed_run hs
  have hfresh := fun f => @freshOf_perm cfg records records' hperm f
  refine ⟨s, hs, mergedFrom_iff.mpr ?_⟩
  rw [← forall_and]
  intro f
  cases hex : cfg.host.fileExists f with
  | false =>
    have hnil : freshOf cfg records f = [] := by
      apply List.eq_nil_iff_forall_not_mem.mpr
      intro r hr
      simp [(exists_of_mem_freshOf hr).2.2.2] at hex
    obtain ⟨h1, h2⟩ := hparsed.missing_used hex
    simp [hnil, h1, h2, hitsOf, hitsIn]
  | true =>
    obtain ⟨hlines, hhits⟩ := hparsed.used hex
    simp only [hlines, hhits]
    rcases usedOf_cases cfg records' f with hused | ⟨r, hr, hrf, hrfresh, hused⟩
    · rw [hused]
      refine ⟨fun l a => ?_, fun a => ?_⟩
      · simp only [(hfresh f).mem_iff]
      · rw [hitsOf_perm (hfresh f)]
        exact h.hits f a
    · have hr' := hperm.mem_iff.mp hr
      have hstale := isStale_iff.mpr ⟨hrf ▸ hex, hrfresh⟩
      rw [hused]
      refine ⟨fun l a => ?_, fun a => ?_⟩
      · rw [List.exists_mem_cons_iff]
        simp only [(hfresh f).mem_iff]
        exact or_iff_right_of_imp fun hmem => hrf ▸ h.lines r hr' hstale (l, a) hmem
      · rw [hitsOf_cons, hitsOf_perm (hfresh f)]
        exact hrf ▸ h.staleHits r hr' hstale a

theorem anyFirst_of_merged (h : ∀ records', records'.Perm records →
    ∃ s, parseAll cfg records' = some s ∧ MergedFrom cfg records s) : AnyFirst cfg records := by
  have hfirst : ∀ r ∈ records, cfg.host.fileExists (r.file cfg) = true →
      (∀ l a, (∃ r' ∈ r :: freshOf cfg (records.erase r) (r.file cfg), (l, a) ∈ r'.words.map strip) ↔
        ∃ r' ∈ freshOf cfg records (r.file cfg), (l, a) ∈ r'.words.map strip) ∧
      ∀ a, hitsOf (r :: freshOf cfg (records.erase r) (r.file cfg)) a % 2 ^ 32 ≠ 0 ↔
        hitsOf (freshOf cfg records (r.file cfg)) a ≠ 0 := by
    intro r hr hex
    obtain ⟨s, hs, hmerged⟩ := h (r :: records.erase r) (List.perm_cons_erase hr).symm
    obtain ⟨hlines, hhits⟩ := (parsed_run hs).used hex
    obtain ⟨hlines', hhits'⟩ := mergedFrom_iff.mp hmerged
    rw [usedOf_cons] at hlines hhits
    exact ⟨fun l a => (hlines l a).symm.trans (hlines' (r.file cfg) l a),
      fun a => (hhits a).symm.trans (hhits' (r.file cfg) a)⟩
  have herase : ∀ r ∈ records, ∀ f, (freshOf cfg (r :: records.erase r) f).Perm
      (freshOf cfg records f) := fun r hr f => freshOf_perm (List.perm_cons_erase hr).symm f
  refine ⟨parseAll_isSome.mp ?_, fun r hr hstale p hp => ?_, fun f a => ?_, fun r hr hstale a => ?_⟩
  · obtain ⟨s, hs, -⟩ := h records (List.Perm.refl _)
    rw [hs]
    rfl
  · exact ((hfirst r hr (isStale_iff.mp hstale).1).1 p.1 p.2).mp ⟨r, List.mem_cons_self, hp⟩
  · refine ⟨fun hne hzero => hne (by rw [hzero, Nat.zero_mod]), fun hne => ?_⟩
    obtain ⟨r, hmem, -⟩ := (hitsOf_ne_zero _ a).mp hne
    obtain ⟨hr, rfl, hfresh, hex⟩ := exists_of_mem_freshOf hmem
    have hcons : freshOf cfg (r :: records.erase r) (r.file cfg) =
        r :: freshOf cfg (records.erase r) (r.file cfg) :=
      List.filter_cons_of_pos (by simpa using hfresh)
    have hiff := (hfirst r hr hex).2 a
    rw [← hcons, hitsOf_perm (herase r hr _)] at hiff
    exact hiff.mpr hne
  · obtain ⟨hex, hfresh⟩ := isStale_iff.mp hstale
    have hcons : freshOf cfg (r :: records.erase r) (r.file cfg) =
        freshOf cfg (records.erase r) (r.file cfg) :=
      List.filter_cons_of_neg (by simp [hfresh])
    have hiff := (hfirst r hr hex).2 a
    rw [hitsOf_cons, ← hcons, hitsOf_perm (herase r hr _)] at hiff
    exact hiff

/-- In every order of the records the parser has what the records with the right checksum say, if
and only if it does not matter which record of a file comes first. -/
theorem merges_iff (cfg : MergeSetup) (records : List Record) :
    (∀ records', records'.Perm records →
      ∃ s, parseAll cfg records' = some s ∧ MergedFrom cfg records s) ↔ AnyFirst cfg records :=
  ⟨anyFirst_of_merged, fun h _ hperm => h.merged hperm⟩

end Stale

/-! ### One stale record -/

/-- A host on which every file is empty and has the checksum 7. -/
def staleSetup : MergeSetup where
  host := { Host.bare with
    fileExists := fun _ => true
    readFile := fun _ => some []
    hashBlock := fun _ => 7 }
  runFilters _ := true
  mangleSourcePath path := path

/-- A record of line 1 of `/a` from when the checksum was 8. -/
def staleRecord : Record := ⟨ascii "/a", 8, [(1, [16])]⟩

/-- The first record of a file is used whatever its checksum is. -/
theorem not_merges_stale : staleRecord.isFresh staleSetup = false ∧
    ¬∀ records', records'.Perm [staleRecord] →
      ∃ s, parseAll staleSetup records' = some s ∧ MergedFrom staleSetup [staleRecord] s := by
  refine ⟨by decide, fun h => ?_⟩
  obtain ⟨s, hs, hmerged⟩ := h [staleRecord] (List.Perm.refl _)
  have hlook : (parseAll staleSetup [staleRecord]).map (fun s => s.hasAddr (ascii "/a") 1 16) =
      some true := by decide
  rw [hs, Option.map_some, Option.some.injEq] at hlook
  obtain ⟨r, hr, hfresh, -⟩ := (hmerged.lines (ascii "/a") 1 16).mp hlook
  rw [List.mem_singleton.mp hr] at hfresh
  exact absurd hfresh (by decide)

end MergeParser

end Kcov
