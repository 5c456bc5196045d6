import Kcov.Parsers.Elf

/-! The walks over the compilation units of the debug information: one reports all lines, the other
the line of an address. -/

namespace Kcov

open Bytes

/-- What `dir_concat` makes of two names, see `dirConcatIndexed`. -/
def dirConcat (dir filename : Text) : Text :=
  if dir = [] then filename
  else (dir.reverse.dropWhile (· = slash)).reverse ++ slash :: filename.dropWhile (· = slash)

/-! ### Joining names -/

/-- `s[i]`, where the position behind the last character holds the terminator. -/
def characterAt (s : Text) (i : Int) : Option Byte :=
  if i < 0 then none else (s ++ [0])[i.toNat]?

theorem characterAt_last (s : Text) (b : Byte) :
    characterAt (s ++ [b]) ((s ++ [b]).length - 1) = some b := by
  have hlen : ((s ++ [b]).length : Int) - 1 = (s.length : Int) := by simp
  rw [characterAt, hlen, if_neg (by omega), Int.toNat_natCast]
  simp

/-- The loop over the slashes at the end of the directory. -/
def stripEnd (dir : Text) : Option Text :=
  match hat : characterAt dir (dir.length - 1) with
  | none => none
  | some b => if b = slash then stripEnd (dir.take (dir.length - 1)) else some dir
termination_by dir.length
decreasing_by
  have hne : dir ≠ [] := by
    rintro rfl
    cases hat
  have := List.length_pos_of_ne_nil hne
  rw [List.length_take]
  omega

/-- The loop over the slashes at the beginning of the file name. -/
def stripStart (filename : Text) : Option Text :=
  match _ : characterAt filename 0 with
  | none => none
  | some b => if b = slash then stripStart (filename.drop 1) else some filename
termination_by filename.length
decreasing_by
  next hat hslash =>
  have hne : filename ≠ [] := by
    rintro rfl
    cases hat
    cases hslash
  have := List.length_pos_of_ne_nil hne
  rw [List.length_drop]
  omega

/-- `dir_concat`, or `none` where it reads outside of a text. -/
def dirConcatIndexed (dir filename : Text) : Option Text :=
  if dir = [] then some filename
  else do
    let dir ← stripEnd dir
    let filename ← stripStart filename
    return dir ++ slash :: filename

theorem stripStart_eq (filename : Text) :
    stripStart filename = some (filename.dropWhile (· = slash)) := by
  induction filename with
  | nil =>
    rw [stripStart]
    rfl
  | cons b filename ih =>
    rw [stripStart]
    split
    next hat => cases hat
    next b' hat =>
      obtain rfl : b = b' := Option.some.inj hat
      rw [List.drop_succ_cons, List.drop_zero, ih, List.dropWhile_cons]
      by_cases hb : b = slash <;> simp [hb]

/-- Of a directory of slashes only nothing is left, whose last character is read all the same. -/
theorem stripEnd_eq (dir : Text) : stripEnd dir =
    if ∀ b ∈ dir, b = slash then none else some (dir.reverse.dropWhile (· = slash)).reverse := by
  induction dir using List.reverseRecOn with
  | nil =>
    rw [stripEnd]
    rfl
  | append_singleton dir b ih =>
    have htake : (dir ++ [b]).take ((dir ++ [b]).length - 1) = dir := by simp
    rw [stripEnd]
    split
    next hat => exact absurd ((characterAt_last dir b).symm.trans hat) (by simp)
    next b' hat =>
      obtain rfl : b = b' := Option.some.inj ((characterAt_last dir b).symm.trans hat)
      rw [htake, ih, List.reverse_append, List.reverse_singleton, List.singleton_append,
        List.dropWhile_cons]
      by_cases hb : b = slash
      · simp [hb, or_imp]
      · rw [if_neg hb, if_neg fun h => hb (h b (by simp)), if_neg (by simpa using hb)]
        simp

theorem dirConcatIndexed_eq (dir filename : Text) : dirConcatIndexed dir filename =
    if dir ≠ [] ∧ ∀ b ∈ dir, b = slash then none else some (dirConcat dir filename) := by
  rw [dirConcatIndexed, dirConcat]
  by_cases hdir : dir = []
  · rw [if_pos hdir, if_neg (by simp [hdir]), if_pos hdir]
  · rw [if_neg hdir, if_neg hdir, stripEnd_eq, stripStart_eq]
    by_cases hall : ∀ b ∈ dir, b = slash
    · rw [if_pos hall, if_pos ⟨hdir, hall⟩]
      rfl
    · rw [if_neg hall, if_neg fun h => hall h.2]
      rfl

/-- Names are joined unless the directory consists of slashes. -/
theorem dirConcatIndexed_joins_iff (dir filename : Text) :
    dirConcatIndexed dir filename = some (dirConcat dir filename) ↔
      dir = [] ∨ ∃ b ∈ dir, b ≠ slash := by
  rw [dirConcatIndexed_eq]
  by_cases h : dir ≠ [] ∧ ∀ b ∈ dir, b = slash
  · rw [if_pos h]
    refine ⟨fun h' => (by cases h'), ?_⟩
    rintro (rfl | ⟨b, hb, hne⟩)
    · exact absurd rfl h.1
    · exact absurd (h.2 b hb) hne
  · rw [if_neg h]
    refine ⟨fun _ => ?_, fun _ => rfl⟩
    by_cases hdir : dir = []
    · exact Or.inl hdir
    · right
      have := fun hall => h ⟨hdir, hall⟩
      simpa using this

theorem dirConcatIndexed_root : dirConcatIndexed [slash] (ascii "hej") = none ∧
    dirConcat [slash] (ascii "hej") = ascii "/hej" := by
  rw [dirConcatIndexed_eq]
  exact ⟨rfl, rfl⟩

namespace Elf

/-! ### What the library answers -/

/-- A `Dwarf_Line`. A field is `none` where the library fails to read it. -/
structure DwarfLine where
  lineNr : Option U32
  source : Option Text
  beginStatement : Option Bool
  addr : Option U64

/-- The DIE of a compilation unit. -/
structure Die where
  /-- `dwarf_getsrclines`, and the lines that `dwarf_onesrcline` finds. -/
  srcLines : Option (List (Option DwarfLine))
  /-- `dwarf_getsrcfiles` succeeds. -/
  srcFiles : Bool
  /-- `dwarf_getsrcdirs`: the first directory, which may be missing, and their number. -/
  srcDirs : Option (Option Text × Nat)
  /-- `dwarf_getsrc_die`. -/
  srcDie : U64 → Option DwarfLine

/-- What `dwarf_nextcu` says about a compilation unit: where it starts, the size of its header, and
where the next one starts. -/
structure CompilationUnit where
  start : U64
  headerSize : U64
  next : U64
  deriving DecidableEq, Repr

/-- The units follow each other from an offset on. -/
def Chained : U64 → List CompilationUnit → Prop
  | _, [] => True
  | offset, u :: us => u.start = offset ∧ u.start < u.next ∧ Chained u.next us

/-- The debug information of a file: its compilation units, and the DIEs that `dwarf_offdie`
finds. -/
structure Dwarf where
  units : List CompilationUnit
  chained : Chained 0 units
  offdie : U64 → Option Die

/-! ### The walks -/

/-- `fullPath`, with the first directory. -/
def fullPath (srcDir : Option Text) (filename : Text) : Text :=
  if filename.head? = some slash then filename else dirConcat (srcDir.getD []) filename

/-- The body of the loop of `forEachLine` over the source lines. -/
def DwarfLine.sourceLine (srcDir : Option Text) (line : DwarfLine) : Option SourceLine := do
  let lineNr ← line.lineNr
  let source ← line.source
  let isCode ← line.beginStatement
  let addr ← line.addr
  if lineNr = 0 then none
  else if !isCode then none
  else some { file := fullPath srcDir source, lineNr, addr }

/-- The lines that `forEachLine` reports for a DIE. -/
def Die.sourceLines (die : Die) : List SourceLine :=
  match die.srcLines, die.srcFiles, die.srcDirs with
  | some lines, true, some (srcDir, ndirs) =>
    if ndirs = 0 then [] else lines.reduceOption.filterMap (DwarfLine.sourceLine srcDir)
  | _, _, _ => []

/-- The offsets for which a walk has called `dwarf_offdie`, and the lines that it has reported. -/
structure Walk where
  visited : List U64
  lines : List SourceLine

namespace Walk

/-- Nothing more happens. -/
def done : Walk := ⟨[], []⟩

/-- A DIE is looked up and lines are reported before the rest of the walk. -/
def visit (offset : U64) (lines : List SourceLine) (rest : Walk) : Walk :=
  ⟨offset :: rest.visited, lines ++ rest.lines⟩

@[simp] theorem visited_visit (offset : U64) (lines : List SourceLine) (rest : Walk) :
    (visit offset lines rest).visited = offset :: rest.visited := rfl

end Walk

namespace Dwarf

/-- The loop of `forEachLine` over the remaining units. -/
def forEachLineFrom (offdie : U64 → Option Die) : List CompilationUnit → U64 → Walk
  | [], _ => Walk.done
  | u :: us, lastOffset =>
    match offdie (lastOffset + u.headerSize) with
    -- `lastOffset` stays behind here
    | none => Walk.visit (lastOffset + u.headerSize) [] (forEachLineFrom offdie us lastOffset)
    | some die =>
      Walk.visit (lastOffset + u.headerSize) die.sourceLines (forEachLineFrom offdie us u.next)

def forEachLine (d : Dwarf) : Walk := forEachLineFrom d.offdie d.units 0

/-- What `forAddress` does with a DIE: the lines that it reports, or `none` where it returns. -/
def addressLines (address : U64) (die : Die) : Option (List SourceLine) :=
  match die.srcDie address with
  | none => some []
  | some line =>
    if !die.srcFiles then some []
    else
      match line.source with
      | none => none
      | some source =>
        match die.srcDirs, line.lineNr with
        | some (srcDir, _), some lineNr =>
          some [{ file := fullPath srcDir source, lineNr, addr := address }]
        | _, _ => some []

/-- The loop of `forAddress` over the remaining units. -/
def forAddressFrom (offdie : U64 → Option Die) (address : U64) :
    List CompilationUnit → U64 → Walk
  | [], _ => Walk.done
  | u :: us, lastOffset =>
    match offdie (lastOffset + u.headerSize) with
    | none => Walk.visit (lastOffset + u.headerSize) [] (forAddressFrom offdie address us u.next)
    | some die =>
      match addressLines address die with
      | none => Walk.visit (lastOffset + u.headerSize) [] Walk.done
      | some lines =>
        Walk.visit (lastOffset + u.headerSize) lines (forAddressFrom offdie address us u.next)

def forAddress (d : Dwarf) (address : U64) : Walk := forAddressFrom d.offdie address d.units 0

end Dwarf

/-! ### The units that are visited -/

/-- Where the DIE of a unit is. -/
def CompilationUnit.dieOffset (u : CompilationUnit) : U64 := u.start + u.headerSize

namespace Dwarf

variable {offdie : U64 → Option Die} {us : List CompilationUnit} {offset address : U64}

/-- Both walks look at the DIE of each unit, and all lines of those that are found are reported. -/
structure WalksAgree (d : Dwarf) (address : U64) : Prop where
  forEachLine : d.forEachLine.visited = d.units.map CompilationUnit.dieOffset
  forAddress : d.forEachLine.visited = (d.forAddress address).visited
  reported : ∀ u ∈ d.units, ∀ die, d.offdie u.dieOffset = some die →
    die.sourceLines ⊆ d.forEachLine.lines

/-- The DIE of the unit is found, and `forAddress` goes on behind it. -/
def Passes (offdie : U64 → Option Die) (address : U64) (u : CompilationUnit) : Prop :=
  ∃ die, offdie u.dieOffset = some die ∧ (addressLines address die).isSome

/-- The offsets of all units are visited if and only if every lookup but the last one succeeds. -/
theorem visited_forEachLineFrom_iff (h : Chained offset us) :
    (forEachLineFrom offdie us offset).visited = us.map CompilationUnit.dieOffset ↔
      ∀ u ∈ us.dropLast, (offdie u.dieOffset).isSome := by
  induction us generalizing offset with
  | nil => simp [forEachLineFrom, Walk.done]
  | cons u us ih =>
    obtain ⟨rfl, hlt, hrest⟩ := h
    have hoffset : u.start + u.headerSize = u.dieOffset := rfl
    rw [forEachLineFrom, hoffset, List.map_cons]
    cases hdie : offdie u.dieOffset with
    | some die =>
      dsimp only
      rw [Walk.visited_visit, List.cons_inj_right, ih hrest]
      cases us with
      | nil => simp
      | cons v us =>
        rw [List.dropLast_cons_cons, List.forall_mem_cons, hdie, and_iff_right Option.isSome_some]
    | none =>
      cases us with
      | nil => simp [forEachLineFrom, Walk.done]
      | cons v us =>
        obtain ⟨hstart, -, -⟩ := hrest
        rw [List.dropLast_cons_cons, List.forall_mem_cons, hdie]
        refine iff_of_false (fun hall => ?_) fun hall => absurd hall.1 (by simp)
        -- the next unit is looked for behind the start of this one
        have hsecond : u.start + v.headerSize = v.start + v.headerSize := by
          rw [forEachLineFrom] at hall
          cases hnext : offdie (u.start + v.headerSize) <;>
          · rw [hnext] at hall
            exact (List.cons.inj (List.cons.inj hall).2).1
        rw [BitVec.add_left_inj, hstart] at hsecond
        rw [hsecond] at hlt
        exact absurd hlt (BitVec.lt_irrefl _)

/-- `forAddress` visits all units if and only if it does not return before the last one. -/
theorem visited_forAddressFrom_iff (h : Chained offset us) :
    (forAddressFrom offdie address us offset).visited = us.map CompilationUnit.dieOffset ↔
      ∀ u ∈ us.dropLast, ∀ die, offdie u.dieOffset = some die →
        (addressLines address die).isSome := by
  induction us generalizing offset with
  | nil => simp [forAddressFrom, Walk.done]
  | cons u us ih =>
    obtain ⟨rfl, -, hrest⟩ := h
    have hoffset : u.start + u.headerSize = u.dieOffset := rfl
    have hcons : ∀ P : CompilationUnit → Prop, P u →
        ((∀ v ∈ us.dropLast, P v) ↔ ∀ v ∈ (u :: us).dropLast, P v) := by
      intro P hP
      cases us with
      | nil => simp
      | cons v us => rw [List.dropLast_cons_cons, List.forall_mem_cons, and_iff_right hP]
    rw [forAddressFrom, hoffset, List.map_cons]
    cases hdie : offdie u.dieOffset with
    | none =>
      dsimp only
      rw [Walk.visited_visit, List.cons_inj_right, ih hrest]
      exact hcons _ fun die hsome => by simp [hdie] at hsome
    | some die =>
      cases hlines : addressLines address die with
      | some lines =>
        dsimp only
        rw [hlines]
        dsimp only
        rw [Walk.visited_visit, List.cons_inj_right, ih hrest]
        refine hcons _ fun die' hsome => ?_
        obtain rfl : die = die' := Option.some.inj (hdie.symm.trans hsome)
        rw [hlines]
        rfl
      | none =>
        cases us with
        | nil => simp [hlines, Walk.done]
        | cons v us =>
          rw [List.dropLast_cons_cons, List.forall_mem_cons]
          refine iff_of_false (fun hall => ?_) fun hall => ?_
          · have hlength := congrArg List.length hall
            simp [hlines, Walk.done] at hlength
          · have hsome := hall.1 die hdie
            rw [hlines] at hsome
            cases hsome

/-- With the right offsets, the lines of each unit are reported. -/
theorem subset_lines_forEachLineFrom (h : Chained offset us)
    (hall : ∀ u ∈ us.dropLast, (offdie u.dieOffset).isSome) {u : CompilationUnit} (hu : u ∈ us)
    {die : Die} (hdie : offdie u.dieOffset = some die) :
    die.sourceLines ⊆ (forEachLineFrom offdie us offset).lines := by
  induction us generalizing offset with
  | nil => cases hu
  | cons v us ih =>
    obtain ⟨rfl, -, hrest⟩ := h
    have hoffset : v.start + v.headerSize = v.dieOffset := rfl
    rw [forEachLineFrom, hoffset]
    rcases List.mem_cons.mp hu with rfl | hmem
    · rw [hdie]
      exact List.subset_append_left _ _
    · obtain ⟨w, ws, rfl⟩ := List.exists_cons_of_ne_nil (List.ne_nil_of_mem hmem)
      rw [List.dropLast_cons_cons, List.forall_mem_cons] at hall
      obtain ⟨die', hdie'⟩ := Option.isSome_iff_exists.mp hall.1
      rw [hdie']
      exact List.Subset.trans (ih hrest hall.2 hmem) (List.subset_append_right _ _)

/-- The walks agree if and only if no unit but the last one has a DIE that is not found, or one at
which `forAddress` returns. -/
theorem walksAgree_iff (d : Dwarf) (address : U64) :
    d.WalksAgree address ↔ ∀ u ∈ d.units.dropLast, Passes d.offdie address u := by
  have hlines := @visited_forEachLineFrom_iff d.offdie _ _ d.chained
  have haddress := @visited_forAddressFrom_iff d.offdie _ _ address d.chained
  constructor
  · intro h u hu
    obtain ⟨die, hdie⟩ := Option.isSome_iff_exists.mp (hlines.mp h.forEachLine u hu)
    exact ⟨die, hdie, haddress.mp (h.forAddress.symm.trans h.forEachLine) u hu die hdie⟩
  · intro h
    have hfound : ∀ u ∈ d.units.dropLast, (d.offdie u.dieOffset).isSome := by
      intro u hu
      obtain ⟨die, hdie, -⟩ := h u hu
      rw [hdie]
      rfl
    have hgoes : ∀ u ∈ d.units.dropLast, ∀ die, d.offdie u.dieOffset = some die →
        (addressLines address die).isSome := by
      intro u hu die hdie
      obtain ⟨die', hdie', hsome⟩ := h u hu
      obtain rfl : die = die' := Option.some.inj (hdie.symm.trans hdie')
      exact hsome
    have hvisited := hlines.mpr hfound
    exact ⟨hvisited, hvisited.trans (haddress.mpr hgoes).symm,
      fun u hu die hdie => subset_lines_forEachLineFrom d.chained hfound hu hdie⟩

/-- Two units, the first of which has no DIE. -/
def firstUnreadable : Dwarf where
  units := [⟨0, 11, 100⟩, ⟨100, 11, 200⟩]
  chained := ⟨rfl, by decide, rfl, by decide, trivial⟩
  offdie offset := if offset = 111 then some ⟨some [], true, some (none, 1), fun _ => none⟩ else none

/-- The second unit is looked for at the place of the first one. -/
theorem not_walksAgree_firstUnreadable : ¬firstUnreadable.WalksAgree 0 := by
  intro h
  have hvisited := h.forEachLine
  revert hvisited
  decide

end Dwarf

end Elf

end Kcov
