import Kcov.Lib.FirstMax
import Kcov.Utils
import Mathlib.Data.List.Perm.Basic

/-! Which parser and which engine take a program: the scores of the parsers and of the creators of
the engines, and the two managers that look for the best of them. -/

namespace Kcov

open Bytes FirstMax

def matchNone : Nat := 0
def matchPerfect : Nat := 0xffffffff

/-- What `lstat` and the stream of `peek_file` find: `closed` is a file that cannot be opened. -/
inductive FileOnDisk
  | missing
  | directory
  | closed
  | content (data : List Byte)

/-- `peek_file`: the first 512 bytes, in a block of zeros, or NULL; and `none` where it panics. -/
def peekFile (path : Text) (file : FileOnDisk) : Option (Option (List Byte)) :=
  if 2048 ≤ path.length then none
  else
    match file with
    | .missing | .directory | .closed | .content [] => some none
    | .content data => some (some (data.take 512 ++ List.replicate (512 - data.length) 0))

/-- The keys that `SystemModeEngineCreator::matchFile` reads. -/
structure SystemModeKeys where
  writeFile : Text
  readResultsFile : Text

/-! ### The scores -/

/-- `memcmp(hdr->e_ident, ELFMAG, strlen(ELFMAG)) == 0`. -/
def hasElfMagic (data : List Byte) : Bool := data.take 4 = 0x7f :: ascii "ELF"

/-- A script is known by the suffix of its name, or by the first of the patterns that its first 80
bytes contain. -/
def scriptScore (suffix : Text) (patterns : List (Text × Nat)) (filename : Text)
    (data : List Byte) : Nat :=
  if suffix <:+ filename then 200
  else ((patterns.find? fun p => finds (data.take 80) p.1).map Prod.snd).getD matchNone

def bashScore : Text → List Byte → Nat :=
  scriptScore (ascii ".sh")
    [(ascii "#!/bin/bash", 400), (ascii "#!/bin/sh", 300), (ascii "bash", 100), (ascii "sh", 50)]

def pythonScore : Text → List Byte → Nat :=
  scriptScore (ascii ".py") [(ascii "python", 100)]

/-- `getParserType` of the registered parsers. -/
inductive ParserType
  | elf
  | bash
  | python
  deriving DecidableEq, Repr

/-- `matchParser` of `ElfInstance`, `BashEngine` and `PythonEngine`. -/
def ParserType.matchParser (filename : Text) (data : List Byte) : ParserType → Nat
  | .elf => if hasElfMagic data then matchPerfect else matchNone
  | .bash => bashScore filename data
  | .python => pythonScore filename data

/-- The registered engines. -/
inductive EngineType
  | ptrace
  | kernel
  | bash
  | python
  | systemMode
  deriving DecidableEq, Repr

/-- The name by which the kernel engine knows the kernel and its modules. -/
def isKernelName (filename : Text) : Bool :=
  finds filename (ascii "vmlinux") || finds filename (ascii ".ko")

def SystemModeKeys.isSet (keys : SystemModeKeys) : Bool :=
  keys.writeFile ≠ [] || keys.readResultsFile ≠ []

/-- `matchFile` of the creators. -/
def EngineType.matchFile (keys : SystemModeKeys) (filename : Text) (data : List Byte) :
    EngineType → Nat
  | .ptrace => if hasElfMagic data then matchPerfect else 1
  | .kernel => if isKernelName filename then matchPerfect else matchNone
  | .bash => bashScore filename data
  | .python => pythonScore filename data
  | .systemMode => if keys.isSet then matchPerfect else matchNone

/-! ### The managers -/

/-- The source files with a static object that registers a parser or an engine. They are initialised
in an order that the linker chooses. -/
inductive TranslationUnit
  | elfParser
  | ptrace
  | kernelEngine
  | bashEngine
  | pythonEngine
  | systemModeEngine
  deriving DecidableEq, Repr

namespace TranslationUnit

def all : List TranslationUnit :=
  [elfParser, ptrace, kernelEngine, bashEngine, pythonEngine, systemModeEngine]

/-- `registerParser`. -/
def parser? : TranslationUnit → Option ParserType
  | elfParser => some .elf
  | bashEngine => some .bash
  | pythonEngine => some .python
  | _ => none

/-- `registerEngine`. -/
def engine? : TranslationUnit → Option EngineType
  | elfParser => none
  | ptrace => some .ptrace
  | kernelEngine => some .kernel
  | bashEngine => some .bash
  | pythonEngine => some .python
  | systemModeEngine => some .systemMode

end TranslationUnit

/-- The loop of `ParserManager::matchParser`, with `preVal` beside the best parser. -/
def ParserType.best (score : ParserType → Nat) (parsers : List ParserType) :
    Option ParserType × Nat :=
  parsers.foldl (fun s parser =>
    let myVal := score parser
    if myVal = matchNone then s
    else if s.1.isNone || s.2 < myVal then (some parser, myVal)
    else s) (none, 2 ^ 64 - 1)

/-- `ParserManager::matchParser`: a parser or NULL, or `none` where it panics. -/
def matchParser (units : List TranslationUnit) (filename : Text) (file : FileOnDisk) :
    Option (Option ParserType) := do
  match ← peekFile filename file with
  | none => return none
  | some data =>
    return (ParserType.best (ParserType.matchParser filename data)
      (units.filterMap (·.parser?))).1

/-- The loop of `EngineFactory::matchEngine`. -/
def EngineType.best (score : EngineType → Nat) (engines : List EngineType) : Option EngineType :=
  engines.foldl (fun best engine =>
    let cur := best.getD engine
    if score cur < score engine then some engine else some cur) none

/-- `EngineFactory::matchEngine`, or `none` where it panics or the creators read from NULL. -/
def matchEngine (units : List TranslationUnit) (keys : SystemModeKeys) (filename : Text)
    (file : FileOnDisk) : Option EngineType := do
  let data ← (← peekFile filename file)
  EngineType.best (EngineType.matchFile keys filename data) (units.filterMap (·.engine?))

/-- The parser and the engine that `runKcov` goes on with, or `some none` where it reports that it
cannot open the file; and `none` where it does not get that far. -/
def runKcovMatch (units : List TranslationUnit) (keys : SystemModeKeys) (filename : Text)
    (file : FileOnDisk) : Option (Option (ParserType × EngineType)) := do
  match ← matchParser units filename file with
  | none => return none
  | some parser =>
    let engine ← matchEngine units keys filename file
    return some (parser, engine)

/-- The engine that reads and runs what the parser parses. -/
def ParserType.engine : ParserType → EngineType
  | .elf => .ptrace
  | .bash => .bash
  | .python => .python

/-- Some parser takes the file. -/
def isMatched (filename : Text) (data : List Byte) : Bool :=
  hasElfMagic data || bashScore filename data ≠ 0 || pythonScore filename data ≠ 0

/-! ### The best of the scores -/

theorem engineBest_eq_argmax (score : EngineType → Nat) (engines : List EngineType) :
    EngineType.best score engines = engines.argmax score := by
  induction engines using List.reverseRecOn with
  | nil => rfl
  | append_singleton engines engine ih =>
    rw [EngineType.best, List.foldl_append, ← EngineType.best, ih, List.argmax_concat]
    cases engines.argmax score with
    | none => simp
    | some best => rfl

theorem parserBest_eq_argmax (score : ParserType → Nat) (parsers : List ParserType) :
    (ParserType.best score parsers).1 = (parsers.filter (score · ≠ matchNone)).argmax score ∧
      ∀ best, (ParserType.best score parsers).1 = some best →
        (ParserType.best score parsers).2 = score best := by
  induction parsers using List.reverseRecOn with
  | nil => exact ⟨rfl, fun best h => by cases h⟩
  | append_singleton parsers parser ih =>
    obtain ⟨ih, hval⟩ := ih
    rw [ParserType.best, List.foldl_append, ← ParserType.best, List.foldl_cons, List.foldl_nil,
      List.filter_append]
    by_cases hnone : score parser = matchNone
    · rw [if_pos hnone, List.filter_singleton, decide_eq_false (not_not.mpr hnone)]
      exact ⟨by rw [ih]; simp, hval⟩
    · rw [if_neg hnone, List.filter_singleton, decide_eq_true hnone]
      rw [cond_true, List.argmax_concat, ← ih]
      cases hbest : (ParserType.best score parsers).1 with
      | none => simp
      | some best =>
        rw [hval best hbest]
        by_cases hlt : score best < score parser
        · simp [hlt]
        · simp [hlt, hbest, hval best hbest]

section Matching

variable {units : List TranslationUnit} {keys : SystemModeKeys} {filename : Text}
  {file : FileOnDisk} {data : List Byte} {parser : ParserType} {engine : EngineType}

theorem matchEngine_of_peek (hdata : peekFile filename file = some (some data)) :
    matchEngine units keys filename file =
      EngineType.best (EngineType.matchFile keys filename data) (units.filterMap (·.engine?)) := by
  rw [matchEngine, hdata]
  rfl

theorem matchParser_of_peek (hdata : peekFile filename file = some (some data)) :
    matchParser units filename file = some (ParserType.best
      (ParserType.matchParser filename data) (units.filterMap (·.parser?))).1 := by
  rw [matchParser, hdata]
  rfl

theorem matchEngine_eq_some_iff (hdata : peekFile filename file = some (some data)) :
    matchEngine units keys filename file = some engine ↔
      ∃ before u after, units = before ++ u :: after ∧ u.engine? = some engine ∧
        (∀ v ∈ before, ∀ e, v.engine? = some e →
          e.matchFile keys filename data < engine.matchFile keys filename data) ∧
        ∀ v ∈ after, ∀ e, v.engine? = some e →
          e.matchFile keys filename data ≤ engine.matchFile keys filename data := by
  rw [matchEngine_of_peek hdata, engineBest_eq_argmax, argmax_eq_some_iff, isFirstMax_filterMap]

theorem matchParser_eq_some_iff (hdata : peekFile filename file = some (some data)) :
    matchParser units filename file = some (some parser) ↔
      ∃ before u after, units = before ++ u :: after ∧ u.parser? = some parser ∧
        parser.matchParser filename data ≠ matchNone ∧
        (∀ v ∈ before, ∀ p, v.parser? = some p →
          p.matchParser filename data < parser.matchParser filename data) ∧
        ∀ v ∈ after, ∀ p, v.parser? = some p →
          p.matchParser filename data ≤ parser.matchParser filename data := by
  rw [matchParser_of_peek hdata, Option.some.injEq, (parserBest_eq_argmax _ _).1,
    List.filter_filterMap, argmax_eq_some_iff, isFirstMax_filterMap]
  refine exists_congr fun before => exists_congr fun u => exists_congr fun after =>
    and_congr_right fun _ => ?_
  simp only [Option.filter_eq_some_iff, decide_eq_true_eq, and_assoc]
  refine and_congr_right fun _ => and_congr_right fun hne => and_congr ?_ ?_
  · refine forall₃_congr fun v _ p => ⟨fun h hp => ?_, fun h hp => h hp.1⟩
    by_cases hnone : p.matchParser filename data = matchNone
    · rw [hnone]
      exact Nat.pos_of_ne_zero hne
    · exact h ⟨hp, hnone⟩
  · refine forall₃_congr fun v _ p => ⟨fun h hp => ?_, fun h hp => h hp.1⟩
    by_cases hnone : p.matchParser filename data = matchNone
    · rw [hnone]
      exact Nat.zero_le _
    · exact h ⟨hp, hnone⟩

/-! ### The scores of scripts -/

theorem scriptScore_le {suffix : Text} {patterns : List (Text × Nat)} {least most : Nat}
    (hsuffix : least ≤ 200 ∧ 200 ≤ most) (hpatterns : ∀ p ∈ patterns, least ≤ p.2 ∧ p.2 ≤ most) :
    scriptScore suffix patterns filename data = 0 ∨
      least ≤ scriptScore suffix patterns filename data ∧
        scriptScore suffix patterns filename data ≤ most := by
  rw [scriptScore]
  split
  · exact Or.inr hsuffix
  · cases hfind : patterns.find? fun p => finds (data.take 80) p.1 with
    | none => exact Or.inl rfl
    | some p => exact Or.inr (hpatterns p (List.mem_of_find?_eq_some hfind))

theorem bashScore_cases (filename : Text) (data : List Byte) :
    bashScore filename data = 0 ∨ 50 ≤ bashScore filename data ∧ bashScore filename data ≤ 400 :=
  scriptScore_le (by decide) (by decide)

theorem pythonScore_cases (filename : Text) (data : List Byte) : pythonScore filename data = 0 ∨
    100 ≤ pythonScore filename data ∧ pythonScore filename data ≤ 200 :=
  scriptScore_le (by decide) (by decide)

theorem matchFile_le (engine : EngineType) :
    engine.matchFile keys filename data ≤ matchPerfect := by
  have hbash := bashScore_cases filename data
  have hpython := pythonScore_cases filename data
  cases engine with
  | bash =>
    rw [EngineType.matchFile, matchPerfect]
    omega
  | python =>
    rw [EngineType.matchFile, matchPerfect]
    omega
  | _ =>
    rw [EngineType.matchFile]
    split <;> decide

/-! ### The parser -/

theorem mem_of_perm (hperm : units.Perm TranslationUnit.all) (u : TranslationUnit) : u ∈ units := by
  rw [hperm.mem_iff]
  cases u <;> decide

/-- The best parser is not worse than the others. -/
theorem matchParser_best (hperm : units.Perm TranslationUnit.all)
    (hdata : peekFile filename file = some (some data))
    (h : matchParser units filename file = some (some parser)) (p : ParserType) :
    p.matchParser filename data ≤ parser.matchParser filename data := by
  obtain ⟨u, hu⟩ : ∃ u : TranslationUnit, u.parser? = some p := by
    cases p with
    | elf => exact ⟨.elfParser, rfl⟩
    | bash => exact ⟨.bashEngine, rfl⟩
    | python => exact ⟨.pythonEngine, rfl⟩
  obtain ⟨before, v, after, rfl, hv, -, hbefore, hafter⟩ := (matchParser_eq_some_iff hdata).mp h
  have hmem := mem_of_perm hperm u
  rw [List.mem_append, List.mem_cons] at hmem
  rcases hmem with hmem | rfl | hmem
  · exact (hbefore u hmem p hu).le
  · rw [Option.some.inj (hu.symm.trans hv)]
  · exact hafter u hmem p hu

/-- A parser is found whenever some parser takes the file. -/
theorem matchParser_found (hperm : units.Perm TranslationUnit.all)
    (hdata : peekFile filename file = some (some data)) :
    (∃ parser, matchParser units filename file = some (some parser)) ↔
      isMatched filename data = true := by
  simp only [matchParser_of_peek hdata, Option.some.injEq]
  rw [← Option.isSome_iff_exists, (parserBest_eq_argmax _ _).1, ← Option.ne_none_iff_isSome, ne_eq,
    List.argmax_eq_none, List.filter_eq_nil_iff]
  have hparsers : ∀ p, p ∈ units.filterMap (·.parser?) := by
    intro p
    rw [List.mem_filterMap]
    cases p with
    | elf => exact ⟨.elfParser, mem_of_perm hperm _, rfl⟩
    | bash => exact ⟨.bashEngine, mem_of_perm hperm _, rfl⟩
    | python => exact ⟨.pythonEngine, mem_of_perm hperm _, rfl⟩
  have hfound : (∃ p : ParserType, p.matchParser filename data ≠ matchNone) ↔
      isMatched filename data = true := by
    simp only [isMatched, Bool.or_eq_true, decide_eq_true_eq]
    constructor
    · rintro ⟨p, hp⟩
      cases p with
      | elf =>
        rw [ParserType.matchParser, ite_ne_right_iff] at hp
        exact Or.inl (Or.inl hp.1)
      | bash => exact Or.inl (Or.inr hp)
      | python => exact Or.inr hp
    · rintro ((helf | hbash) | hpython)
      · exact ⟨.elf, by rw [ParserType.matchParser, if_pos helf]; decide⟩
      · exact ⟨.bash, hbash⟩
      · exact ⟨.python, hpython⟩
  rw [← hfound]
  simp only [decide_eq_true_eq, not_not, not_forall]
  exact ⟨fun ⟨p, _, hp⟩ => ⟨p, hp⟩, fun ⟨p, hp⟩ => ⟨p, hparsers p, hp⟩⟩

/-! ### The engine -/

/-- The first of the engines that match perfectly wins. -/
theorem matchEngine_perfect {u : TranslationUnit} (hdata : peekFile filename file = some (some data))
    (hu : u.engine? = some engine) (hperfect : engine.matchFile keys filename data = matchPerfect) :
    matchEngine (u :: units) keys filename file = some engine :=
  (matchEngine_eq_some_iff hdata).mpr ⟨[], u, units, rfl, hu, fun v hv => absurd hv (by simp),
    fun _ _ e _ => hperfect ▸ matchFile_le e⟩

/-- Where no engine matches perfectly, an engine has the score of the parser of its source file, or
one that a script beats. -/
theorem matchFile_plain (hkeys : keys.isSet = false) (hname : isKernelName filename = false)
    (helf : hasElfMagic data = false) {v : TranslationUnit} (hv : v.engine? = some engine) :
    engine.matchFile keys filename data ≤ 1 ∨
      ∃ p, v.parser? = some p ∧
        engine.matchFile keys filename data = p.matchParser filename data := by
  cases v with
  | elfParser => cases hv
  | ptrace =>
    cases hv
    exact Or.inl (by simp [EngineType.matchFile, helf])
  | kernelEngine =>
    cases hv
    exact Or.inl (by simp [EngineType.matchFile, hname, matchNone])
  | bashEngine =>
    cases hv
    exact Or.inr ⟨.bash, rfl, rfl⟩
  | pythonEngine =>
    cases hv
    exact Or.inr ⟨.python, rfl, rfl⟩
  | systemModeEngine =>
    cases hv
    exact Or.inl (by simp [EngineType.matchFile, hkeys, matchNone])

/-- The engine of a script is found where its parser is: both are registered by one source file. -/
theorem matchEngine_script (hperm : units.Perm TranslationUnit.all) (hkeys : keys.isSet = false)
    (hname : isKernelName filename = false) (hdata : peekFile filename file = some (some data))
    (hscript : parser ≠ .elf) (h : matchParser units filename file = some (some parser)) :
    matchEngine units keys filename file = some parser.engine := by
  have hscore : 1 < parser.matchParser filename data ∧
      parser.matchParser filename data < matchPerfect ∧ ∀ u : TranslationUnit,
        u.parser? = some parser → u.engine? = some parser.engine ∧
          parser.engine.matchFile keys filename data = parser.matchParser filename data := by
    obtain ⟨-, -, -, -, -, hne, -, -⟩ := (matchParser_eq_some_iff hdata).mp h
    have hbash := bashScore_cases filename data
    have hpython := pythonScore_cases filename data
    cases parser with
    | elf => exact absurd rfl hscript
    | bash =>
      rw [ParserType.matchParser, matchNone] at hne
      refine ⟨show 1 < bashScore filename data by omega,
        show bashScore filename data < 0xffffffff by omega, fun u hu => ?_⟩
      cases u with
      | bashEngine => exact ⟨rfl, rfl⟩
      | _ => cases hu
    | python =>
      rw [ParserType.matchParser, matchNone] at hne
      refine ⟨show 1 < pythonScore filename data by omega,
        show pythonScore filename data < 0xffffffff by omega, fun u hu => ?_⟩
      cases u with
      | pythonEngine => exact ⟨rfl, rfl⟩
      | _ => cases hu
  obtain ⟨hone, hless, hunit⟩ := hscore
  have helf : hasElfMagic data = false := by
    by_contra htrue
    have hbest := matchParser_best hperm hdata h .elf
    rw [ParserType.matchParser, if_pos (Bool.not_eq_false _ ▸ htrue)] at hbest
    omega
  obtain ⟨before, u, after, rfl, hu, -, hbefore, hafter⟩ := (matchParser_eq_some_iff hdata).mp h
  obtain ⟨hengine, hfile⟩ := hunit u hu
  refine (matchEngine_eq_some_iff hdata).mpr
    ⟨before, u, after, rfl, hengine, fun v hv e he => ?_, fun v hv e he => ?_⟩
  · rw [hfile]
    rcases matchFile_plain hkeys hname helf he with hle | ⟨p, hp, heq⟩
    · omega
    · exact heq ▸ hbefore v hv p hp
  · rw [hfile]
    rcases matchFile_plain hkeys hname helf he with hle | ⟨p, hp, heq⟩
    · omega
    · exact heq ▸ hafter v hv p hp

theorem matchEngine_elf (hperm : units.Perm TranslationUnit.all) (hkeys : keys.isSet = false)
    (hname : isKernelName filename = false) (hdata : peekFile filename file = some (some data))
    (helf : hasElfMagic data = true) :
    matchEngine units keys filename file = some .ptrace := by
  have hperfect : EngineType.ptrace.matchFile keys filename data = matchPerfect := by
    rw [EngineType.matchFile, if_pos helf]
  have hbash := bashScore_cases filename data
  have hpython := pythonScore_cases filename data
  have hless : ∀ e : EngineType, e ≠ .ptrace → e.matchFile keys filename data < matchPerfect := by
    intro e he
    cases e with
    | ptrace => exact absurd rfl he
    | kernel => simp [EngineType.matchFile, hname, matchNone, matchPerfect]
    | bash => exact show bashScore filename data < 0xffffffff by omega
    | python => exact show pythonScore filename data < 0xffffffff by omega
    | systemMode => simp [EngineType.matchFile, hkeys, matchNone, matchPerfect]
  obtain ⟨before, after, hsplit⟩ := List.append_of_mem (mem_of_perm hperm .ptrace)
  have hnodup : units.Nodup := hperm.nodup_iff.mpr (by decide)
  refine (matchEngine_eq_some_iff hdata).mpr
    ⟨before, .ptrace, after, hsplit, rfl, fun v hv e he => ?_, fun v _ e _ => ?_⟩
  · rw [hperfect]
    refine hless e ?_
    rintro rfl
    obtain rfl : v = .ptrace := by cases v <;> first | rfl | cases he
    rw [hsplit, List.nodup_append] at hnodup
    exact hnodup.2.2 _ hv _ List.mem_cons_self rfl
  · rw [hperfect]
    exact matchFile_le e

/-- In whichever order the source files are initialised, the engine is that of the parser, if and
only if no parser takes the file, or the system mode is off and the name is not that of a kernel. -/
theorem runKcovMatch_pairs_iff (keys : SystemModeKeys) (filename : Text) (file : FileOnDisk) :
    (∀ units, units.Perm TranslationUnit.all → runKcovMatch units keys filename file =
      (matchParser units filename file).map fun found =>
        found.map fun parser => (parser, parser.engine)) ↔
    (∀ data, peekFile filename file = some (some data) → isMatched filename data = false) ∨
      (keys.isSet = false ∧ isKernelName filename = false) := by
  constructor
  · intro h
    by_contra hnot
    obtain ⟨hfound, hperfect⟩ := not_or.mp hnot
    simp only [not_forall, Bool.not_eq_false] at hfound
    obtain ⟨data, hdata, hmatched⟩ := hfound
    -- the source file of an engine that matches perfectly, before all others
    obtain ⟨u, e, hu, he, hperm, hother⟩ : ∃ (u : TranslationUnit) (e : EngineType),
        u.engine? = some e ∧ e.matchFile keys filename data = matchPerfect ∧
          (u :: TranslationUnit.all.erase u).Perm TranslationUnit.all ∧
            ∀ p : ParserType, p.engine ≠ e := by
      cases hkeys : keys.isSet with
      | true =>
        refine ⟨.systemModeEngine, .systemMode, rfl, ?_, by decide, fun p => by cases p <;> decide⟩
        rw [EngineType.matchFile, if_pos hkeys]
      | false =>
        refine ⟨.kernelEngine, .kernel, rfl, ?_, by decide, fun p => by cases p <;> decide⟩
        rw [EngineType.matchFile, if_pos (by simpa [hkeys] using hperfect)]
    obtain ⟨parser, hparser⟩ := (matchParser_found hperm hdata).mpr hmatched
    have hpair := h _ hperm
    rw [runKcovMatch, hparser] at hpair
    simp only [matchEngine_perfect hdata hu he, Option.bind_eq_bind, Option.bind_some,
      Option.map_some, Option.pure_def, Option.some.injEq, Prod.mk.injEq] at hpair
    exact hother parser hpair.2.symm
  · intro h units hperm
    cases hparser : matchParser units filename file with
    | none =>
      rw [runKcovMatch, hparser]
      rfl
    | some found =>
      cases found with
      | none =>
        rw [runKcovMatch, hparser]
        rfl
      | some parser =>
        obtain ⟨data, hdata⟩ : ∃ data, peekFile filename file = some (some data) := by
          cases hpeek : peekFile filename file with
          | none => simp [matchParser, hpeek] at hparser
          | some block =>
            cases block with
            | none => simp [matchParser, hpeek] at hparser
            | some data => exact ⟨data, rfl⟩
        obtain ⟨hkeys, hname⟩ := h.resolve_left fun hnone => by
          have hmatched := (matchParser_found hperm hdata).mp ⟨parser, hparser⟩
          rw [hnone data hdata] at hmatched
          cases hmatched
        have hengine : matchEngine units keys filename file = some parser.engine := by
          by_cases hscript : parser = .elf
          · subst hscript
            obtain ⟨-, -, -, -, -, hne, -, -⟩ := (matchParser_eq_some_iff hdata).mp hparser
            rw [ParserType.matchParser, ite_ne_right_iff] at hne
            exact matchEngine_elf hperm hkeys hname hdata hne.1
          · exact matchEngine_script hperm hkeys hname hdata hscript hparser
        rw [runKcovMatch, hparser]
        simp [hengine]

/-- A shell script below a directory whose name looks like that of a kernel module. -/
example : runKcovMatch TranslationUnit.all ⟨[], []⟩ (ascii "/home/my.kode/run.sh")
    (.content (ascii "#!/bin/sh")) = some (some (.bash, .kernel)) := by
  decide +kernel

end Matching

end Kcov
