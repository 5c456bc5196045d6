import Kcov.Lib.Paths
import Kcov.Utils
import Mathlib.Data.Nat.Log

/-! Where a program's output goes, and the directories from which the merge parser takes the metadata
of the other programs. -/

namespace Kcov

open Bytes Paths

/-- What the paths of a run are made of: the arguments of kcov, and what was found for them. -/
structure OutputSetup where
  host : Host
  /-- `argv[afterOpts]`. -/
  outArgument : Text
  mergeMode : Bool
  coberturaOnly : Bool
  /-- The path of the program, as `look_path` finds it. -/
  binaryPath : Text
  /-- The parser of the program is the one for bash or python. -/
  script : Bool

/-- `hash_file`. -/
def Host.hashFile (host : Host) (filename : Text) : BitVec 32 :=
  match host.readFile filename with
  | some data => host.hashBlock data
  | none => 0

/-- `fmt("%08zx", v)`. -/
def longHexName (v : BitVec 64) : Text := hexDigits (max 8 (Nat.log 16 v.toNat + 1)) v.toNat

namespace OutputSetup

/-- `out-directory`. The source looks before the start of an empty argument; no slash is found
there. -/
def outDirectory (cfg : OutputSetup) : Text :=
  if cfg.outArgument.getLast? = some slash then cfg.outArgument else cfg.outArgument ++ [slash]

/-- `binary-name`. -/
def binaryName (cfg : OutputSetup) : Text :=
  if cfg.mergeMode then ascii "merged-kcov-output" else (splitPath cfg.binaryPath).2

/-- The hash behind the name: of the name itself for scripts, of the file for other programs. -/
def targetHash (cfg : OutputSetup) : BitVec 64 :=
  if cfg.script then cfg.host.stringHash cfg.binaryName
  else (cfg.host.hashFile (cfg.host.realPath cfg.binaryPath)).setWidth 64

/-- `target-directory`. -/
def targetDirectory (cfg : OutputSetup) : Text :=
  if cfg.mergeMode then cfg.outDirectory ++ ascii "/merged-kcov-output"
  else if !cfg.coberturaOnly then
    cfg.outDirectory ++ slash :: (cfg.binaryName ++ 0x2e :: longHexName cfg.targetHash)
  else cfg.outDirectory

/-- `m_baseDirectory` of the output handler and the merge parser. -/
def baseDirectory (cfg : OutputSetup) : Text := cfg.outDirectory

/-- `m_outDirectory` of the output handler, `m_outputDirectory` of the merge parser. -/
def outputDirectory (cfg : OutputSetup) : Text := cfg.targetDirectory ++ [slash]

end OutputSetup

/-! ### Stored data -/

namespace MergeParser

variable {D : Type*}

/-- `opendir`. -/
def opendir (t : Tree Byte D) (path : Text) : Option D := t.opendir slash 0x2e path

/-- The directory whose files `parseDirectory` reads. -/
def parseDirectory (t : Tree Byte D) (dirName : Text) : Option D :=
  opendir t (dirName ++ ascii "/metadata")

/-- `parseStoredData`: the directories whose files are read, or `none` where it panics. -/
def parseStoredData (t : Tree Byte D) (cfg : OutputSetup) : Option (List D) := do
  let dir ← opendir t cfg.baseDirectory
  return (t.readdir dir).filterMap fun name =>
    let cur := cfg.baseDirectory ++ name
    -- ... except for the current coveree
    if cur = cfg.outputDirectory then none else parseDirectory t cur

/-- `onStop` reads stored data with `parseStoredData` if it is called at all. -/
def readsStoredData (cfg : OutputSetup) : Bool := !cfg.coberturaOnly && !cfg.mergeMode

/-- `onStop` reads no metadata from the directory to which it writes its own. -/
def SkipsOwn (t : Tree Byte D) (cfg : OutputSetup) : Prop :=
  readsStoredData cfg = true → ∀ dirs, parseStoredData t cfg = some dirs →
    ∀ dir, parseDirectory t cfg.outputDirectory = some dir → dir ∉ dirs

end MergeParser

namespace OutputSetup

variable {cfg : OutputSetup}

/-- The name of the output directory in the base directory. -/
def targetName (cfg : OutputSetup) : Text := cfg.binaryName ++ 0x2e :: longHexName cfg.targetHash

theorem baseDirectory_eq (cfg : OutputSetup) : ∃ b, cfg.baseDirectory = b ++ [slash] := by
  rw [baseDirectory, outDirectory]
  split
  next h => exact ⟨_, (List.dropLast_append_getLast? _ h).symm⟩
  next => exact ⟨cfg.outArgument, rfl⟩

/-- The base directory ends with a slash, and another one is put behind it. -/
theorem outputDirectory_eq (h : MergeParser.readsStoredData cfg = true) :
    cfg.outputDirectory = cfg.baseDirectory ++ slash :: (cfg.targetName ++ [slash]) := by
  simp only [MergeParser.readsStoredData, Bool.and_eq_true, Bool.not_eq_true'] at h
  simp [outputDirectory, targetDirectory, baseDirectory, targetName, h.1, h.2]

theorem slash_notMem_targetName (h : MergeParser.readsStoredData cfg = true) :
    slash ∉ cfg.targetName := by
  simp only [MergeParser.readsStoredData, Bool.and_eq_true, Bool.not_eq_true'] at h
  have hname : slash ∉ cfg.binaryName := by
    rw [binaryName, h.2, if_neg Bool.false_ne_true, splitPath]
    intro hmem
    simpa using List.mem_takeWhile_imp (List.mem_reverse.mp hmem)
  have hhash : slash ∉ longHexName cfg.targetHash := by
    intro hmem
    exact absurd (isHexDigit_of_mem hmem) (by decide)
  rw [targetName, List.mem_append, List.mem_cons]
  rintro (hmem | hmem | hmem)
  · exact hname hmem
  · exact absurd hmem (by decide)
  · exact hhash hmem

theorem length_targetName (cfg : OutputSetup) : 9 ≤ cfg.targetName.length := by
  have hmax : 8 ≤ max 8 (Nat.log 16 cfg.targetHash.toNat + 1) := Nat.le_max_left _ _
  rw [targetName, List.length_append, List.length_cons, longHexName, length_hexDigits]
  omega

end OutputSetup

namespace MergeParser

variable {D : Type*} {t : Tree Byte D} {cfg : OutputSetup}

/-- The two ways to write the path of the output directory. -/
theorem parseDirectory_own (h : readsStoredData cfg = true) :
    parseDirectory t cfg.outputDirectory =
      parseDirectory t (cfg.baseDirectory ++ cfg.targetName) := by
  obtain ⟨b, hb⟩ := cfg.baseDirectory_eq
  have hne : cfg.baseDirectory ≠ [] := by
    rw [hb]
    simp
  rw [parseDirectory, parseDirectory, cfg.outputDirectory_eq h, opendir, opendir, Tree.opendir,
    Tree.opendir, List.append_assoc, List.append_assoc, t.lookup_congr hne]
  have hmetadata : ascii "/metadata" = slash :: ascii "metadata" := rfl
  simp only [hb, hmetadata, List.append_assoc, List.cons_append, List.nil_append,
    components_append, components_cons]

/-- The comparison does not recognise the output directory. -/
theorem ne_outputDirectory (h : readsStoredData cfg = true) :
    cfg.baseDirectory ++ cfg.targetName ≠ cfg.outputDirectory := by
  rw [cfg.outputDirectory_eq h]
  intro heq
  have hlen := congrArg List.length heq
  simp only [List.length_append, List.length_cons] at hlen
  omega

/-- The output directory is listed. -/
theorem mem_readdir (h : readsStoredData cfg = true) {base dir : D}
    (hbase : opendir t cfg.baseDirectory = some base)
    (hown : parseDirectory t (cfg.baseDirectory ++ cfg.targetName) = some dir) :
    cfg.targetName ∈ t.readdir base := by
  obtain ⟨b, hb⟩ := cfg.baseDirectory_eq
  have hlen := cfg.length_targetName
  obtain ⟨hbase, -⟩ := Option.filter_eq_some_iff.mp hbase
  obtain ⟨hown, -⟩ := Option.filter_eq_some_iff.mp hown
  have hmetadata : ascii "/metadata" = slash :: ascii "metadata" := rfl
  rw [hb, List.append_assoc, List.append_assoc, List.singleton_append, hmetadata] at hown
  rw [hb] at hbase
  refine t.mem_readdir (OutputSetup.slash_notMem_targetName h) ?_ ?_ hbase hown
  · rintro hnil
    simp [hnil] at hlen
  · rintro hdot
    simp [hdot] at hlen

/-- The metadata of an earlier run of the program are left out if and only if no stored data are
read, or there is no directory to read them from. -/
theorem skips_own_iff (t : Tree Byte D) (cfg : OutputSetup) : SkipsOwn t cfg ↔
    readsStoredData cfg = false ∨ opendir t cfg.baseDirectory = none ∨
      parseDirectory t cfg.outputDirectory = none := by
  constructor
  · intro hskips
    cases h : readsStoredData cfg with
    | false => exact Or.inl rfl
    | true =>
      cases hbase : opendir t cfg.baseDirectory with
      | none => exact Or.inr (Or.inl rfl)
      | some base =>
        refine Or.inr (Or.inr (Option.eq_none_iff_forall_ne_some.mpr fun dir hown => ?_))
        refine hskips h _ (by rw [parseStoredData, hbase]; rfl) dir hown ?_
        rw [parseDirectory_own h] at hown
        refine List.mem_filterMap.mpr ⟨cfg.targetName, mem_readdir h hbase hown, ?_⟩
        rw [if_neg (ne_outputDirectory h)]
        exact hown
  · rintro (h | hbase | hown) hreads dirs hdirs dir hdir
    · rw [h] at hreads
      cases hreads
    · rw [parseStoredData, hbase] at hdirs
      cases hdirs
    · rw [hown] at hdir
      cases hdir

/-! ### A program that was run before -/

/-- The program `/bin/prog` is run with the output under `/out`. -/
def runAgain : OutputSetup where
  host := Host.bare
  outArgument := ascii "/out"
  mergeMode := false
  coberturaOnly := false
  binaryPath := ascii "/bin/prog"
  script := false

/-- What the earlier run has left. -/
def ranBefore : Tree Byte (Fin 4) where
  root := 0
  current := 0
  child d name :=
    if d = 0 ∧ name = ascii "out" then some 1
    else if d = 1 ∧ name = ascii "prog.00000000" then some 2
    else if d = 2 ∧ name = ascii "metadata" then some 3
    else none
  readable _ := true
  readdir d :=
    match d with
    | 0 => [ascii "out"]
    | 1 => [ascii "prog.00000000", ascii "prog"]
    | 2 => [ascii "metadata"]
    | 3 => [ascii "4f332bca"]
  listed d name e h := by
    split at h
    next hname => simp [hname.1, hname.2]
    split at h
    next hname => simp [hname.1, hname.2]
    split at h
    next hname => simp [hname.1, hname.2]
    next => cases h

/-- The metadata of the earlier run are read again. -/
theorem not_skips_ranBefore : ¬SkipsOwn ranBefore runAgain := by
  intro h
  refine h (by decide) [3] ?_ 3 ?_ (by decide)
  · decide
  · decide

end MergeParser

end Kcov
