import Kcov.Filter
import Kcov.Lib.Paths

/-! What the filters for files mean: paths that contain each other name by name, and patterns. -/

namespace Kcov

open Bytes

/-! ### Normalised paths -/

def dot : Byte := 0x2e

/-- An absolute path without empty names, `.` and `..`. -/
structure NormalPath where
  names : List Text
  valid : ∀ name ∈ names, slash ∉ name ∧ name ≠ [] ∧ name ≠ [dot] ∧ name ≠ [dot, dot]

def NormalPath.text (p : NormalPath) : Text :=
  if p.names = [] then [slash] else Paths.absolute slash p.names

def IsNormalised (path : Text) : Prop := ∃ p : NormalPath, p.text = path

/-- The path is the directory `dir` or lies below it, name by name. -/
def Contains (dir path : Text) : Prop :=
  Paths.components slash dot dir <+: Paths.components slash dot path

section Paths

variable {path pattern : Text}

theorem NormalPath.components_text (p : NormalPath) :
    Paths.components slash dot p.text = p.names := by
  rw [text]
  split
  next hroot =>
    rw [hroot, Paths.components_cons]
    exact Paths.components_nil
  next =>
    exact Paths.components_absolute fun name hname =>
      ⟨(p.valid name hname).1, (p.valid name hname).2.1, (p.valid name hname).2.2.1⟩

theorem NormalPath.names_eq_nil {p : NormalPath} : p.names = [] ↔ p.text = [slash] := by
  constructor
  · exact fun h => if_pos h
  · intro h
    rw [← p.components_text, h, Paths.components_cons]
    exact Paths.components_nil

theorem isUnder_iff_below :
    PathHandler.isUnder path pattern = true ↔
      path = pattern ∨ Paths.IsDirectoryOf slash pattern path := by
  rw [PathHandler.isUnder, Bool.and_eq_true, Bool.or_eq_true, decide_eq_true_iff,
    decide_eq_true_iff, beq_iff_eq]
  constructor
  · rintro ⟨⟨rest, rfl⟩, hend | hnext⟩
    · rw [List.length_append] at hend
      have hnil : rest = [] := List.length_eq_zero_iff.mp (by omega)
      exact Or.inl (by rw [hnil, List.append_nil])
    · rw [List.getElem?_append_right le_rfl, Nat.sub_self] at hnext
      cases rest with
      | nil => cases hnext
      | cons b rest =>
        obtain rfl : b = slash := Option.some.inj hnext
        exact Or.inr ⟨rest, by rw [List.append_assoc, List.singleton_append]⟩
  · rintro (rfl | ⟨rest, rfl⟩)
    · exact ⟨List.prefix_rfl, Or.inl le_rfl⟩
    · rw [List.append_assoc, List.singleton_append]
      refine ⟨List.prefix_append _ _, Or.inr ?_⟩
      rw [List.getElem?_append_right le_rfl, Nat.sub_self]
      rfl

/-- A normalised path does not go on behind the slash of the root with another one. -/
theorem not_isDirectoryOf_root (p : NormalPath) : ¬Paths.IsDirectoryOf slash [slash] p.text := by
  rintro ⟨rest, hrest⟩
  rw [NormalPath.text] at hrest
  split at hrest
  · simp at hrest
  next hroot =>
    obtain ⟨name, names, hnames⟩ := List.exists_cons_of_ne_nil hroot
    obtain ⟨hslash, hnil, -⟩ := p.valid name (by rw [hnames]; exact List.mem_cons_self)
    obtain ⟨b, name, rfl⟩ := List.exists_cons_of_ne_nil hnil
    rw [hnames, Paths.absolute, List.flatMap_cons] at hrest
    simp only [List.cons_append, List.nil_append, List.cons.injEq, true_and] at hrest
    exact hslash (by rw [hrest.1]; exact List.mem_cons_self)

/-- The search for the prefix finds what a directory contains, except for the root, which is found
in itself alone. -/
theorem isUnder_iff (hpath : IsNormalised path) (hpattern : IsNormalised pattern) :
    PathHandler.isUnder path pattern = true ↔
      Contains pattern path ∧ (pattern = [slash] → path = [slash]) := by
  obtain ⟨p, rfl⟩ := hpath
  obtain ⟨d, rfl⟩ := hpattern
  rw [isUnder_iff_below]
  constructor
  · intro h
    refine ⟨Paths.components_isPrefix dot h, fun hroot => ?_⟩
    rw [hroot] at h
    exact h.resolve_right (not_isDirectoryOf_root p)
  · rintro ⟨hcontains, hroot⟩
    by_cases hd : d.names = []
    · rw [hroot (NormalPath.names_eq_nil.mp hd), NormalPath.names_eq_nil.mp hd]
      exact Or.inl rfl
    · rw [Contains, d.components_text, p.components_text] at hcontains
      have hp : p.names ≠ [] := by
        intro hp
        rw [hp, List.prefix_nil] at hcontains
        exact hd hcontains
      rw [NormalPath.text, NormalPath.text, if_neg hp, if_neg hd]
      exact Paths.absolute_below hcontains

theorem contains_root (path : Text) : Contains [slash] path := by
  rw [Contains, Paths.components_cons, Paths.components_nil]
  exact List.nil_prefix

end Paths

/-! ### The filters -/

/-- No pattern is required or one of them is found, and none that excludes. -/
def PatternHandler.Accepts (h : PatternHandler) (file : Text) : Prop :=
  (h.includePatterns = [] ∨ ∃ pattern ∈ h.includePatterns, pattern <:+: file) ∧
    ∀ pattern ∈ h.excludePatterns, ¬pattern <:+: file

/-- No path is required or one of them contains the file, and none that excludes. -/
def PathHandler.Accepts (h : PathHandler) (path : Text) : Prop :=
  (h.includePaths = [] ∨ ∃ dir ∈ h.includePaths, Contains dir path) ∧
    ∀ dir ∈ h.excludePaths, ¬Contains dir path

theorem PatternHandler.includeFile_iff (h : PatternHandler) (file : Text) :
    h.includeFile file = true ↔ h.Accepts file := by
  rw [includeFile, Accepts]
  split
  next hempty =>
    rw [Bool.and_eq_true, List.isEmpty_iff, List.isEmpty_iff] at hempty
    exact iff_of_true rfl ⟨Or.inl hempty.1, by simp [hempty.2]⟩
  next => simp [finds]

/-- The same as `PathHandler.Accepts`, with the search for a prefix that is done instead. -/
theorem PathHandler.includeFile_iff (host : Host) (h : PathHandler) (file : Text) :
    h.includeFile host file = true ↔
      (h.includePaths = [] ∨ ∃ dir ∈ h.includePaths, isUnder (host.realPath file) dir = true) ∧
        ∀ dir ∈ h.excludePaths, ¬isUnder (host.realPath file) dir = true := by
  rw [includeFile]
  split
  next hempty =>
    rw [Bool.and_eq_true, List.isEmpty_iff, List.isEmpty_iff] at hempty
    exact iff_of_true rfl ⟨Or.inl hempty.1, by simp [hempty.2]⟩
  next => simp

theorem Filter.runFilters_iff (host : Host) (f : Filter) (file : Text) :
    f.runFilters host file = true ↔
      f.pathHandler.includeFile host file = true ∧ f.patternHandler.Accepts file := by
  have hpath : (if f.pathHandler.isSetup then f.pathHandler.includeFile host file else true) =
      f.pathHandler.includeFile host file := by
    split
    next => rfl
    next hsetup =>
      rw [PathHandler.isSetup, Bool.not_eq_true, Bool.not_eq_false'] at hsetup
      rw [PathHandler.includeFile, if_pos hsetup]
  rw [runFilters, hpath, ← PatternHandler.includeFile_iff]
  split
  next hboth =>
    rw [Bool.and_eq_true] at hboth
    rw [and_iff_right hboth.1]
  next hnot =>
    rw [Bool.and_eq_true, not_and] at hnot
    refine ⟨fun h => ⟨h, ?_⟩, fun h => h.1⟩
    have hsetup := hnot h
    rw [PatternHandler.isSetup, Bool.not_eq_true, Bool.not_eq_false'] at hsetup
    rw [PatternHandler.includeFile, if_pos hsetup]

/-- A directory that is not the root contains the file. -/
def Below (dirs : List Text) (path : Text) : Prop :=
  ∃ dir ∈ dirs, dir ≠ [slash] ∧ Contains dir path

section Root

variable {dirs : List Text} {path : Text}

theorem exists_isUnder_iff (hpath : IsNormalised path) (hdirs : ∀ dir ∈ dirs, IsNormalised dir)
    (hroot : path ≠ [slash]) :
    (∃ dir ∈ dirs, PathHandler.isUnder path dir = true) ↔ Below dirs path := by
  refine exists_congr fun dir => and_congr_right fun hdir => ?_
  rw [isUnder_iff hpath (hdirs dir hdir), and_comm]
  exact and_congr_left' ⟨fun h hslash => hroot (h hslash), fun h hslash => absurd hslash h⟩

theorem exists_contains_iff :
    (∃ dir ∈ dirs, Contains dir path) ↔ [slash] ∈ dirs ∨ Below dirs path := by
  constructor
  · rintro ⟨dir, hdir, hcontains⟩
    by_cases hroot : dir = [slash]
    · exact Or.inl (hroot ▸ hdir)
    · exact Or.inr ⟨dir, hdir, hroot, hcontains⟩
  · rintro (hroot | ⟨dir, hdir, -, hcontains⟩)
    · exact ⟨[slash], hroot, contains_root path⟩
    · exact ⟨dir, hdir, hcontains⟩

/-- In the root itself, the search finds what contains it. -/
theorem isUnder_root_iff {pattern : Text} (hpattern : IsNormalised pattern) :
    PathHandler.isUnder [slash] pattern = true ↔ Contains pattern [slash] := by
  have hroot : IsNormalised [slash] := ⟨⟨[], by simp⟩, rfl⟩
  rw [isUnder_iff hroot hpattern, and_iff_left fun _ => rfl]

end Root

/-- The root in the lists of paths does not decide about a file: it is excluded by another path, or
no other path includes it while the root excludes, or one does while the root includes. -/
def RootIrrelevant (h : PathHandler) (path : Text) : Prop :=
  path = [slash] ∨ Below h.excludePaths path ∨
    (([slash] ∈ h.excludePaths → h.includePaths ≠ [] ∧ ¬Below h.includePaths path) ∧
      ([slash] ∉ h.excludePaths → [slash] ∈ h.includePaths → Below h.includePaths path))

theorem PathHandler.includeFile_iff_accepts (host : Host)
    (hreal : ∀ p, IsNormalised (host.realPath p)) (h : PathHandler)
    (hincludes : ∀ dir ∈ h.includePaths, IsNormalised dir)
    (hexcludes : ∀ dir ∈ h.excludePaths, IsNormalised dir) (file : Text) :
    (h.includeFile host file = true ↔ h.Accepts (host.realPath file)) ↔
      RootIrrelevant h (host.realPath file) := by
  have hpath := hreal file
  rw [includeFile_iff, Accepts, RootIrrelevant]
  generalize host.realPath file = path at hpath ⊢
  by_cases hroot : path = [slash]
  · subst hroot
    refine iff_of_true (and_congr (or_congr_right ?_) ?_) (Or.inl rfl)
    · exact exists_congr fun dir => and_congr_right fun hdir => isUnder_root_iff (hincludes dir hdir)
    · exact forall₂_congr fun dir hdir => not_congr (isUnder_root_iff (hexcludes dir hdir))
  have hin := exists_isUnder_iff hpath hincludes hroot
  have hout : (∀ dir ∈ h.excludePaths, ¬isUnder path dir = true) ↔ ¬Below h.excludePaths path := by
    rw [← exists_isUnder_iff hpath hexcludes hroot, not_exists]
    exact forall_congr' fun dir => not_and.symm
  have hout' : (∀ dir ∈ h.excludePaths, ¬Contains dir path) ↔
      ¬([slash] ∈ h.excludePaths ∨ Below h.excludePaths path) := by
    rw [← exists_contains_iff, not_exists]
    exact forall_congr' fun dir => not_and.symm
  rw [hin, hout, hout', exists_contains_iff, or_iff_right hroot]
  have hnil : [slash] ∈ h.includePaths → h.includePaths ≠ [] := List.ne_nil_of_mem
  by_cases hbelow : Below h.excludePaths path
  · exact iff_of_true (iff_of_false (fun hin => hin.2 hbelow) fun hin => hin.2 (Or.inr hbelow))
      (Or.inl hbelow)
  rw [or_iff_right hbelow, and_iff_left hbelow]
  by_cases hslash : [slash] ∈ h.excludePaths
  · -- the root excludes the file
    constructor
    · intro hsame
      exact ⟨fun _ => not_or.mp fun hin => (hsame.mp hin).2 (Or.inl hslash), fun h => absurd hslash h⟩
    · rintro ⟨hnone, -⟩
      exact iff_of_false (not_or.mpr (hnone hslash)) fun hin => hin.2 (Or.inl hslash)
  · have hkept : ¬([slash] ∈ h.excludePaths ∨ Below h.excludePaths path) :=
      not_or.mpr ⟨hslash, hbelow⟩
    rw [and_iff_left hkept]
    constructor
    · intro hsame
      exact ⟨fun h => absurd h hslash, fun _ hroot =>
        (hsame.mpr (Or.inr (Or.inl hroot))).resolve_left (hnil hroot)⟩
    · rintro ⟨-, hfound⟩
      refine or_congr_right ⟨Or.inr, ?_⟩
      rintro (hroot | hin)
      · exact hfound hslash hroot
      · exact hin

/-- The filters mean what their lists say if and only if the patterns refuse the file, or the root
in the lists of paths does not decide about it. -/
theorem runFilters_iff_accepts (host : Host) (hreal : ∀ p, IsNormalised (host.realPath p))
    (f : Filter) (includePaths excludePaths : List Text)
    (hpaths : f.pathHandler = PathHandler.create host includePaths excludePaths) (file : Text) :
    (f.runFilters host file = true ↔
      f.pathHandler.Accepts (host.realPath file) ∧ f.patternHandler.Accepts file) ↔
    (f.patternHandler.Accepts file → RootIrrelevant f.pathHandler (host.realPath file)) := by
  have hnormal : ∀ dirs : List Text, ∀ dir ∈ dirs.map host.realPath, IsNormalised dir := by
    intro dirs dir hdir
    obtain ⟨p, -, rfl⟩ := List.mem_map.mp hdir
    exact hreal p
  have hpath := f.pathHandler.includeFile_iff_accepts host hreal
    (by rw [hpaths]; exact hnormal includePaths) (by rw [hpaths]; exact hnormal excludePaths) file
  rw [Filter.runFilters_iff, ← hpath, and_congr_left_iff]

/-- The files and directories of a host, on which every other path leads to the root. -/
def sources : List Text :=
  [ascii "/a", ascii "/a/x.c", ascii "/a/b", ascii "/a/b/y.c", ascii "/ab", ascii "/ab/z.c"]

def sourceHost : Host :=
  { Host.bare with realPath := fun p => if sources.contains p then p else [slash] }

theorem isNormalised_sourceHost (p : Text) : IsNormalised (sourceHost.realPath p) := by
  have hroot : IsNormalised [slash] := ⟨⟨[], by simp⟩, rfl⟩
  change IsNormalised (if sources.contains p then p else [slash])
  split
  next hp =>
    rw [List.contains_iff_mem] at hp
    simp only [sources, List.mem_cons, List.not_mem_nil, or_false] at hp
    rcases hp with rfl | rfl | rfl | rfl | rfl | rfl
    · exact ⟨⟨[ascii "a"], by decide⟩, rfl⟩
    · exact ⟨⟨[ascii "a", ascii "x.c"], by decide⟩, rfl⟩
    · exact ⟨⟨[ascii "a", ascii "b"], by decide⟩, rfl⟩
    · exact ⟨⟨[ascii "a", ascii "b", ascii "y.c"], by decide⟩, rfl⟩
    · exact ⟨⟨[ascii "ab"], by decide⟩, rfl⟩
    · exact ⟨⟨[ascii "ab", ascii "z.c"], by decide⟩, rfl⟩
  next => exact hroot

/-- The filter of `--include-path` and `--exclude-path`. -/
def pathsOnly (includePaths excludePaths : List Text) : Filter where
  patternHandler := { includePatterns := [], excludePatterns := [] }
  pathHandler := PathHandler.create sourceHost includePaths excludePaths
  origRoot := []
  newRoot := []

/-- A directory without one of its subdirectories. -/
def oneDirectory : Filter := pathsOnly [ascii "/a"] [ascii "/a/b"]

/-- The file in the directory is accepted, and neither the one in the subdirectory nor that of a
directory with a longer name is. -/
theorem runFilters_iff_accepts_oneDirectory :
    (oneDirectory.runFilters sourceHost (ascii "/a/x.c") = true ∧
      oneDirectory.pathHandler.Accepts (ascii "/a/x.c")) ∧
    (oneDirectory.runFilters sourceHost (ascii "/a/b/y.c") = false ∧
      ¬oneDirectory.pathHandler.Accepts (ascii "/a/b/y.c")) ∧
    oneDirectory.runFilters sourceHost (ascii "/ab/z.c") = false ∧
      ¬oneDirectory.pathHandler.Accepts (ascii "/ab/z.c") := by
  have hpatterns : ∀ file, oneDirectory.patternHandler.Accepts file :=
    fun file => ⟨Or.inl rfl, nofun⟩
  have hiff : ∀ file, oneDirectory.runFilters sourceHost file = true ↔
      oneDirectory.pathHandler.Accepts (sourceHost.realPath file) := by
    intro file
    have hincludes : [slash] ∉ oneDirectory.pathHandler.includePaths := by decide
    have hexcludes : [slash] ∉ oneDirectory.pathHandler.excludePaths := by decide
    have h := (runFilters_iff_accepts sourceHost isNormalised_sourceHost oneDirectory [ascii "/a"]
      [ascii "/a/b"] rfl file).mpr fun _ => Or.inr (Or.inr
        ⟨fun h => absurd h hexcludes, fun _ h => absurd h hincludes⟩)
    rwa [and_iff_left (hpatterns file)] at h
  have hbelow : oneDirectory.runFilters sourceHost (ascii "/a/x.c") = true := by decide
  have hexcluded : oneDirectory.runFilters sourceHost (ascii "/a/b/y.c") = false := by decide
  have hbeside : oneDirectory.runFilters sourceHost (ascii "/ab/z.c") = false := by decide
  exact ⟨⟨hbelow, (hiff _).mp hbelow⟩,
    ⟨hexcluded, fun h => absurd ((hiff (ascii "/a/b/y.c")).mpr h) (by rw [hexcluded]; decide)⟩,
    hbeside, fun h => absurd ((hiff (ascii "/ab/z.c")).mpr h) (by rw [hbeside]; decide)⟩

/-- Everything lies below the root, but including the root includes nothing. -/
theorem not_runFilters_iff_accepts_root :
    ¬((pathsOnly [ascii "/"] []).runFilters sourceHost (ascii "/a") = true ↔
      (pathsOnly [ascii "/"] []).pathHandler.Accepts (sourceHost.realPath (ascii "/a")) ∧
        (pathsOnly [ascii "/"] []).patternHandler.Accepts (ascii "/a")) := by
  intro h
  have hrefused : (pathsOnly [ascii "/"] []).runFilters sourceHost (ascii "/a") = false := by decide
  rw [hrefused] at h
  refine absurd (h.mpr ⟨⟨Or.inr ⟨[slash], ?_, contains_root _⟩, ?_⟩, Or.inl rfl, ?_⟩)
    Bool.false_ne_true
  · decide
  · intro dir hdir
    cases hdir
  · intro pattern hpattern
    cases hpattern

end Kcov
