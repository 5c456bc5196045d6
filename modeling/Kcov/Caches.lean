import Kcov.Lib.Memo
import Kcov.Reporter.ScriptHits

/-! The caches of the program: whatever happens to the files during a run, it is told about one and
the same file system. -/

namespace Kcov

open Bytes Memo

/-- What `lstat`, `read_file` and `realpath` find at some time. -/
structure Disk where
  lstat : Text → Bool
  readFile : Text → Option (List Byte)
  realpath : Text → Option Text

/-- `SourceFileCache::File`. -/
structure SourceFile where
  lines : List Text
  crc : U32

namespace SourceFile

/-- `m_empty`. -/
def empty : SourceFile := ⟨[], 0⟩

/-- A file that could be read, or `m_empty`. -/
def ofRead (hashBlock : List Byte → U32) : Option (List Byte) → SourceFile
  | some data => ⟨splitString 0x0a data, hashBlock data⟩
  | none => empty

end SourceFile

/-- `statCache`, `realPathCache`, and `m_files` of the cache for source files. -/
structure Caches where
  stats : Text → Option Bool
  realPaths : Text → Option Text
  files : Text → Option SourceFile

namespace Caches

def create : Caches := ⟨fun _ => none, fun _ => none, fun _ => none⟩

/-- `file_exists`. -/
def fileExists (disk : Disk) (c : Caches) (path : Text) : Bool × Caches :=
  let (found, stats) := lookup disk.lstat c.stats path
  (found, { c with stats })

/-- `get_real_path`. -/
def getRealPath (disk : Disk) (c : Caches) (path : Text) : Text × Caches :=
  let (real, realPaths) := lookup (fun path => (disk.realpath path).getD path) c.realPaths path
  (real, { c with realPaths })

/-- `lookupFile`. -/
def lookupFile (hashBlock : List Byte → U32) (disk : Disk) (c : Caches) (filePath : Text) :
    SourceFile × Caches :=
  match c.files filePath with
  | some file => (file, c)
  | none =>
    let (found, c) := c.fileExists disk filePath
    let file := if !found then .empty else .ofRead hashBlock (disk.readFile filePath)
    (file, { c with files := Function.update c.files filePath (some file) })

end Caches

/-- What the rest of the program asks for. -/
inductive Query where
  | fileExists (path : Text)
  | getRealPath (path : Text)
  | getLines (filePath : Text)
  | sourceExists (filePath : Text)
  | getCrc (filePath : Text)

inductive Answer where
  | found (found : Bool)
  | path (path : Text)
  | lines (lines : List Text)
  | crc (crc : U32)

/-- `ISourceFileCache::getLines`, `fileExists` and `getCrc`. -/
def Query.ofFile (file : SourceFile) : Query → Answer
  | .getLines _ => .lines file.lines
  | .sourceExists _ => .found (!file.lines.isEmpty)
  | _ => .crc file.crc

namespace Caches

def ask (hashBlock : List Byte → U32) (disk : Disk) (c : Caches) (q : Query) : Answer × Caches :=
  match q with
  | .fileExists path =>
    let (found, c) := c.fileExists disk path
    (.found found, c)
  | .getRealPath path =>
    let (real, c) := c.getRealPath disk path
    (.path real, c)
  | .getLines path | .sourceExists path | .getCrc path =>
    let (file, c) := c.lookupFile hashBlock disk path
    (q.ofFile file, c)

/-- The answers of a run, in which every question finds the disk as it is by then. -/
def run (hashBlock : List Byte → U32) : Caches → List (Disk × Query) → List Answer
  | _, [] => []
  | c, (disk, q) :: asked =>
    let (answer, c) := c.ask hashBlock disk q
    answer :: run hashBlock c asked

end Caches

/-! ### One file system -/

/-- A file as it is found on a host. -/
def Host.sourceFile (host : Host) (path : Text) : SourceFile :=
  if !host.fileExists path then .empty else .ofRead host.hashBlock (host.readFile path)

def Host.answer (host : Host) : Query → Answer
  | .fileExists path => .found (host.fileExists path)
  | .getRealPath path => .path (host.realPath path)
  | .getLines path => .lines (host.getLines path)
  | .sourceExists path => .found (!(host.getLines path).isEmpty)
  | .getCrc path => .crc (if !host.fileExists path then 0 else Reporter.contentHash host path)

section Host

variable {host : Host} {path : Text}

theorem Host.sourceFile_missing (h : host.fileExists path = false) :
    host.sourceFile path = .empty := by
  rw [sourceFile, h]
  rfl

theorem Host.sourceFile_found (h : host.fileExists path = true) :
    host.sourceFile path = .ofRead host.hashBlock (host.readFile path) := by
  rw [sourceFile, h]
  rfl

theorem Host.lines_sourceFile (host : Host) (path : Text) :
    (host.sourceFile path).lines = host.getLines path := by
  rw [Host.sourceFile, Host.getLines]
  split
  · rfl
  · cases host.readFile path <;> rfl

theorem Host.crc_sourceFile (host : Host) (path : Text) : (host.sourceFile path).crc =
    if !host.fileExists path then 0 else Reporter.contentHash host path := by
  rw [Host.sourceFile, Reporter.contentHash]
  split
  · rfl
  · cases host.readFile path <;> rfl

end Host

/-- Everything that the host has is what one of the disks had. -/
structure Host.IsFrom (host : Host) (disks : List Disk) : Prop where
  fileExists : ∀ path, ∃ disk ∈ disks, host.fileExists path = disk.lstat path
  realPath : ∀ path, ∃ disk ∈ disks, host.realPath path = (disk.realpath path).getD path
  readFile : ∀ path, ∃ disk ∈ disks, host.readFile path = disk.readFile path

/-- The host has everything that is in the caches. -/
structure Host.Explains (host : Host) (c : Caches) : Prop where
  stats : ∀ path found, c.stats path = some found → host.fileExists path = found
  realPaths : ∀ path real, c.realPaths path = some real → host.realPath path = real
  files : ∀ path file, c.files path = some file → host.sourceFile path = file

namespace Caches

/-- Everything that is in the caches was on one of the disks. A file that was not there is empty. -/
structure Sound (hashBlock : List Byte → U32) (disks : List Disk) (c : Caches) : Prop where
  stats : ∀ path found, c.stats path = some found → ∃ disk ∈ disks, found = disk.lstat path
  realPaths : ∀ path real, c.realPaths path = some real →
    ∃ disk ∈ disks, real = (disk.realpath path).getD path
  files : ∀ path file, c.files path = some file →
    (c.stats path = some false ∧ file = .empty) ∨
      (c.stats path = some true ∧ ∃ disk ∈ disks, file = .ofRead hashBlock (disk.readFile path))

/-- Nothing is taken out of the caches. -/
structure Grows (c c' : Caches) : Prop where
  stats : Extends c.stats c'.stats
  realPaths : Extends c.realPaths c'.realPaths
  files : Extends c.files c'.files

section Runs

variable {hashBlock : List Byte → U32} {disk : Disk} {disks : List Disk} {c c' c'' : Caches}
  {host : Host} {q : Query} {path : Text}

theorem Grows.refl (c : Caches) : Grows c c :=
  ⟨Extends.refl _, Extends.refl _, Extends.refl _⟩

theorem Grows.trans (h : Grows c c') (h' : Grows c' c'') : Grows c c'' :=
  ⟨h.stats.trans h'.stats, h.realPaths.trans h'.realPaths, h.files.trans h'.files⟩

theorem Grows.explains (h : Grows c c') (hhost : host.Explains c') : host.Explains c :=
  ⟨fun path found hp => hhost.stats path found (h.stats path found hp),
    fun path real hp => hhost.realPaths path real (h.realPaths path real hp),
    fun path file hp => hhost.files path file (h.files path file hp)⟩

theorem fileExists_grows (disk : Disk) (c : Caches) (path : Text) :
    Grows c (c.fileExists disk path).2 :=
  ⟨lookup_extends _ _ _, Extends.refl _, Extends.refl _⟩

theorem lookupFile_grows (disk : Disk) (c : Caches) (path : Text) :
    Grows c (c.lookupFile hashBlock disk path).2 := by
  rw [lookupFile]
  split
  · exact Grows.refl c
  next hnone =>
    exact ⟨(fileExists_grows disk c path).stats, Extends.refl _, extends_update hnone _⟩

theorem ask_grows (disk : Disk) (c : Caches) (q : Query) : Grows c (c.ask hashBlock disk q).2 := by
  cases q with
  | fileExists path => exact fileExists_grows disk c path
  | getRealPath path => exact ⟨Extends.refl _, lookup_extends _ _ _, Extends.refl _⟩
  | _ => exact lookupFile_grows disk c _

/-! ### The answers -/

theorem lookupFile_self (disk : Disk) (c : Caches) (path : Text) :
    (c.lookupFile hashBlock disk path).2.files path =
      some (c.lookupFile hashBlock disk path).1 := by
  rw [lookupFile]
  split
  next hsome => exact hsome
  next => exact Function.update_self path _ c.files

/-- An answer is in the caches from then on. -/
theorem ask_answer (hhost : host.Explains (c.ask hashBlock disk q).2) :
    (c.ask hashBlock disk q).1 = host.answer q := by
  have hfile : ∀ path, host.Explains (c.lookupFile hashBlock disk path).2 →
      host.sourceFile path = (c.lookupFile hashBlock disk path).1 := fun path h =>
    h.files path _ (lookupFile_self disk c path)
  cases q with
  | fileExists path =>
    exact congrArg Answer.found (hhost.stats path _ (lookup_self _ c.stats path)).symm
  | getRealPath path =>
    exact congrArg Answer.path (hhost.realPaths path _ (lookup_self _ c.realPaths path)).symm
  | getLines path =>
    rw [Host.answer, ← host.lines_sourceFile, hfile path hhost]
    rfl
  | sourceExists path =>
    rw [Host.answer, ← host.lines_sourceFile, hfile path hhost]
    rfl
  | getCrc path =>
    rw [Host.answer, ← host.crc_sourceFile, hfile path hhost]
    rfl

/-- The caches after a run. -/
def after (hashBlock : List Byte → U32) (c : Caches) (asked : List (Disk × Query)) : Caches :=
  asked.foldl (fun c x => (c.ask hashBlock x.1 x.2).2) c

theorem after_grows (c : Caches) (asked : List (Disk × Query)) :
    Grows c (after hashBlock c asked) := by
  induction asked generalizing c with
  | nil => exact Grows.refl c
  | cons x asked ih => exact (ask_grows x.1 c x.2).trans (ih _)

theorem run_eq (asked : List (Disk × Query)) (hhost : host.Explains (after hashBlock c asked)) :
    run hashBlock c asked = asked.map fun x => host.answer x.2 := by
  induction asked generalizing c with
  | nil => rfl
  | cons x asked ih =>
    have hhead := ask_answer ((after_grows _ asked).explains hhost)
    rw [run, List.map_cons]
    exact congrArg₂ List.cons hhead (ih hhost)

/-! ### The disks -/

theorem sound_create (disks : List Disk) : Sound hashBlock disks create :=
  { stats := fun _ _ h => by cases h
    realPaths := fun _ _ h => by cases h
    files := fun _ _ h => by cases h }

theorem Sound.fileExists (h : Sound hashBlock disks c) (hdisk : disk ∈ disks) (path : Text) :
    Sound hashBlock disks (c.fileExists disk path).2 := by
  have hgrows := (fileExists_grows disk c path).stats
  refine ⟨fun p found hp => ?_, h.realPaths, fun p file hp => ?_⟩
  · rcases lookup_cases hp with hp | ⟨rfl, rfl⟩
    · exact h.stats p found hp
    · exact ⟨disk, hdisk, rfl⟩
  · rcases h.files p file hp with ⟨hstat, hfile⟩ | ⟨hstat, hfile⟩
    · exact Or.inl ⟨hgrows p _ hstat, hfile⟩
    · exact Or.inr ⟨hgrows p _ hstat, hfile⟩

theorem Sound.lookupFile (h : Sound hashBlock disks c) (hdisk : disk ∈ disks) (path : Text) :
    Sound hashBlock disks (c.lookupFile hashBlock disk path).2 := by
  rw [Caches.lookupFile]
  split
  · exact h
  · have hsound := h.fileExists hdisk path
    have hself : (c.fileExists disk path).2.stats path = some (c.fileExists disk path).1 :=
      lookup_self _ c.stats path
    refine ⟨hsound.stats, hsound.realPaths, fun p file hp => ?_⟩
    dsimp only at hp
    by_cases hpath : p = path
    · rw [hpath, Function.update_self, Option.some.injEq] at hp
      rw [hpath, ← hp]
      cases hfound : (c.fileExists disk path).1 with
      | false =>
        rw [hfound] at hself
        exact Or.inl ⟨hself, rfl⟩
      | true =>
        rw [hfound] at hself
        exact Or.inr ⟨hself, disk, hdisk, rfl⟩
    · rw [Function.update_of_ne hpath] at hp
      exact hsound.files p file hp

theorem Sound.ask (h : Sound hashBlock disks c) (hdisk : disk ∈ disks) (q : Query) :
    Sound hashBlock disks (c.ask hashBlock disk q).2 := by
  cases q with
  | fileExists path => exact h.fileExists hdisk path
  | getRealPath path =>
    refine ⟨h.stats, fun p real hp => ?_, h.files⟩
    rcases lookup_cases hp with hp | ⟨rfl, rfl⟩
    · exact h.realPaths p real hp
    · exact ⟨disk, hdisk, rfl⟩
  | _ => exact h.lookupFile hdisk _

theorem Sound.after (h : Sound hashBlock disks c) (asked : List (Disk × Query))
    (hdisks : ∀ x ∈ asked, x.1 ∈ disks) : Sound hashBlock disks (after hashBlock c asked) := by
  induction asked generalizing c with
  | nil => exact h
  | cons x asked ih =>
    exact ih (h.ask (hdisks x List.mem_cons_self) x.2) fun y hy =>
      hdisks y (List.mem_cons_of_mem x hy)

/-- Some host has what is in the caches, and elsewhere what the first disk has. -/
theorem Sound.exists_host (h : Sound hashBlock disks c) (hdisk : disk ∈ disks) :
    ∃ host : Host, host.hashBlock = hashBlock ∧ host.Explains c ∧ host.IsFrom disks := by
  have hread : ∀ path, ∃ data, (∃ disk ∈ disks, data = disk.readFile path) ∧
      ∀ file, c.files path = some file → c.stats path = some true →
        file = .ofRead hashBlock data := by
    intro path
    cases hfile : c.files path with
    | none => exact ⟨disk.readFile path, ⟨disk, hdisk, rfl⟩, fun file h => by cases h⟩
    | some file =>
      rcases h.files path file hfile with ⟨hstat, -⟩ | ⟨-, d, hd, rfl⟩
      · refine ⟨disk.readFile path, ⟨disk, hdisk, rfl⟩, fun _ _ htrue => ?_⟩
        rw [hstat] at htrue
        cases htrue
      · exact ⟨d.readFile path, ⟨d, hd, rfl⟩, fun _ heq _ => (Option.some.inj heq).symm⟩
  choose readFile hfrom hfiles using hread
  refine ⟨{ Host.bare with
    fileExists := fun path => (c.stats path).getD (disk.lstat path)
    realPath := fun path => (c.realPaths path).getD ((disk.realpath path).getD path)
    readFile
    hashBlock }, rfl, ⟨fun path found hp => ?_, fun path real hp => ?_, fun path file hp => ?_⟩,
    ⟨fun path => ?_, fun path => ?_, hfrom⟩⟩
  · exact congrArg (Option.getD · _) hp
  · exact congrArg (Option.getD · _) hp
  · rcases h.files path file hp with ⟨hstat, rfl⟩ | ⟨hstat, -⟩
    · exact Host.sourceFile_missing (congrArg (Option.getD · _) hstat)
    · exact (Host.sourceFile_found (congrArg (Option.getD · _) hstat)).trans
        (hfiles path file hp hstat).symm
  · dsimp only
    cases hstat : c.stats path with
    | none => exact ⟨disk, hdisk, rfl⟩
    | some found => exact h.stats path found hstat
  · dsimp only
    cases hreal : c.realPaths path with
    | none => exact ⟨disk, hdisk, rfl⟩
    | some real => exact h.realPaths path real hreal

/-- Whatever is asked in whatever order while the files change, all answers are those of one host,
and everything on it was on the disk at some time of the run. -/
theorem run_eq_host (hashBlock : List Byte → U32) (first : Disk × Query)
    (asked : List (Disk × Query)) : ∃ host : Host, host.hashBlock = hashBlock ∧
      host.IsFrom ((first :: asked).map Prod.fst) ∧
        run hashBlock create (first :: asked) = (first :: asked).map fun x => host.answer x.2 := by
  have hsound := (@sound_create hashBlock ((first :: asked).map Prod.fst)).after (first :: asked)
    fun x hx => List.mem_map_of_mem hx
  obtain ⟨host, hhash, hexplains, hfrom⟩ :=
    hsound.exists_host (List.mem_map_of_mem (List.mem_cons_self (a := first)))
  exact ⟨host, hhash, hfrom, run_eq _ hexplains⟩

end Runs

end Caches

end Kcov
