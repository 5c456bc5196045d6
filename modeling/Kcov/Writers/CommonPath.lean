import Kcov.Lib.Paths
import Kcov.Lib.Search
import Kcov.Utils

/-! The common path of the files in a report, and the names that the Cobertura report gives them. -/

namespace Kcov

open Bytes Paths Search

namespace WriterBase

/-- The value that the constructor gives `m_commonPath`. -/
def notSet : Text := ascii "not set"

/-- A round of the loop of `setupCommonPaths`: the path is cut at its last `/` until the name begins
with it. -/
def shortenCommonPath (commonPath name : Text) : Text :=
  let commonPath := if commonPath = notSet then name else commonPath
  if commonPath <+: name then commonPath
  else cutBack slash (fun d => decide (d <+: name)) commonPath commonPath.reverse

/-- `setupCommonPaths`, for the names of the files in the order in which it visits them. -/
def setupCommonPaths (commonPath : Text) (names : List Text) : Text :=
  names.foldl shortenCommonPath commonPath

/-- The common path after some calls of `setupCommonPaths`. -/
def commonPathAfter (calls : List (List Text)) : Text := calls.foldl setupCommonPaths notSet

end WriterBase

/-- The name behind the length of a path, and one more character, if the path is found in it. -/
def stripFound (path name : Text) : Text :=
  if (findPos path name).isSome && path.length < name.length then name.drop (path.length + 1)
  else name

/-- What is left of a name below a path. -/
theorem stripFound_below (path : Text) (b : Byte) (rest : Text) :
    stripFound path (path ++ b :: rest) = rest := by
  have hfind : (findPos path (path ++ b :: rest)).isSome = true :=
    findPos_isSome.mpr (List.prefix_append path _).isInfix
  have hlen : path.length < (path ++ b :: rest).length := by simp
  rw [stripFound, hfind, decide_eq_true hlen, Bool.and_self, if_pos rfl,
    List.drop_length_add_append]
  rfl

/-- The name of a file in the Cobertura report. -/
def CoberturaWriter.filename (fullPaths : Bool) (commonPath name : Text) : Text :=
  if fullPaths then name else stripFound commonPath name

namespace WriterBase

/-! ### Common directories -/

def IsCommonDirectory (names : List Text) (d : Text) : Prop :=
  ∀ name ∈ names, IsDirectoryOf slash d name

instance (names : List Text) (d : Text) : Decidable (IsCommonDirectory names d) :=
  inferInstanceAs (Decidable (∀ _ ∈ names, _))

/-- What the common path is for: it is the longest directory that the files share, and the rest of
their names is in the report. -/
structure IsCommonPath (names : List Text) (commonPath : Text) : Prop where
  longest : IsLongest (IsCommonDirectory names) commonPath
  printed : ∀ name ∈ names,
    commonPath ++ slash :: CoberturaWriter.filename false commonPath name = name

/-- A path that the loop can reach from the first name. -/
def IsReachable (first d : Text) : Prop := d = first ∨ IsDirectoryOf slash d first

instance (first d : Text) : Decidable (IsReachable first d) :=
  inferInstanceAs (Decidable (_ ∨ _))

section Run

variable {first name d e : Text} {names : List Text}

theorem IsReachable.isPrefix (h : IsReachable first d) : d <+: first := by
  rcases h with rfl | h
  · exact List.prefix_refl d
  · exact h.isPrefix

/-- A path that the loop can reach is a directory of the longer ones. -/
theorem IsReachable.directory (hd : IsReachable first d) (he : e <+: first)
    (hlen : d.length < e.length) : IsDirectoryOf slash d e := by
  rcases hd with rfl | hd
  · exact absurd he.length_le (by omega)
  · exact hd.of_length he hlen

/-- The path is the longest one that the loop can reach and all names begin with. -/
def IsShortened (first : Text) (names : List Text) : Text → Prop :=
  IsLongest fun d => IsReachable first d ∧ ∀ name ∈ names, d <+: name

theorem notSet_notMem (h : first.head? = some slash) : ¬notSet <+: first := by
  intro hstart
  obtain ⟨t, rfl⟩ := hstart
  cases h

theorem shortenCommonPath_notSet : shortenCommonPath notSet first = first := by
  rw [shortenCommonPath, if_pos rfl, if_pos (List.prefix_refl first)]

theorem isShortened_first : IsShortened first [first] first :=
  ⟨⟨Or.inl rfl, by simp⟩, fun _ h => h.1.isPrefix.length_le⟩

theorem IsShortened.shorten (hfirst : first.head? = some slash) (h : IsShortened first names d) :
    IsShortened first (names ++ [name]) (shortenCommonPath d name) := by
  have hset : d ≠ notSet := by
    rintro rfl
    exact notSet_notMem hfirst h.holds.1.isPrefix
  rw [shortenCommonPath, if_neg hset]
  split
  next hstart =>
    refine ⟨⟨h.holds.1, ?_⟩, fun e he => h.longest e ⟨he.1, ?_⟩⟩
    · simpa [or_imp, forall_and, hstart] using h.holds.2
    · exact fun n hn => he.2 n (by simp [hn])
  next hstart =>
    have hnil : ([] : Text) <+: name := List.nil_prefix
    have hlen : 0 < d.length := by
      rw [List.length_pos_iff]
      rintro rfl
      exact hstart hnil
    -- the root is a directory of the path, as it is one of the first name
    have hroot : IsDirectoryOf slash [] d := by
      have hslash : IsReachable first [] := by
        cases first with
        | nil => cases hfirst
        | cons b rest =>
          cases hfirst
          exact Or.inr (by simp [IsDirectoryOf])
      exact hslash.directory h.holds.1.isPrefix hlen
    have hcut : IsLongest (fun e => IsDirectoryOf slash e d ∧ decide (e <+: name) = true)
        (cutBack slash (fun e => decide (e <+: name)) d d.reverse) :=
      cutBack_isLongest (by simp) (fun e he _ => by rw [List.length_reverse]; exact he.length_lt)
        ⟨[], hroot, by simp⟩
    obtain ⟨⟨hdir, hfits⟩, hlongest⟩ := hcut
    generalize cutBack slash _ d d.reverse = r at hdir hfits hlongest ⊢
    refine ⟨⟨?_, ?_⟩, fun e he => hlongest e ⟨?_, ?_⟩⟩
    · exact Or.inr (hdir.of_isPrefix h.holds.1.isPrefix)
    · intro n hn
      rcases List.mem_append.mp hn with hn | hn
      · exact hdir.isPrefix.trans (h.holds.2 n hn)
      · rw [List.mem_singleton.mp hn]
        exact of_decide_eq_true hfits
    · have hle := h.longest e ⟨he.1, fun n hn => he.2 n (by simp [hn])⟩
      refine he.1.directory h.holds.1.isPrefix (lt_of_le_of_ne hle fun heq => hstart ?_)
      have hsame : e = d :=
        (List.prefix_of_prefix_length_le he.1.isPrefix h.holds.1.isPrefix hle).eq_of_length heq
      exact hsame ▸ he.2 name (by simp)
    · simpa using he.2 name (by simp)

theorem isShortened_foldl (hfirst : first.head? = some slash) (names : List Text) :
    IsShortened first (first :: names) (setupCommonPaths notSet (first :: names)) := by
  induction names using List.reverseRecOn with
  | nil =>
    rw [setupCommonPaths, List.foldl_cons, shortenCommonPath_notSet]
    exact isShortened_first
  | append_singleton names name ih =>
    rw [← List.cons_append, setupCommonPaths, List.foldl_append]
    exact ih.shorten hfirst

theorem commonPathAfter_eq (calls : List (List Text)) :
    commonPathAfter calls = setupCommonPaths notSet calls.flatten := by
  rw [commonPathAfter, setupCommonPaths, List.foldl_flatten]
  rfl

/-- The name that a file below the common path gets. -/
theorem printed_of_directory (h : IsDirectoryOf slash d name) :
    d ++ slash :: CoberturaWriter.filename false d name = name := by
  obtain ⟨rest, rfl⟩ := h
  rw [List.append_assoc, List.singleton_append]
  exact congrArg (fun r => d ++ slash :: r) (stripFound_below d slash rest)

/-- The path that the loop finds is the common path exactly if what it can reach and all names begin
with is a directory of all of them. -/
theorem IsShortened.holds_iff (hmem : first ∈ names) (h : IsShortened first names d) :
    IsCommonPath names d ↔
      ∀ e, IsReachable first e → (∀ name ∈ names, e <+: name) → IsCommonDirectory names e := by
  constructor
  · intro hcommon e he hstart name hname
    have hdir := hcommon.longest.holds name hname
    rcases lt_or_eq_of_le (h.longest e ⟨he, hstart⟩) with hlt | heq
    · exact (he.directory h.holds.1.isPrefix hlt).of_isPrefix hdir.isPrefix
    · have hsame : e = d := (List.prefix_of_prefix_length_le he.isPrefix h.holds.1.isPrefix
        heq.le).eq_of_length heq
      rwa [hsame]
  · intro hall
    have hdir := hall d h.holds.1 h.holds.2
    refine ⟨⟨hdir, fun e he => ?_⟩, fun name hname => printed_of_directory (hdir name hname)⟩
    exact h.longest e ⟨Or.inr (he first hmem), fun name hname => (he name hname).isPrefix⟩

end Run

/-- After any calls of `setupCommonPaths`, the last of them for all of the files, the common path is
as it should be exactly if every part of the first name that the loop can reach and all names begin
with is a directory of all of them. -/
theorem isCommonPath_iff {earlier : List (List Text)} {names : List Text} {first : Text}
    (habsolute : ∀ name ∈ names, name.head? = some slash)
    (hadded : ∀ call ∈ earlier, ∀ name ∈ call, name ∈ names)
    (hfirst : (earlier.flatten ++ names).head? = some first) :
    IsCommonPath names (commonPathAfter (earlier ++ [names])) ↔
      ∀ d, IsReachable first d → (∀ name ∈ names, d <+: name) → IsCommonDirectory names d := by
  have hvisited : ∀ name, name ∈ earlier.flatten ++ names ↔ name ∈ names := by
    intro name
    rw [List.mem_append, List.mem_flatten]
    exact ⟨fun h => h.elim (fun ⟨call, hcall, hname⟩ => hadded call hcall name hname) id, Or.inr⟩
  have hmem : first ∈ names := (hvisited first).mp (List.mem_of_mem_head? hfirst)
  obtain ⟨rest, hrest⟩ := List.head?_eq_some_iff.mp hfirst
  have hshort := isShortened_foldl (habsolute first hmem) rest
  rw [← hrest, IsShortened] at hshort
  simp only [hvisited] at hshort
  rw [commonPathAfter_eq, List.flatten_append, List.flatten_singleton]
  exact IsShortened.holds_iff hmem hshort

/-- Two directories with a file each. -/
theorem isCommonPath_src : IsCommonPath [ascii "/src/a/x.c", ascii "/src/b/y.c"]
    (commonPathAfter ([] ++ [[ascii "/src/a/x.c", ascii "/src/b/y.c"]])) := by
  have hparts : ∀ d ∈ (ascii "/src/a/x.c").inits, IsReachable (ascii "/src/a/x.c") d →
      (∀ name ∈ [ascii "/src/a/x.c", ascii "/src/b/y.c"], d <+: name) →
      IsCommonDirectory [ascii "/src/a/x.c", ascii "/src/b/y.c"] d := by
    decide
  exact (isCommonPath_iff (by decide) (by decide) rfl).mpr fun d hd =>
    hparts d ((List.mem_inits _ _).mpr hd.isPrefix) hd

/-- A name that begins with another one. -/
theorem not_isCommonPath_suffix : ¬IsCommonPath [ascii "/src/a.c", ascii "/src/a.cc"]
    (commonPathAfter [[ascii "/src/a.c", ascii "/src/a.cc"]]) := by
  intro h
  have hdir := h.longest.holds (ascii "/src/a.c") (by simp)
  revert hdir
  decide

end WriterBase

end Kcov
