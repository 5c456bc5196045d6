import Kcov.Strings
import Kcov.Writers.CommonPath
import Mathlib.Data.List.Nodup

/-! The names of files in the reports for Codecov and Coveralls. -/

namespace Kcov

open Bytes Search Paths

/-- The keys `codecov-full-paths` and `strip-path`, and `m_gitInfo["gitRootPath"]`, which is empty if
there is no information. -/
structure UploadSetup where
  codecovFullPaths : Bool
  stripPath : Text
  gitRootPath : Text

namespace CodecovWriter

def stripPath (cfg : UploadSetup) (commonPath : Text) : Text :=
  if cfg.stripPath = [] then commonPath else cfg.stripPath

/-- The name under which `writeOne` lists a file. -/
def filename (cfg : UploadSetup) (commonPath name : Text) : Text :=
  if cfg.codecovFullPaths then name else stripFound (stripPath cfg commonPath) name

end CodecovWriter

namespace CoverallsWriter

def stripPath (cfg : UploadSetup) (commonPath : Text) : Text :=
  if cfg.gitRootPath ≠ [] then cfg.gitRootPath ++ ascii "/"
  else if cfg.stripPath = [] then commonPath ++ ascii "/"
  else cfg.stripPath

/-- The name behind the path to strip, or the name of the file itself. -/
def fileName (cfg : UploadSetup) (commonPath name : Text) : Text :=
  if stripPath cfg commonPath <+: name then name.drop (stripPath cfg commonPath).length
  else (splitPath name).2

/-- The name under which `write` lists a file. -/
def listed (cfg : UploadSetup) (commonPath name : Text) : Text :=
  escapeJson (fileName cfg commonPath name)

end CoverallsWriter

/-! ### Different files, different names -/

/-- The files have different names in both reports, and Codecov gets those as they are that do not
begin with the path to strip. -/
structure KeepsApart (cfg : UploadSetup) (commonPath : Text) (names : List Text) : Prop where
  codecov : (names.map (CodecovWriter.filename cfg commonPath)).Nodup
  unmodified : ∀ name ∈ names, ¬CodecovWriter.stripPath cfg commonPath <+: name →
    CodecovWriter.filename cfg commonPath name = name
  coveralls : (names.map (CoverallsWriter.listed cfg commonPath)).Nodup

/-- Stripping by length keeps names apart: the path is only found at the beginning of a name, the same
character follows it where the rest is the same, and what is left is no name that keeps its own. -/
structure StripsApart (strip : Text) (names : List Text) : Prop where
  begins : ∀ name ∈ names, strip <:+: name → strip <+: name
  separator : ∀ b c rest, strip ++ b :: rest ∈ names → strip ++ c :: rest ∈ names → b = c
  rest : ∀ b rest, strip ++ b :: rest ∈ names → rest ∈ names →
    strip <+: rest ∧ strip.length < rest.length

/-- The names of files keep them apart where the path to strip is somewhere else: these files have
different ones, and the path in front of none of them is that of another file. -/
structure BasesApart (strip : Text) (names : List Text) : Prop where
  base : ∀ name ∈ names, ∀ other ∈ names, ¬strip <+: name → ¬strip <+: other →
    (splitPath name).2 = (splitPath other).2 → name = other
  below : ∀ name ∈ names, ¬strip <+: name → strip ++ (splitPath name).2 ∉ names

section Names

variable {cfg : UploadSetup} {commonPath strip name : Text} {names : List Text}

/-- A path that is found in a name, but not at its beginning, changes the name. -/
theorem stripFound_inside (hinside : strip <:+: name) (hstart : ¬strip <+: name) :
    stripFound strip name ≠ name := by
  have hlen : strip.length < name.length := by
    refine lt_of_le_of_ne hinside.length_le fun heq => hstart ?_
    rw [hinside.eq_of_length heq]
  intro hsame
  have hdrop := congrArg List.length hsame
  rw [stripFound, findPos_isSome.mpr hinside, decide_eq_true hlen, Bool.and_self, if_pos rfl,
    List.length_drop] at hdrop
  omega

/-- A name is below the path, or it is kept. -/
theorem below_or_kept (hbegins : strip <:+: name → strip <+: name) :
    (∃ b rest, name = strip ++ b :: rest) ∨
      ¬(strip <+: name ∧ strip.length < name.length) ∧ stripFound strip name = name := by
  by_cases hinside : strip <:+: name
  · obtain ⟨t, rfl⟩ := hbegins hinside
    cases t with
    | nil =>
      right
      rw [List.append_nil, stripFound]
      simp
    | cons b rest => exact Or.inl ⟨b, rest, rfl⟩
  · have hnone : (findPos strip name).isSome = false :=
      Bool.eq_false_iff.mpr fun h => hinside (findPos_isSome.mp h)
    right
    refine ⟨fun h => hinside h.1.isInfix, ?_⟩
    rw [stripFound, hnone, Bool.false_and, if_neg Bool.false_ne_true]

/-- Stripping keeps names apart, and leaves those that do not begin with the path, exactly under the
conditions of `StripsApart`. -/
theorem stripsApart_iff (hnodup : names.Nodup) :
    ((names.map (stripFound strip)).Nodup ∧
      ∀ name ∈ names, ¬strip <+: name → stripFound strip name = name) ↔ StripsApart strip names := by
  rw [List.nodup_map_iff_inj_on hnodup]
  constructor
  · rintro ⟨hinj, hkeeps⟩
    have hbegins : ∀ name ∈ names, strip <:+: name → strip <+: name := by
      intro name hname hinside
      by_contra hstart
      exact stripFound_inside hinside hstart (hkeeps name hname hstart)
    refine ⟨hbegins, fun b c rest hb hc => ?_, fun b rest hb hrest => ?_⟩
    · have heq := hinj _ hb _ hc (by rw [stripFound_below, stripFound_below])
      simpa using heq
    · rcases below_or_kept (hbegins rest hrest) with ⟨c, back, rfl⟩ | ⟨-, hkept⟩
      · simp
      · have heq := hinj _ hb _ hrest (by rw [stripFound_below, hkept])
        have hlen := congrArg List.length heq
        rw [List.length_append, List.length_cons] at hlen
        omega
  · intro h
    refine ⟨fun name hname other hother hsame => ?_, fun name hname hstart => ?_⟩
    · rcases below_or_kept (h.begins name hname) with ⟨b, rest, rfl⟩ | ⟨hnot, hkept⟩ <;>
        rcases below_or_kept (h.begins other hother) with ⟨c, back, rfl⟩ | ⟨hnot', hkept'⟩
      · rw [stripFound_below, stripFound_below] at hsame
        subst hsame
        rw [h.separator b c rest hname hother]
      · rw [stripFound_below, hkept'] at hsame
        subst hsame
        exact absurd (h.rest b _ hname hother) hnot'
      · rw [stripFound_below, hkept] at hsame
        subst hsame
        exact absurd (h.rest c _ hother hname) hnot
      · rwa [hkept, hkept'] at hsame
    · rcases below_or_kept (h.begins name hname) with ⟨b, rest, rfl⟩ | ⟨-, hkept⟩
      · exact absurd (List.prefix_append _ _) hstart
      · exact hkept

/-- What `CoverallsWriter::write` lists is different for different files exactly under the conditions
of `BasesApart`. -/
theorem basesApart_iff (hnodup : names.Nodup) :
    (names.map (CoverallsWriter.listed cfg commonPath)).Nodup ↔
      BasesApart (CoverallsWriter.stripPath cfg commonPath) names := by
  have hbelow : ∀ rest, CoverallsWriter.fileName cfg commonPath
      (CoverallsWriter.stripPath cfg commonPath ++ rest) = rest := fun rest => by
    rw [CoverallsWriter.fileName, if_pos (List.prefix_append _ _), List.drop_left]
  have hbase : ∀ name, ¬CoverallsWriter.stripPath cfg commonPath <+: name →
      CoverallsWriter.fileName cfg commonPath name = (splitPath name).2 := fun name h => by
    rw [CoverallsWriter.fileName, if_neg h]
  rw [List.nodup_map_iff_inj_on hnodup]
  simp only [CoverallsWriter.listed, escapeJson_injective.eq_iff]
  constructor
  · intro hinj
    refine ⟨fun name hname other hother h h' hsame => ?_, fun name hname h hrest => ?_⟩
    · exact hinj name hname other hother (by rw [hbase name h, hbase other h', hsame])
    · have heq := hinj name hname _ hrest (by rw [hbase name h, hbelow])
      exact h (heq ▸ List.prefix_append _ _)
  · intro hbases name hname other hother hsame
    by_cases h : CoverallsWriter.stripPath cfg commonPath <+: name <;>
      by_cases h' : CoverallsWriter.stripPath cfg commonPath <+: other
    · obtain ⟨rest, rfl⟩ := h
      obtain ⟨rest', rfl⟩ := h'
      rw [hbelow, hbelow] at hsame
      rw [hsame]
    · obtain ⟨rest, rfl⟩ := h
      rw [hbelow, hbase other h'] at hsame
      exact absurd (hsame ▸ hname) (hbases.below other hother h')
    · obtain ⟨rest, rfl⟩ := h'
      rw [hbelow, hbase name h] at hsame
      exact absurd (hsame ▸ hother) (hbases.below name hname h)
    · rw [hbase name h, hbase other h'] at hsame
      exact hbases.base name hname other hother h h' hsame

/-- A directory of all files can be stripped. -/
theorem stripsApart_directory (h : WriterBase.IsCommonDirectory names strip) :
    StripsApart strip names := by
  have hnext : ∀ b rest, strip ++ b :: rest ∈ names → b = slash := by
    intro b rest hb
    have hdir := h _ hb
    rw [IsDirectoryOf, List.prefix_append_right_inj, List.cons_prefix_cons] at hdir
    exact hdir.1.symm
  refine ⟨fun name hname _ => (h name hname).isPrefix, fun b c rest hb hc => ?_, fun _ rest _ hrest =>
    ⟨(h rest hrest).isPrefix, (h rest hrest).length_lt⟩⟩
  rw [hnext b rest hb, hnext c rest hc]

theorem basesApart_directory (h : WriterBase.IsCommonDirectory names strip) :
    BasesApart (strip ++ [slash]) names :=
  ⟨fun name hname _ _ hnot => absurd (h name hname) hnot,
    fun name hname hnot => absurd (h name hname) hnot⟩

end Names

/-- The reports keep the names of files apart exactly if stripping by length does, where Codecov does
not get full paths, and the names of files do for Coveralls. -/
theorem keepsApart_iff (cfg : UploadSetup) (commonPath : Text) {names : List Text}
    (hnodup : names.Nodup) : KeepsApart cfg commonPath names ↔
      (cfg.codecovFullPaths = false → StripsApart (CodecovWriter.stripPath cfg commonPath) names) ∧
      BasesApart (CoverallsWriter.stripPath cfg commonPath) names := by
  rw [← basesApart_iff hnodup]
  cases hfull : cfg.codecovFullPaths with
  | true =>
    have hname : CodecovWriter.filename cfg commonPath = id := by
      funext name
      rw [CodecovWriter.filename, hfull, if_pos rfl, id]
    refine ⟨fun h => ⟨by simp, h.coveralls⟩, fun h => ⟨?_, fun name _ _ => ?_, h.2⟩⟩
    · rwa [hname, List.map_id]
    · rw [hname, id]
  | false =>
    have hname : CodecovWriter.filename cfg commonPath =
        stripFound (CodecovWriter.stripPath cfg commonPath) := by
      funext name
      rw [CodecovWriter.filename, hfull, if_neg Bool.false_ne_true]
    rw [← stripsApart_iff hnodup, ← hname]
    exact ⟨fun h => ⟨fun _ => ⟨h.codecov, h.unmodified⟩, h.coveralls⟩,
      fun h => ⟨(h.1 rfl).1, (h.1 rfl).2, h.2⟩⟩

/-- Without options the common path is stripped. -/
theorem keepsApart_src :
    KeepsApart { codecovFullPaths := false, stripPath := [], gitRootPath := [] } (ascii "/src")
      [ascii "/src/a/x.c", ascii "/src/b/x.c"] := by
  have hdir : WriterBase.IsCommonDirectory [ascii "/src/a/x.c", ascii "/src/b/x.c"]
      (ascii "/src") := by
    decide
  exact (keepsApart_iff _ _ (by decide)).mpr
    ⟨fun _ => stripsApart_directory hdir, basesApart_directory hdir⟩

/-- With a `/` at its end the path is stripped with the first character of the names behind it. -/
theorem not_keepsApart_slash :
    ¬KeepsApart { codecovFullPaths := false, stripPath := ascii "/s/", gitRootPath := [] }
      (ascii "/s") [ascii "/s/a1.c", ascii "/s/b1.c"] := by
  intro h
  have hnodup := h.codecov
  revert hnodup
  decide

end Kcov
