import Kcov.Rejected

/-! The arguments of the program behind the options of kcov: no option among them is taken for one of
kcov itself. -/

namespace Getopt

variable {ν : Type} [DecidableEq ν] {longs : List (LongOption ν)} {shorts : List (ShortOption ν)}

/-- The scan stops before the operands, so that more of them change nothing in front of them. -/
theorem scan_append (next : Option ν) (args more : List (List Bytes.Byte))
    (h : (scan longs shorts next args).2 ≠ []) : scan longs shorts next (args ++ more) =
      ((scan longs shorts next args).1, (scan longs shorts next args).2 ++ more) := by
  induction args generalizing next with
  | nil => cases next <;> exact absurd rfl h
  | cons arg args ih =>
    cases next with
    | some val =>
      rw [scan] at h
      rw [List.cons_append, scan, scan, ih none h]
    | none =>
      rw [scan] at h
      rw [List.cons_append, scan, scan]
      split at h
      · rfl
      · rfl
      next found next harg => rw [ih next h]

/-- The operands are the last of the arguments, as they were given. -/
theorem scan_suffix (next : Option ν) (args : List (List Bytes.Byte)) :
    (scan longs shorts next args).2 <:+ args := by
  induction args generalizing next with
  | nil => cases next <;> exact List.suffix_refl _
  | cons arg args ih =>
    cases next with
    | some val =>
      rw [scan]
      exact (ih none).trans (List.suffix_cons arg args)
    | none =>
      rw [scan]
      split
      · exact List.suffix_refl _
      · exact List.suffix_cons arg args
      next found next harg => exact (ih next).trans (List.suffix_cons arg args)

end Getopt

namespace Kcov.CommandLine

open Bytes Getopt

variable {sys : System} {program : Text} {args more : List Text} {keys : KeyMaps} {r : Parsed}

theorem except_bind_eq_ok {ε α β : Type} {x : Except ε α} {f : α → Except ε β} {b : β} :
    x >>= f = .ok b ↔ ∃ a, x = .ok a ∧ f a = .ok b := by
  cases x with
  | error e =>
    refine ⟨fun h => (by cases h), ?_⟩
    rintro ⟨_, ha, -⟩
    cases ha
  | ok a =>
    refine ⟨fun h => ⟨a, rfl, h⟩, ?_⟩
    rintro ⟨_, ha, hf⟩
    cases ha
    exact hf

theorem inFile_append {path : Text} (h : inFile args = .ok path) :
    inFile (args ++ more) = .ok path := by
  cases args with
  | nil => cases h
  | cons arg args => exact h

theorem filePath_append {path : Text} (h : filePath sys keys args = .ok path) :
    filePath sys keys (args ++ more) = .ok path := by
  rw [filePath, except_bind_eq_ok] at h ⊢
  obtain ⟨pid, hpid, h⟩ := h
  refine ⟨pid, hpid, ?_⟩
  split at h
  next hzero =>
    rw [if_pos hzero]
    exact inFile_append h
  next hzero =>
    rw [if_neg hzero]
    dsimp only at h ⊢
    split at h
    next hexists =>
      rw [if_pos hexists]
      exact h
    next hexists =>
      rw [if_neg hexists]
      exact inFile_append h

theorem setupPaths_append {outArgument : Text} {keys' : KeyMaps}
    (h : setupPaths sys keys outArgument args = .ok keys') :
    setupPaths sys keys outArgument (args ++ more) = .ok keys' := by
  rw [setupPaths, except_bind_eq_ok] at h ⊢
  obtain ⟨mode, hmode, h⟩ := h
  refine ⟨mode, hmode, ?_⟩
  split at h
  next hmerge =>
    rw [if_pos hmerge]
    exact h
  next hmerge =>
    rw [if_neg hmerge]
    rw [setupProgram, except_bind_eq_ok] at h ⊢
    obtain ⟨path, hpath, h⟩ := h
    exact ⟨path, filePath_append hpath, h⟩

theorem finish_append {s : ParseState} (h : finish sys s args = .ok r) :
    finish sys s (args ++ more) = .ok { r with programArgs := r.programArgs ++ more } := by
  unfold finish at h ⊢
  split at h
  · cases h
  next hhelp =>
    rw [if_neg hhelp]
    split at h
    · cases h
    next hmany =>
      rw [if_neg (by rw [List.length_append]; omega)]
      cases args with
      | nil => cases h
      | cons outArgument programArgs =>
        obtain ⟨keys, hkeys, h⟩ := except_bind_eq_ok.mp h
        cases h
        exact except_bind_eq_ok.mpr ⟨keys, setupPaths_append hkeys, rfl⟩

theorem finish_programArgs {s : ParseState} (h : finish sys s args = .ok r) :
    ∃ outArgument, args = outArgument :: r.programArgs := by
  unfold finish at h
  split at h
  · cases h
  · split at h
    · cases h
    · cases args with
      | nil => cases h
      | cons outArgument programArgs =>
        obtain ⟨keys, -, h⟩ := except_bind_eq_ok.mp h
        cases h
        exact ⟨outArgument, rfl⟩

/-- Whatever follows a command line that kcov accepts, it is given to the program: every key is what
it was, and the program has the last of the arguments, as they were given. -/
theorem parse_append (h : parse sys program args = .ok r) :
    r.programArgs <:+ args ∧ ∀ more, parse sys program (args ++ more) =
      .ok { r with programArgs := r.programArgs ++ more } := by
  rw [parse] at h
  obtain ⟨s, hs, hfinish⟩ := except_bind_eq_ok.mp h
  obtain ⟨outArgument, hoperands⟩ : ∃ outArgument,
      (getoptLong longOptions shortOptions args).2 = outArgument :: r.programArgs :=
    finish_programArgs hfinish
  refine ⟨?_, fun more => ?_⟩
  · have hsuffix : (getoptLong longOptions shortOptions args).2 <:+ args := scan_suffix none args
    rw [hoperands] at hsuffix
    exact (List.suffix_cons outArgument _).trans hsuffix
  · have hne : (getoptLong longOptions shortOptions args).2 ≠ [] := by
      rw [hoperands]
      exact List.cons_ne_nil _ _
    have hscan : getoptLong longOptions shortOptions (args ++ more) =
        ((getoptLong longOptions shortOptions args).1,
          (getoptLong longOptions shortOptions args).2 ++ more) := scan_append none args more hne
    rw [parse, hscan]
    exact except_bind_eq_ok.mpr ⟨s, hs, finish_append hfinish⟩

/-- The options behind the name of the program are not those of kcov. -/
theorem parse_append_merge : ∃ r, parse .bare (ascii "kcov")
      [ascii "--clean", ascii "/tmp/out", ascii "prog"] = .ok r ∧
    parse .bare (ascii "kcov") [ascii "--clean", ascii "/tmp/out", ascii "prog", ascii "--merge",
      ascii "--pid=1"] =
        .ok { r with programArgs := [ascii "prog", ascii "--merge", ascii "--pid=1"] } := by
  obtain ⟨r, hr, hargs⟩ : ∃ r, parse .bare (ascii "kcov")
      [ascii "--clean", ascii "/tmp/out", ascii "prog"] = .ok r ∧ r.programArgs = [ascii "prog"] :=
    ⟨_, rfl, rfl⟩
  have h := (parse_append hr).2 [ascii "--merge", ascii "--pid=1"]
  rw [hargs] at h
  exact ⟨r, hr, h⟩

end Kcov.CommandLine
