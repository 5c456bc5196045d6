import Kcov.Lib.Bytes

/-! Options in front of the other arguments of a program, as `getopt_long` finds them: it stops at the
first argument that is none, and tells a missing argument from an unknown option. -/

namespace Getopt

open Bytes

variable {ν : Type}

structure LongOption (ν : Type) where
  name : List Byte
  takesArgument : Bool
  val : ν

structure ShortOption (ν : Type) where
  letter : Byte
  takesArgument : Bool
  val : ν

/-- What one call returns. -/
inductive Found (ν : Type) where
  | option (val : ν) (optarg : Option (List Byte))
  | missingArgument
  | unrecognized

def hyphen : Byte := 0x2d
def equalsSign : Byte := 0x3d

/-- A name may be cut short where all options that begin with it come to the same. -/
def findLong [DecidableEq ν] (longs : List (LongOption ν)) (name : List Byte) :
    Option (LongOption ν) :=
  match longs.find? (·.name = name) with
  | some o => some o
  | none =>
    match longs.filter fun o => name <+: o.name with
    | [] => none
    | o :: others =>
      if others.all fun p => p.takesArgument = o.takesArgument && decide (p.val = o.val) then some o
      else none

/-- What an argument holds: the options in it, and one behind them that takes the next argument. -/
inductive Argument (ν : Type) where
  | operand
  | endOfOptions
  | options (found : List (Found ν)) (next : Option ν)

def letters (shorts : List (ShortOption ν)) : List Byte → List (Found ν) × Option ν
  | [] => ([], none)
  | b :: rest =>
    match shorts.find? (·.letter = b) with
    | none => (.unrecognized :: (letters shorts rest).1, (letters shorts rest).2)
    | some o =>
      if !o.takesArgument then (.option o.val none :: (letters shorts rest).1, (letters shorts rest).2)
      else if rest = [] then ([], some o.val)
      else ([.option o.val (some rest)], none)

/-- An option in full, with a value behind an `=` or without one. -/
def word [DecidableEq ν] (longs : List (LongOption ν)) (text : List Byte) :
    List (Found ν) × Option ν :=
  let value := text.dropWhile (· ≠ equalsSign)
  match findLong longs (text.takeWhile (· ≠ equalsSign)) with
  | none => ([.unrecognized], none)
  | some o =>
    if value = [] then if o.takesArgument then ([], some o.val) else ([.option o.val none], none)
    else if o.takesArgument then ([.option o.val (some (value.drop 1))], none)
    else ([.unrecognized], none)

def argument [DecidableEq ν] (longs : List (LongOption ν)) (shorts : List (ShortOption ν))
    (arg : List Byte) : Argument ν :=
  if arg = [hyphen, hyphen] then .endOfOptions
  else if arg.head? ≠ some hyphen ∨ arg = [hyphen] then .operand
  else
    let (found, next) :=
      if [hyphen, hyphen] <+: arg then word longs (arg.drop 2) else letters shorts (arg.drop 1)
    .options found next

/-- The options, and the arguments from the first on that is none. An option may be waiting for the
next argument. -/
def scan [DecidableEq ν] (longs : List (LongOption ν)) (shorts : List (ShortOption ν)) :
    Option ν → List (List Byte) → List (Found ν) × List (List Byte)
  | none, [] => ([], [])
  | some _, [] => ([.missingArgument], [])
  | some val, arg :: args =>
    let (found, operands) := scan longs shorts none args
    (.option val (some arg) :: found, operands)
  | none, arg :: args =>
    match argument longs shorts arg with
    | .operand => ([], arg :: args)
    | .endOfOptions => ([], args)
    | .options found next =>
      let (more, operands) := scan longs shorts next args
      (found ++ more, operands)

/-- `getopt_long`, called until there are no more options. -/
def getoptLong [DecidableEq ν] (longs : List (LongOption ν)) (shorts : List (ShortOption ν))
    (args : List (List Byte)) : List (Found ν) × List (List Byte) :=
  scan longs shorts none args

/-! ### Arguments of options -/

section Arguments

variable {longs : List (LongOption ν)} {shorts : List (ShortOption ν)} {needs : ν → Bool}

/-- Of the options in `needs` none comes without an argument. -/
def HasArguments (needs : ν → Bool) (found : List (Found ν)) : Prop :=
  ∀ val, Found.option val none ∈ found → needs val = false

theorem hasArguments_letters (hshorts : ∀ o ∈ shorts, needs o.val = true → o.takesArgument = true)
    (text : List Byte) : HasArguments needs (letters shorts text).1 := by
  induction text with
  | nil => exact fun val h => absurd h List.not_mem_nil
  | cons b rest ih =>
    intro val hval
    rw [letters] at hval
    split at hval
    · rcases List.mem_cons.mp hval with heq | hmem
      · cases heq
      · exact ih val hmem
    next o ho =>
      split at hval
      next htakes =>
        rcases List.mem_cons.mp hval with heq | hmem
        · cases heq
          have hshort := hshorts o (List.mem_of_find?_eq_some ho)
          cases hneeds : needs o.val with
          | false => rfl
          | true => simp [hshort hneeds] at htakes
        · exact ih val hmem
      · split at hval
        · cases hval
        · simp at hval

variable [DecidableEq ν]

theorem findLong_mem {name : List Byte} {o : LongOption ν} (h : findLong longs name = some o) :
    o ∈ longs := by
  rw [findLong] at h
  split at h
  next p hp =>
    cases h
    exact List.mem_of_find?_eq_some hp
  next =>
    split at h
    · cases h
    next p others hfilter =>
      split at h
      · cases h
        exact List.mem_of_mem_filter (hfilter ▸ List.mem_cons_self)
      · cases h

theorem hasArguments_word (hlongs : ∀ o ∈ longs, needs o.val = true → o.takesArgument = true)
    (text : List Byte) : HasArguments needs (word longs text).1 := by
  intro val hval
  unfold word at hval
  dsimp only at hval
  split at hval
  · simp at hval
  next o ho =>
    have hlong := hlongs o (findLong_mem ho)
    split_ifs at hval with hvalue htakes htakes
    · cases hval
    · cases List.mem_singleton.mp hval
      exact Bool.eq_false_iff.mpr fun hneeds => htakes (hlong hneeds)
    · simp at hval
    · simp at hval

/-- Options that need an argument get one if the tables say that they take it. -/
theorem hasArguments_getoptLong
    (hlongs : ∀ o ∈ longs, needs o.val = true → o.takesArgument = true)
    (hshorts : ∀ o ∈ shorts, needs o.val = true → o.takesArgument = true)
    (args : List (List Byte)) : HasArguments needs (getoptLong longs shorts args).1 := by
  have hscan : ∀ (next : Option ν) args, HasArguments needs (scan longs shorts next args).1 := by
    intro next args
    induction args generalizing next with
    | nil =>
      intro val hval
      cases next <;> simp [scan] at hval
    | cons arg args ih =>
      intro val hval
      cases next with
      | some o =>
        rcases List.mem_cons.mp hval with heq | hmem
        · cases heq
        · exact ih none val hmem
      | none =>
        rw [scan] at hval
        split at hval
        · cases hval
        · cases hval
        next found next harg =>
          rcases List.mem_append.mp hval with hmem | hmem
          · rw [argument] at harg
            split_ifs at harg
            · cases harg
              exact hasArguments_word hlongs _ val hmem
            · cases harg
              exact hasArguments_letters hshorts _ val hmem
          · exact ih next val hmem
  exact hscan none args

end Arguments

end Getopt
