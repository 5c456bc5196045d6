import Mathlib.Data.List.Basic
import Mathlib.Data.List.Infix

/-! Paths that are made of names between separators, and the directories that they lead to. -/

namespace Paths

variable {α D : Type*} [DecidableEq α] {sep dot : α} {p q : List α}

/-- The names in a path. Neither an empty name nor a single dot leads anywhere else. -/
def components (sep dot : α) (path : List α) : List (List α) :=
  (path.splitOn sep).filter fun name => name ≠ [] ∧ name ≠ [dot]

@[simp] theorem components_nil : components sep dot [] = [] := by
  simp [components]

theorem components_append (p q : List α) :
    components sep dot (p ++ sep :: q) = components sep dot p ++ components sep dot q := by
  rw [components, List.splitOn_append_cons_self, List.filter_append]
  rfl

theorem components_cons (q : List α) : components sep dot (sep :: q) = components sep dot q :=
  components_append [] q

theorem components_name {name : List α} (hsep : sep ∉ name) (hnil : name ≠ []) (hdot : name ≠ [dot]) :
    components sep dot name = [name] := by
  rw [components, List.splitOn_eq_singleton hsep]
  simp [hnil, hdot]

/-- The path from the root with the given names, without a separator at its end. -/
def absolute (sep : α) (names : List (List α)) : List α := names.flatMap (sep :: ·)

theorem components_absolute {names : List (List α)}
    (h : ∀ name ∈ names, sep ∉ name ∧ name ≠ [] ∧ name ≠ [dot]) :
    components sep dot (absolute sep names) = names := by
  induction names with
  | nil => exact components_nil
  | cons name names ih =>
    obtain ⟨hsep, hnil, hdot⟩ := h name List.mem_cons_self
    have hrest := ih fun n hn => h n (List.mem_cons_of_mem name hn)
    rw [absolute, List.flatMap_cons, ← absolute, List.cons_append, components_cons]
    cases names with
    | nil =>
      rw [absolute, List.flatMap_nil, List.append_nil]
      exact components_name hsep hnil hdot
    | cons next names =>
      rw [absolute, List.flatMap_cons, List.cons_append, components_cons] at hrest
      rw [absolute, List.flatMap_cons, List.cons_append, components_append, hrest,
        components_name hsep hnil hdot]
      rfl

/-- Directories with the names in them, some of which lead to other directories. -/
structure Tree (α D : Type*) where
  root : D
  current : D
  child : D → List α → Option D
  readable : D → Bool
  readdir : D → List (List α)
  /-- A name that leads somewhere is found in its directory. -/
  listed : ∀ d name e, child d name = some e → name ∈ readdir d

namespace Tree

variable (t : Tree α D)

/-- The directory at the end of a path. -/
def lookup (sep dot : α) (path : List α) : Option D :=
  if path = [] then none
  else (components sep dot path).foldlM t.child
    (if path.head? = some sep then t.root else t.current)

def opendir (sep dot : α) (path : List α) : Option D := (t.lookup sep dot path).filter t.readable

/-- Paths with the same names lead to the same directory if they start at the same one. -/
theorem lookup_congr {b : List α} (hb : b ≠ []) (hpq : components sep dot (b ++ p) =
    components sep dot (b ++ q)) : t.lookup sep dot (b ++ p) = t.lookup sep dot (b ++ q) := by
  obtain ⟨x, b, rfl⟩ := List.exists_cons_of_ne_nil hb
  rw [lookup, lookup, hpq]
  rfl

theorem lookup_append (p q : List α) : t.lookup sep dot (p ++ sep :: q) =
    (t.lookup sep dot (p ++ [sep])).bind fun d => (components sep dot q).foldlM t.child d := by
  have hhead : (p ++ sep :: q).head? = (p ++ [sep]).head? := by cases p <;> rfl
  rw [lookup, lookup, hhead, if_neg (List.append_ne_nil_of_right_ne_nil p (List.cons_ne_nil sep q)),
    if_neg (List.append_ne_nil_of_right_ne_nil p (List.cons_ne_nil sep [])), components_append,
    components_append, components_nil, List.append_nil, List.foldlM_append]
  rfl

/-- Where a path through a directory leads somewhere, its next name is found there. -/
theorem mem_readdir {d e : D} {name : List α} (hsep : sep ∉ name) (hnil : name ≠ [])
    (hdot : name ≠ [dot]) (hd : t.lookup sep dot (p ++ [sep]) = some d)
    (he : t.lookup sep dot (p ++ sep :: (name ++ sep :: q)) = some e) : name ∈ t.readdir d := by
  rw [lookup_append, hd, Option.bind_some, components_append, components_name hsep hnil hdot,
    List.singleton_append, List.foldlM_cons, Option.bind_eq_bind, Option.bind_eq_some_iff] at he
  obtain ⟨c, hc, -⟩ := he
  exact t.listed d name c hc

end Tree

/-! ### The directories above a path -/

/-- The path leads through the directory, by its names alone. -/
def IsDirectoryOf (sep : α) (d path : List α) : Prop := d ++ [sep] <+: path

instance (sep : α) (d path : List α) : Decidable (IsDirectoryOf sep d path) :=
  inferInstanceAs (Decidable (_ <+: _))

/-- The names of a directory are the first ones of what lies in it. -/
theorem components_isPrefix (dot : α) {d path : List α}
    (h : path = d ∨ IsDirectoryOf sep d path) :
    components sep dot d <+: components sep dot path := by
  rcases h with rfl | ⟨rest, rfl⟩
  · exact List.prefix_rfl
  · rw [List.append_assoc, List.singleton_append, components_append]
    exact List.prefix_append _ _

omit [DecidableEq α] in
theorem absolute_below {d path : List (List α)} (h : d <+: path) :
    absolute sep path = absolute sep d ∨ IsDirectoryOf sep (absolute sep d) (absolute sep path) := by
  obtain ⟨rest, rfl⟩ := h
  rw [absolute, List.flatMap_append]
  cases rest with
  | nil => exact Or.inl (List.append_nil _)
  | cons name rest =>
    refine Or.inr ⟨name ++ absolute sep rest, ?_⟩
    rw [List.flatMap_cons, List.append_assoc, List.singleton_append, List.cons_append]
    rfl

/-- One of the lists with a property than which no other is longer. -/
structure IsLongest (P : List α → Prop) (d : List α) : Prop where
  holds : P d
  longest : ∀ e, P e → e.length ≤ d.length

/-- The longest directory of a path that fits, found by cutting at its separators from the end: the
path is `scanned.reverse` and more, and `current` has been cut last. -/
def cutBack (sep : α) (fits : List α → Bool) (current : List α) : List α → List α
  | [] => current
  | b :: scanned =>
    if b = sep then
      if fits scanned.reverse then scanned.reverse
      else cutBack sep fits scanned.reverse scanned
    else cutBack sep fits current scanned

section Directories

variable {d e path : List α} {fits : List α → Bool}

omit [DecidableEq α] in
theorem IsDirectoryOf.isPrefix (h : IsDirectoryOf sep d path) : d <+: path :=
  (List.prefix_append d [sep]).trans h

omit [DecidableEq α] in
theorem IsDirectoryOf.length_lt (h : IsDirectoryOf sep d path) : d.length < path.length := by
  have hle := h.length_le
  rw [List.length_append] at hle
  exact hle

omit [DecidableEq α] in
theorem IsDirectoryOf.of_isPrefix (h : IsDirectoryOf sep d path) (hpath : path <+: q) :
    IsDirectoryOf sep d q :=
  List.IsPrefix.trans h hpath

omit [DecidableEq α] in
/-- A directory of a path is one of every longer part of it. -/
theorem IsDirectoryOf.of_length (h : IsDirectoryOf sep d path) (hq : q <+: path)
    (hlen : d.length < q.length) : IsDirectoryOf sep d q := by
  refine List.prefix_of_prefix_length_le h hq ?_
  rw [List.length_append]
  exact hlen

/-- Cutting finds the longest directory that fits, if there is any. -/
theorem cutBack_isLongest {current scanned : List α} (hscanned : scanned.reverse <+: path)
    (hcut : ∀ e, IsDirectoryOf sep e path → fits e → e.length < scanned.length)
    (hfits : ∃ e, IsDirectoryOf sep e path ∧ fits e) :
    IsLongest (fun e => IsDirectoryOf sep e path ∧ fits e) (cutBack sep fits current scanned) := by
  induction scanned generalizing current with
  | nil =>
    obtain ⟨e, he, hfit⟩ := hfits
    exact absurd (hcut e he hfit) (Nat.not_lt_zero _)
  | cons b scanned ih =>
    rw [List.reverse_cons] at hscanned
    have hscanned' : scanned.reverse <+: path := (List.prefix_append _ _).trans hscanned
    -- a directory of the same length as what is left is what is left
    have hsame : ∀ e, IsDirectoryOf sep e path → scanned.length ≤ e.length →
        e.length < (b :: scanned).length → e = scanned.reverse ∧ sep = b := by
      intro e he hle hlt
      have hlen : (e ++ [sep]).length = (scanned.reverse ++ [b]).length := by
        rw [List.length_cons] at hlt
        rw [List.length_append, List.length_append, List.length_reverse, List.length_singleton,
          List.length_singleton]
        omega
      have heq := (List.prefix_of_prefix_length_le he hscanned hlen.le).eq_of_length hlen
      simpa using heq
    rw [cutBack]
    split
    next hb =>
      subst hb
      split
      next hfit =>
        refine ⟨⟨hscanned, hfit⟩, fun e he => ?_⟩
        rw [List.length_reverse]
        exact Nat.le_of_lt_succ (hcut e he.1 he.2)
      next hfit =>
        refine ih hscanned' fun e he hfite => ?_
        by_contra hle
        obtain ⟨rfl, -⟩ := hsame e he (Nat.le_of_not_lt hle) (hcut e he hfite)
        exact hfit hfite
    next hb =>
      refine ih hscanned' fun e he hfite => ?_
      by_contra hle
      exact hb (hsame e he (Nat.le_of_not_lt hle) (hcut e he hfite)).2.symm

end Directories

end Paths
