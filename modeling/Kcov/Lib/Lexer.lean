import Mathlib.Data.List.Basic

/-! Automata that read a text symbol by symbol and put out tokens on their way. -/

/-- `step` reads a symbol and `finish` ends the text; both fail where the text is malformed. -/
structure Lexer (σ β τ : Type) where
  step : σ → β → Option (σ × List τ)
  finish : σ → Option (List τ)

namespace Lexer

variable {σ β τ : Type}

/-- The tokens of the rest of a text. -/
def tokens (l : Lexer σ β τ) : σ → List β → Option (List τ)
  | q, [] => l.finish q
  | q, b :: s => (l.step q b).bind fun r => (l.tokens r.1 s).map (r.2 ++ ·)

/-- The state behind some symbols, and the tokens among them. -/
def feed (l : Lexer σ β τ) : σ → List β → Option (σ × List τ)
  | q, [] => some (q, [])
  | q, b :: s => (l.step q b).bind fun r => (l.feed r.1 s).map fun r' => (r'.1, r.2 ++ r'.2)

section Feeding

variable {l : Lexer σ β τ} {q q' q'' : σ} {a b : List β} {out out' : List τ}

theorem tokens_append (h : l.feed q a = some (q', out)) (s : List β) :
    l.tokens q (a ++ s) = (l.tokens q' s).map (out ++ ·) := by
  induction a generalizing q out with
  | nil =>
    cases h
    simp
  | cons x a ih =>
    rw [feed, Option.bind_eq_some_iff] at h
    obtain ⟨⟨p, o⟩, hstep, hrest⟩ := h
    obtain ⟨⟨p', o'⟩, hfeed, heq⟩ := Option.map_eq_some_iff.mp hrest
    cases heq
    rw [List.cons_append, tokens, hstep, Option.bind_some, ih hfeed, Option.map_map]
    simp [Function.comp_def]

theorem feed_append (ha : l.feed q a = some (q', out)) (hb : l.feed q' b = some (q'', out')) :
    l.feed q (a ++ b) = some (q'', out ++ out') := by
  induction a generalizing q out with
  | nil =>
    cases ha
    exact hb
  | cons x a ih =>
    rw [feed, Option.bind_eq_some_iff] at ha
    obtain ⟨⟨p, o⟩, hstep, hrest⟩ := ha
    obtain ⟨⟨p', o'⟩, hfeed, heq⟩ := Option.map_eq_some_iff.mp hrest
    cases heq
    rw [List.cons_append, feed, hstep, Option.bind_some, ih hfeed, Option.map_some,
      List.append_assoc]

end Feeding

/-- Parts one after the other, with a separator in front of all but the first. -/
def separated {α : Type} (sep : List α) : Bool → List (List α) → List α
  | _, [] => []
  | first, x :: xs => (if first then [] else sep) ++ x ++ separated sep false xs

/-- The text `a` takes the automaton from `q` to `q'`, and puts out `out` exactly if `P`. -/
def Prints (l : Lexer σ β τ) (q : σ) (a : List β) (out : List τ) (q' : σ) (P : Prop) : Prop :=
  ∀ s ts, l.tokens q (a ++ s) = some (out ++ ts) ↔ P ∧ l.tokens q' s = some ts

section Prints

variable {l : Lexer σ β τ} {q q' q'' : σ} {a b : List β} {out out' : List τ} {P P' : Prop}

theorem Prints.of_feed (h : l.feed q a = some (q', out)) : l.Prints q a out q' True := by
  intro s ts
  rw [tokens_append h, Option.map_eq_some_iff, true_and]
  constructor
  · rintro ⟨rest, hrest, heq⟩
    rwa [← List.append_cancel_left heq]
  · exact fun hrest => ⟨ts, hrest, rfl⟩

theorem Prints.append (ha : l.Prints q a out q' P) (hb : l.Prints q' b out' q'' P') :
    l.Prints q (a ++ b) (out ++ out') q'' (P ∧ P') := by
  intro s ts
  rw [List.append_assoc, List.append_assoc, ha, hb, and_assoc]

/-- What is printed between two literal parts. -/
theorem Prints.after (hb : l.Prints q' b out' q'' P') (ha : l.feed q a = some (q', out)) :
    l.Prints q (a ++ b) (out ++ out') q'' P' := by
  intro s ts
  rw [(Prints.of_feed ha).append hb s ts, true_and]

theorem Prints.before (ha : l.Prints q a out q' P) (hb : l.feed q' b = some (q'', out')) :
    l.Prints q (a ++ b) (out ++ out') q'' P := by
  intro s ts
  rw [ha.append (Prints.of_feed hb) s ts, and_true]

theorem Prints.congr (h : l.Prints q a out q' P) (hP : P ↔ P') : l.Prints q a out q' P' := by
  intro s ts
  rw [h s ts, hP]

/-- A loop whose rounds begin and end in the same state. -/
theorem Prints.flatMap {α : Type} {f : α → List β} {g : α → List τ} {R : α → Prop} {xs : List α}
    (h : ∀ x ∈ xs, l.Prints q (f x) (g x) q (R x)) :
    l.Prints q (xs.flatMap f) (xs.flatMap g) q (∀ x ∈ xs, R x) := by
  induction xs with
  | nil =>
    intro s ts
    simp
  | cons x xs ih =>
    rw [List.flatMap_cons, List.flatMap_cons]
    refine Prints.congr ?_ List.forall_mem_cons.symm
    exact (h x List.mem_cons_self).append (ih fun y hy => h y (List.mem_cons_of_mem x hy))

theorem prints_separated {α : Type} {f : α → List β} {g : α → List τ} {R : α → Prop} {xs : List α}
    {sep : List β} {sepOut : List τ} (hsep : l.feed q sep = some (q, sepOut))
    (h : ∀ x ∈ xs, l.Prints q (f x) (g x) q (R x)) (first : Bool) :
    l.Prints q (separated sep first (xs.map f)) (separated sepOut first (xs.map g)) q
      (∀ x ∈ xs, R x) := by
  induction xs generalizing first with
  | nil => exact (Prints.of_feed rfl).congr (by simp)
  | cons x xs ih =>
    have hrest := ih (fun y hy => h y (List.mem_cons_of_mem x hy)) false
    have hfirst : l.feed q (if first then [] else sep) = some (q, if first then [] else sepOut) := by
      cases first with
      | true => rfl
      | false => exact hsep
    rw [List.map_cons, List.map_cons, separated, separated]
    refine (((h x List.mem_cons_self).after hfirst).append hrest).congr ?_
    rw [List.forall_mem_cons]

/-- The tokens of a whole text. -/
theorem Prints.tokens_iff (h : l.Prints q a out q' P) (hfinish : l.finish q' = some []) :
    l.tokens q a = some out ↔ P := by
  have hwhole := h [] []
  rwa [List.append_nil, List.append_nil, tokens, hfinish, eq_self, and_true] at hwhole

end Prints

end Lexer
