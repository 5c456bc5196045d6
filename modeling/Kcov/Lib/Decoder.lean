import Kcov.Lib.Bytes

/-! Decoders of binary data: computations that end with a result, with a refusal, or with an access
outside their buffer; and integer fields at fixed offsets. -/

namespace Bytes

/-- How a decoder ends without a result: it accesses memory outside its buffer, or it refuses the
data. -/
inductive Stop where
  | outOfBounds
  | rejected
  deriving DecidableEq, Repr

/-- An access that fails when it is out of bounds. -/
def inBounds {α : Type} : Option α → Except Stop α
  | some a => .ok a
  | none => .error .outOfBounds

@[simp] theorem inBounds_some {α : Type} (a : α) : inBounds (some a) = .ok a := rfl

theorem inBounds_eq_ok {α : Type} {o : Option α} {a : α} : inBounds o = .ok a ↔ o = some a := by
  cases o <;> simp [inBounds]

/-- A check that makes a decoder return without a result. -/
def refuseIf (p : Prop) [Decidable p] : Except Stop Unit :=
  if p then .error .rejected else .ok ()

theorem refuseIf_neg {p : Prop} [Decidable p] (h : ¬p) : refuseIf p = .ok () := if_neg h

theorem refuseIf_pos {p : Prop} [Decidable p] (h : p) : refuseIf p = .error .rejected := if_pos h

theorem refuseIf_eq_ok {p : Prop} [Decidable p] {u : Unit} : refuseIf p = .ok u ↔ ¬p := by
  unfold refuseIf
  split <;> simp_all

theorem bind_eq_ok {α β : Type} {x : Except Stop α} {k : α → Except Stop β} {b : β} :
    (x >>= k) = .ok b ↔ ∃ a, x = .ok a ∧ k a = .ok b := by
  cases x <;> simp [bind, Except.bind]

@[simp] theorem error_bind {α β : Type} (e : Stop) (k : α → Except Stop β) :
    (.error e >>= k) = .error e := rfl

@[simp] theorem ok_bind {α β : Type} (a : α) (k : α → Except Stop β) : (.ok a >>= k) = k a := rfl

/-! ### Accesses inside the buffer -/

/-- A computation that accesses no memory outside its buffer. -/
def StaysInside {α : Type} (x : Except Stop α) : Prop := x ≠ .error .outOfBounds

section StaysInside

variable {α β : Type} {x : Except Stop α} {k : α → Except Stop β}

@[simp] theorem staysInside_ok (a : α) : StaysInside (.ok a) := by simp [StaysInside]

@[simp] theorem staysInside_pure (a : α) : StaysInside (pure a : Except Stop α) := staysInside_ok a

@[simp] theorem staysInside_rejected : StaysInside (.error .rejected : Except Stop α) := by
  simp [StaysInside]

@[simp] theorem not_staysInside : ¬StaysInside (.error .outOfBounds : Except Stop α) := by
  simp [StaysInside]

theorem staysInside_bind :
    StaysInside (x >>= k) ↔ StaysInside x ∧ ∀ a, x = .ok a → StaysInside (k a) := by
  cases x with
  | ok a => simp
  | error e => cases e <;> simp

theorem staysInside_inBounds_bind {o : Option α} :
    StaysInside (inBounds o >>= k) ↔ ∃ a ∈ o, StaysInside (k a) := by
  cases o with
  | none => simp [inBounds]
  | some a => simp

theorem staysInside_refuseIf_bind {p : Prop} [Decidable p] {k : Unit → Except Stop β} :
    StaysInside (refuseIf p >>= k) ↔ (¬p → StaysInside (k ())) := by
  by_cases hp : p
  · rw [refuseIf_pos hp, error_bind]
    simp [hp]
  · rw [refuseIf_neg hp, ok_bind]
    simp [hp]

/-- A computation without checks. -/
def NeverRefuses {α : Type} (x : Except Stop α) : Prop := x ≠ .error .rejected

theorem neverRefuses_pure (a : α) : NeverRefuses (pure a : Except Stop α) := by
  simp [NeverRefuses, pure, Except.pure]

theorem neverRefuses_bind (hx : NeverRefuses x) (h : ∀ a, NeverRefuses (k a)) :
    NeverRefuses (x >>= k) := by
  cases x with
  | ok a => exact h a
  | error e =>
    rw [error_bind]
    exact fun heq => hx (by rw [Except.error.inj heq])

theorem neverRefuses_inBounds_bind {o : Option α} (h : ∀ a ∈ o, NeverRefuses (k a)) :
    NeverRefuses (inBounds o >>= k) := by
  cases o with
  | none => simp [NeverRefuses, inBounds]
  | some a => exact h a rfl

/-- A loop of computations without checks stays inside exactly if all of them do. -/
theorem mapM_staysInside {f : α → Except Stop β} {l : List α} (h : ∀ a ∈ l, NeverRefuses (f a)) :
    NeverRefuses (l.mapM f) ∧ (StaysInside (l.mapM f) ↔ ∀ a ∈ l, StaysInside (f a)) := by
  induction l with
  | nil => exact ⟨neverRefuses_pure _, by simp⟩
  | cons a l ih =>
    obtain ⟨hrefuses, hiff⟩ := ih fun b hb => h b (List.mem_cons_of_mem a hb)
    have ha := h a List.mem_cons_self
    rw [List.mapM_cons, List.forall_mem_cons, ← hiff]
    cases hfa : f a with
    | error e =>
      cases e with
      | rejected => exact absurd hfa ha
      | outOfBounds => simp [NeverRefuses]
    | ok b =>
      rw [ok_bind]
      cases hrest : l.mapM f with
      | error e =>
        cases e with
        | rejected => exact absurd hrest hrefuses
        | outOfBounds => simp [NeverRefuses]
      | ok bs => exact ⟨neverRefuses_pure (b :: bs), by simp⟩

/-- A loop gets the same results from a function that does whenever the first one gets a result. -/
theorem mapM_of_ok {f g : α → Except Stop β} (h : ∀ a b, f a = .ok b → g a = .ok b) {l : List α}
    {bs : List β} (hf : l.mapM f = .ok bs) : l.mapM g = .ok bs := by
  induction l generalizing bs with
  | nil => exact hf
  | cons a l ih =>
    rw [List.mapM_cons, bind_eq_ok] at hf
    obtain ⟨b, ha, hf⟩ := hf
    obtain ⟨bs', hl, hbs⟩ := bind_eq_ok.mp hf
    rw [List.mapM_cons, h a b ha, ok_bind, ih hl, ok_bind, hbs]

end StaysInside

/-! ### Fields -/

/-- The field of `n` bytes at offset `off` of `bs`. -/
def field (host : Endian) (bs : List Byte) (off n : Nat) : Nat :=
  host.decode ((bs.drop off).take n)

theorem field_encode (host : Endian) (n v : Nat) (rest : List Byte) :
    field host (host.encode n v ++ rest) 0 n = v % 256 ^ n := by
  rw [field, List.drop_zero, List.take_left' (by simp), host.decode_encode]

theorem field_skip (host : Endian) {m v k n : Nat} (rest : List Byte) (h : m ≤ k) :
    field host (host.encode m v ++ rest) k n = field host rest (k - m) n := by
  rw [field, field, List.drop_append, List.drop_of_length_le (by simpa using h), List.nil_append,
    Endian.length_encode]

theorem StandsAt.field {host : Endian} {buf : List Byte} {off n v : Nat}
    (h : StandsAt buf off (host.encode n v)) : field host buf off n = v % 256 ^ n := by
  unfold StandsAt at h
  rw [Endian.length_encode] at h
  rw [Bytes.field, h, host.decode_encode]

theorem ofNat_mod_pow {w n : Nat} (h : 8 * n = w) (x : BitVec w) :
    BitVec.ofNat w (x.toNat % 256 ^ n) = x := by
  apply BitVec.eq_of_toNat_eq
  have hw : 256 ^ n = 2 ^ w := by rw [← h, Nat.pow_mul]
  rw [hw, BitVec.toNat_ofNat, Nat.mod_mod, Nat.mod_eq_of_lt x.isLt]

/-! ### Loops over tables -/

section Loops

variable {α : Type}

/-- A loop that rewrites the elements of a table in place, one after the other. -/
theorem foldlM_flatMap {f g : α → List Byte} {k base : Nat} (hg : ∀ x, (g x).length = k)
    {step : List Byte → Nat → Except Stop (List Byte)}
    (hstep : ∀ front x rest i, front.length = base + k * i →
      step (front ++ (f x ++ rest)) i = .ok (front ++ (g x ++ rest)))
    {front : List Byte} (rest : List Byte) (l : List α) (hbase : front.length = base) :
    (List.range l.length).foldlM step (front ++ (l.flatMap f ++ rest)) =
      .ok (front ++ (l.flatMap g ++ rest)) := by
  have hfrom : ∀ i front, front.length = base + k * i →
      (List.range' i l.length).foldlM step (front ++ (l.flatMap f ++ rest)) =
        .ok (front ++ (l.flatMap g ++ rest)) := by
    induction l with
    | nil => exact fun i front _ => rfl
    | cons x l ih =>
      intro i front hfront
      have hnext := ih (i + 1) (front ++ g x) (by rw [List.length_append, hfront, hg]; ring)
      rw [List.length_cons, List.range'_succ, List.foldlM_cons, List.flatMap_cons,
        List.append_assoc, hstep front x _ i hfront, ok_bind, ← List.append_assoc front, hnext,
        List.flatMap_cons, List.append_assoc, List.append_assoc]
  rw [List.range_eq_range']
  exact hfrom 0 front (by rw [hbase]; rfl)

/-- A loop that reads the elements of a list one after the other. -/
theorem mapM_range {f : Nat → Except Stop α} {l : List α}
    (h : ∀ i (hi : i < l.length), f i = .ok l[i]) : (List.range l.length).mapM f = .ok l := by
  have hfrom : ∀ i, (∀ j (hj : j < l.length), f (i + j) = .ok l[j]) →
      (List.range' i l.length).mapM f = .ok l := by
    clear h
    induction l with
    | nil => exact fun i _ => rfl
    | cons x l ih =>
      intro i h
      have hhead : f i = .ok x := h 0 (by simp)
      have htail := ih (i + 1) fun j hj => by
        rw [Nat.add_assoc, Nat.add_comm 1 j]
        exact h (j + 1) (by simpa using hj)
      rw [List.length_cons, List.range'_succ, List.mapM_cons, hhead, ok_bind, htail, ok_bind]
      rfl
  rw [List.range_eq_range']
  exact hfrom 0 fun j hj => by rw [Nat.zero_add]; exact h j hj

theorem foldlM_range_succ (step : α → Nat → Except Stop α) (a : α) (n : Nat) :
    (List.range (n + 1)).foldlM step a =
      ((List.range n).foldlM step a >>= fun a => step a n) := by
  rw [List.range_succ, List.foldlM_append]
  simp only [List.foldlM_cons, List.foldlM_nil, bind_pure]

/-- A loop over a buffer of which only a part is accessed is the same with more bytes behind it. -/
theorem foldlM_longer {P : List Byte → Prop} {rest : List Byte}
    {step : List Byte → Nat → Except Stop (List Byte)}
    (hstep : ∀ data i out, P data → step data i = .ok out →
      step (data ++ rest) i = .ok (out ++ rest) ∧ P out)
    {l : List Nat} {data out : List Byte} (hdata : P data) (h : l.foldlM step data = .ok out) :
    l.foldlM step (data ++ rest) = .ok (out ++ rest) ∧ P out := by
  induction l generalizing data with
  | nil =>
    cases h
    exact ⟨rfl, hdata⟩
  | cons i l ih =>
    rw [List.foldlM_cons, bind_eq_ok] at h
    obtain ⟨next, hnext, hrest⟩ := h
    obtain ⟨hlonger, hkept⟩ := hstep data i next hdata hnext
    rw [List.foldlM_cons, hlonger, ok_bind]
    exact ih hkept hrest

end Loops

/-! ### Loops that read their bound from the data -/

/-- An iteration of a loop whose bound is read from the data every time. -/
def whileBelow (bound : List Byte → Nat) (step : List Byte → Nat → Except Stop (List Byte))
    (data : List Byte) (i : Nat) : Except Stop (List Byte) :=
  if i < bound data then step data i else .ok data

/-- A step that rewrites the bytes of an element in place as `g` says, or is out of bounds where
these are. -/
structure RewritesInPlace (base k : Nat) (g : List Byte → List Byte)
    (step : List Byte → Nat → Except Stop (List Byte)) : Prop where
  inside : ∀ data i, base + k * (i + 1) ≤ data.length → ∃ out, step data i = .ok out ∧
    write data (base + k * i) (g ((data.drop (base + k * i)).take k)) = some out
  outside : ∀ data i, data.length < base + k * (i + 1) → step data i = .error .outOfBounds

/-- A step that is left out where it does not succeed. -/
def skipping (step : List Byte → Nat → Except Stop (List Byte)) (data : List Byte) (i : Nat) :
    List Byte :=
  match step data i with
  | .ok out => out
  | .error _ => data

section WhileBelow

variable {bound : List Byte → Nat} {step : List Byte → Nat → Except Stop (List Byte)}
  {g : List Byte → List Byte} {base k n : Nat} {data : List Byte}

/-- A loop whose bound stays the same. -/
theorem foldlM_whileBelow_const {P : List Byte → Prop} (hbound : ∀ data, P data → bound data = n)
    (hkeep : ∀ data i out, P data → step data i = .ok out → P out) (hdata : P data) (m : Nat) :
    (List.range m).foldlM (whileBelow bound step) data =
        (List.range (min m n)).foldlM step data ∧
      ∀ out, (List.range m).foldlM (whileBelow bound step) data = .ok out → P out := by
  induction m with
  | zero =>
    rw [Nat.zero_min]
    refine ⟨rfl, fun out hout => ?_⟩
    cases hout
    exact hdata
  | succ m ih =>
    obtain ⟨heq, hP⟩ := ih
    rw [foldlM_range_succ]
    by_cases hm : m < n
    · rw [Nat.min_eq_left hm.le] at heq
      rw [Nat.min_eq_left (Nat.succ_le_of_lt hm), foldlM_range_succ, ← heq]
      cases hprev : (List.range m).foldlM (whileBelow bound step) data with
      | error e => exact ⟨rfl, fun out hout => by cases hout⟩
      | ok out =>
        have hlast : whileBelow bound step out m = step out m :=
          if_pos (by rw [hbound out (hP out hprev)]; exact hm)
        rw [ok_bind, ok_bind, hlast]
        exact ⟨rfl, fun next hnext => hkeep out m next (hP out hprev) hnext⟩
    · rw [Nat.min_eq_right (Nat.le_of_not_lt hm)] at heq
      rw [Nat.min_eq_right (by omega), ← heq]
      cases hprev : (List.range m).foldlM (whileBelow bound step) data with
      | error e => exact ⟨rfl, fun out hout => by cases hout⟩
      | ok out =>
        have hlast : whileBelow bound step out m = .ok out :=
          if_neg (by rw [hbound out (hP out hprev)]; exact hm)
        rw [ok_bind, hlast]
        exact ⟨rfl, fun next hnext => by cases hnext; exact hP out hprev⟩

/-- Nothing happens in the iterations above the bound. -/
theorem foldlM_whileBelow_done {out : List Byte} {m : Nat}
    (h : (List.range m).foldlM (whileBelow bound step) data = .ok out) (hbound : bound out ≤ m)
    (hm : m ≤ n) : (List.range n).foldlM (whileBelow bound step) data = .ok out := by
  induction n, hm using Nat.le_induction with
  | base => exact h
  | succ n hn ih =>
    rw [foldlM_range_succ, ih, ok_bind]
    exact if_neg (by omega)

theorem skipping_of_ok {out : List Byte} {i : Nat} (h : step data i = .ok out) :
    skipping step data i = out := by
  rw [skipping, h]

theorem skipping_of_error {e : Stop} {i : Nat} (h : step data i = .error e) :
    skipping step data i = data := by
  rw [skipping, h]

/-- The loop without the iterations that do not succeed. -/
def skipped (bound : List Byte → Nat) (step : List Byte → Nat → Except Stop (List Byte))
    (data : List Byte) (m : Nat) : List Byte :=
  (List.range m).foldl (skipping (whileBelow bound step)) data

theorem skipped_succ (m : Nat) : skipped bound step data (m + 1) =
    skipping (whileBelow bound step) (skipped bound step data m) m := by
  rw [skipped, List.range_succ, List.foldl_append]
  rfl

/-- What `m` iterations leave. Either all of them were inside, or one of them was not, and then the
elements below the bound that is left are not inside. -/
theorem foldlM_whileBelow (h : RewritesInPlace base k g step) (hk : 0 < k) (m : Nat) :
    (skipped bound step data m).length = data.length ∧
    ((List.range m).foldlM (whileBelow bound step) data = .ok (skipped bound step data m) ∧
        (0 < min m (bound (skipped bound step data m)) →
          base + k * min m (bound (skipped bound step data m)) ≤ data.length) ∨
      (List.range m).foldlM (whileBelow bound step) data = .error .outOfBounds ∧
        data.length < base + k * m ∧ 0 < bound (skipped bound step data m) ∧
        data.length < base + k * bound (skipped bound step data m)) := by
  induction m with
  | zero => exact ⟨rfl, Or.inl ⟨rfl, by simp⟩⟩
  | succ m ih =>
    rw [foldlM_range_succ, skipped_succ]
    generalize skipped bound step data m = out at ih ⊢
    obtain ⟨hlen, ⟨hok, hmin⟩ | ⟨herror, hm, hpos, hout⟩⟩ := ih
    · rw [hok, ok_bind]
      by_cases hbound : m < bound out
      · have hstep : whileBelow bound step out m = step out m := if_pos hbound
        by_cases hroom : base + k * (m + 1) ≤ data.length
        · obtain ⟨next, hnext, hwrite⟩ := h.inside out m (by rw [hlen]; exact hroom)
          rw [skipping_of_ok (hstep.trans hnext), hstep]
          refine ⟨(length_write hwrite).trans hlen, Or.inl ⟨hnext, fun _ => ?_⟩⟩
          exact (Nat.add_le_add_left (Nat.mul_le_mul_left k (Nat.min_le_left _ _)) base).trans hroom
        · have hnext := h.outside out m (by rw [hlen]; omega)
          rw [skipping_of_error (hstep.trans hnext), hstep]
          refine ⟨hlen, Or.inr ⟨hnext, by omega, by omega, ?_⟩⟩
          have hle : k * (m + 1) ≤ k * bound out := Nat.mul_le_mul_left k hbound
          omega
      · have hstep : whileBelow bound step out m = .ok out := if_neg hbound
        rw [skipping_of_ok hstep, hstep]
        rw [Nat.min_eq_right (Nat.le_of_not_lt hbound)] at hmin
        refine ⟨hlen, Or.inl ⟨rfl, ?_⟩⟩
        rwa [Nat.min_eq_right (by omega)]
    · have hkept : skipping (whileBelow bound step) out m = out := by
        by_cases hbound : m < bound out
        · refine skipping_of_error ((if_pos hbound).trans (h.outside out m ?_))
          rw [Nat.mul_succ, hlen]
          omega
        · exact skipping_of_ok (if_neg hbound)
      rw [herror, error_bind, hkept]
      exact ⟨hlen, Or.inr ⟨rfl, by rw [Nat.mul_succ]; omega, hpos, hout⟩⟩

/-- With at least as many iterations as there are elements, the loop ends exactly if the elements
below the bound that it leaves are inside. -/
theorem foldlM_whileBelow_all (h : RewritesInPlace base k g step) (hk : 0 < k) {m : Nat} (hm : 0 < m)
    (hlen : data.length < base + k * m) :
    (List.range m).foldlM (whileBelow bound step) data =
      if 0 < bound (skipped bound step data m) →
          base + k * bound (skipped bound step data m) ≤ data.length
      then .ok (skipped bound step data m) else .error .outOfBounds := by
  obtain ⟨-, ⟨hok, hmin⟩ | ⟨herror, -, hpos, hout⟩⟩ :=
    @foldlM_whileBelow bound step g base k data h hk m
  · rw [hok, if_pos]
    intro hpos
    have hbound : bound (skipped bound step data m) < m := by
      by_contra hle
      rw [Nat.min_eq_left (Nat.le_of_not_lt hle)] at hmin
      exact absurd (hmin hm) (Nat.not_le_of_lt hlen)
    rw [Nat.min_eq_right hbound.le] at hmin
    exact hmin hpos
  · rw [herror, if_neg]
    exact fun hin => absurd (hin hpos) (Nat.not_le_of_lt hout)

/-- A loop over `n` elements ends exactly if these are inside. -/
theorem foldlM_inPlace (h : RewritesInPlace base k g step) (hk : 0 < k) (n : Nat) :
    (List.range n).foldlM step data =
      if 0 < n → base + k * n ≤ data.length then .ok (skipped (fun _ => n) step data n)
      else .error .outOfBounds := by
  have hconst := (@foldlM_whileBelow_const (fun _ => n) step n data (fun _ => True)
    (fun _ _ => rfl) (fun _ _ _ _ _ => trivial) trivial n).1
  rw [Nat.min_self] at hconst
  rw [← hconst]
  obtain ⟨-, ⟨hok, hmin⟩ | ⟨herror, -, hpos, hout⟩⟩ :=
    @foldlM_whileBelow (fun _ => n) step g base k data h hk n
  · rw [Nat.min_self] at hmin
    rw [hok, if_pos hmin]
  · rw [herror, if_neg fun hin => absurd (hin hpos) (Nat.not_le_of_lt hout)]

/-- An element that is read and written back in another form of the same length. -/
theorem rewritesInPlace (hg : ∀ bs, (g bs).length = k) :
    RewritesInPlace base k g fun data i => inBounds (read data (base + k * i) k) >>= fun bs =>
      inBounds (write data (base + k * i) (g bs)) := by
  constructor
  · intro data i hin
    rw [Nat.mul_succ] at hin
    have hread : read data (base + k * i) k = some ((data.drop (base + k * i)).take k) :=
      if_pos (by omega)
    obtain ⟨out, hwrite⟩ : ∃ out, write data (base + k * i)
        (g ((data.drop (base + k * i)).take k)) = some out := ⟨_, if_pos (by rw [hg]; omega)⟩
    refine ⟨out, ?_, hwrite⟩
    rw [hread, inBounds_some, ok_bind, hwrite, inBounds_some]
  · intro data i hout
    rw [Nat.mul_succ] at hout
    have hread : read data (base + k * i) k = none := if_neg (by omega)
    rw [hread]
    rfl

theorem length_skipped (h : RewritesInPlace base k g step) (hk : 0 < k) (m : Nat) :
    (skipped bound step data m).length = data.length :=
  (foldlM_whileBelow h hk m).1

end WhileBelow

end Bytes
