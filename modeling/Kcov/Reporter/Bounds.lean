import Kcov.Reporter.Counts

/-! When the calls of a reporter stay inside the vectors of its files. -/

namespace Kcov

open Bytes

/-- The number can be a position in a vector of lines. -/
def Fits (lineNr : U32) : Prop := lineNr.toNat + 1 < 2 ^ 32

namespace File

variable {f g : File} {n : U32} {line : Line}

theorem addLine_isSome (hsize : f.lines.length < 2 ^ 32) (hn : Fits n) (line : Line) :
    ∃ g, f.addLine n line = some g ∧ g.lines.length < 2 ^ 32 := by
  rw [Fits] at hn
  have hsucc : (n + 1).toNat = n.toNat + 1 := by
    rw [BitVec.toNat_add]
    exact Nat.mod_eq_of_lt (by simpa using hn)
  simp only [addLine, hsucc]
  generalize hlines : (if f.lines.length ≤ n.toNat
    then f.lines.take (n.toNat + 1) ++ List.replicate (n.toNat + 1 - f.lines.length) none
    else f.lines) = lines
  have hlen : n.toNat < lines.length ∧ lines.length < 2 ^ 32 := by
    rw [← hlines]
    split <;> simp <;> omega
  exact ⟨_, if_pos hlen.1, by simpa using hlen.2⟩

theorem fits_of_addLine (hsize : f.lines.length < 2 ^ 32) (h : f.addLine n line = some g) :
    Fits n := by
  rw [Fits]
  by_contra hn
  have hlt := n.isLt
  have hsucc : (n + 1).toNat = 0 := by
    rw [BitVec.toNat_add, show n.toNat = 2 ^ 32 - 1 by omega]
    rfl
  simp only [addLine, hsucc, if_pos (show f.lines.length ≤ n.toNat by omega)] at h
  simp at h

end File

namespace Reporter

/-- The number of lines for which the file has room. -/
def sizeOf? (s : Reporter) (f : Text) : Option Nat := (s.files f).map fun file => file.lines.length

/-- What counting hits leaves alone in a file: which lines are known, with their marks, and the
number of code lines. -/
structure Layout where
  marks : List (Option Bool)
  nrLines : U32

def layout? (s : Reporter) (f : Text) : Option Layout :=
  (s.files f).map fun file => ⟨file.lines.map (Option.map Line.unreachable), file.nrLines⟩

/-- The file can be opened. -/
def Opens (cfg : ReporterSetup) (f : Text) : Prop := (cfg.host.getLines f).length + 1 < 2 ^ 32

def Sized (cfg : ReporterSetup) (s : Reporter) : Prop :=
  ∀ f size, s.sizeOf? f = some size → size < 2 ^ 32 ∧ Opens cfg f

section Lines

variable {cfg : ReporterSetup} {s t : Reporter} {path : Text} {ref : LineRef}

theorem Sized.congr (hs : Sized cfg s) (h : t.sizeOf? = s.sizeOf?) : Sized cfg t := by
  intro f size ht
  exact hs f size (h ▸ ht)

theorem Sized.update (hs : Sized cfg s) {file : File} (hfile : file.lines.length < 2 ^ 32)
    (hopens : Opens cfg path) (ht : t.files = Function.update s.files path (some file)) :
    Sized cfg t := by
  intro f size hsize
  rw [sizeOf?, ht, Function.update_apply] at hsize
  split at hsize
  next hf =>
    rw [Option.map_some, Option.some.injEq] at hsize
    exact ⟨hsize ▸ hfile, hf ▸ hopens⟩
  next => exact hs f size hsize

theorem markUnreachable_isSome {texts : List Text} {nr : U32} {file : File}
    (handler : FileLineHandler) (hsize : file.lines.length < 2 ^ 32)
    (hnr : nr.toNat + texts.length < 2 ^ 32) :
    ∃ out, markUnreachable path texts nr file handler = some out ∧
      out.1.lines.length < 2 ^ 32 := by
  induction texts generalizing nr file handler with
  | nil => exact ⟨_, rfl, hsize⟩
  | cons text texts ih =>
    rw [List.length_cons] at hnr
    have hsucc : (nr + 1).toNat = nr.toNat + 1 := toNat_succ (by omega)
    rw [markUnreachable]
    dsimp only
    split
    · obtain ⟨file₁, hadd, hsize₁⟩ := File.addLine_isSome hsize
        (show Fits nr by rw [Fits]; omega) (Line.new file.fileHash nr true)
      simp only [hadd]
      exact ih _ hsize₁ (by omega)
    · exact ih _ hsize (by omega)

theorem openFile_isSome (hs : Sized cfg s) (hopens : Opens cfg path) :
    ∃ t, s.openFile cfg path = some t ∧ Sized cfg t := by
  rw [Opens] at hopens
  rw [openFile]
  cases hfile : s.files path with
  | some file => exact ⟨s, rfl, hs⟩
  | none =>
    obtain ⟨⟨file, handler⟩, hmark, hsize⟩ := markUnreachable_isSome s.lineHandler
      (show (File.new (cfg.fileHash path)).lines.length < 2 ^ 32 by simp [File.new])
      (show (1 : U32).toNat + (cfg.host.getLines path).length < 2 ^ 32 by simp; omega)
    simp only [if_neg (show ¬2 ^ 32 - 1 ≤ (cfg.host.getLines path).length by omega)]
    rw [hmark]
    exact ⟨_, rfl, hs.update hsize hopens rfl⟩

theorem openLine_isSome (hs : Sized cfg s) (hfits : Fits ref.lineNr) :
    ∃ t, s.openLine ref = some t ∧ Sized cfg t := by
  rw [openLine]
  cases hfile : s.files ref.file with
  | none => exact ⟨s, rfl, hs⟩
  | some file =>
    dsimp only
    cases file.getLine ref.lineNr with
    | some line => exact ⟨s, rfl, hs⟩
    | none =>
      obtain ⟨hsize, hopens⟩ := hs ref.file file.lines.length (by rw [sizeOf?, hfile]; rfl)
      obtain ⟨file', hadd, hsize'⟩ := File.addLine_isSome hsize hfits
        (Line.new file.fileHash ref.lineNr false)
      simp only [hadd]
      exact ⟨_, rfl, hs.update hsize' hopens rfl⟩

/-- Nothing but the counts of lines and the links to them has changed. -/
structure SameLayout (s t : Reporter) : Prop where
  layout : t.layout? = s.layout?
  fileNames : t.fileNames = s.fileNames

theorem SameLayout.refl (s : Reporter) : SameLayout s s := ⟨rfl, rfl⟩

theorem SameLayout.trans {u : Reporter} (h₁ : SameLayout s t) (h₂ : SameLayout t u) :
    SameLayout s u := ⟨h₂.layout.trans h₁.layout, h₂.fileNames.trans h₁.fileNames⟩

theorem SameLayout.sizeOf? (h : SameLayout s t) : t.sizeOf? = s.sizeOf? := by
  funext q
  have hsize : ∀ u : Reporter, u.sizeOf? q = (u.layout? q).map fun l => l.marks.length := by
    intro u
    rw [Reporter.sizeOf?, layout?, Option.map_map]
    exact Option.map_congr fun file _ => (List.length_map _).symm
  rw [hsize, hsize, h.layout]

theorem isSome_of_sameLayout (h : SameLayout s t) (r : LineRef) :
    (t.files r.file).isSome = (s.files r.file).isSome ∧
      (t.line? r).isSome = (s.line? r).isSome := by
  have hfile : ∀ u : Reporter, (u.files r.file).isSome = (u.layout? r.file).isSome := by
    intro u
    rw [layout?, Option.isSome_map]
  have hline : ∀ u : Reporter, (u.line? r).isSome =
      ((u.layout? r.file).bind fun l => l.marks[r.lineNr.toNat]?.join).isSome := by
    intro u
    rw [line?, layout?]
    cases u.files r.file with
    | none => rfl
    | some file =>
      simp only [Option.bind_some, Option.map_some, File.getLine, List.getElem?_map]
      cases file.lines[r.lineNr.toNat]? with
      | none => rfl
      | some o => cases o <;> rfl
  rw [hfile, hfile, hline, hline, h.layout]
  exact ⟨rfl, rfl⟩

theorem sameLayout_modifyLine (s : Reporter) (ref : LineRef) {g : Line → Line}
    (hg : ∀ line, (g line).unreachable = line.unreachable) :
    SameLayout s (s.modifyLine ref g) := by
  refine ⟨?_, modifyLine_names.1⟩
  funext q
  rw [layout?, layout?, modifyLine]
  cases hfile : s.files ref.file with
  | none => rfl
  | some file =>
    simp only [Function.update_apply]
    split
    next hq =>
      have hmarks : (file.lines.modify ref.lineNr.toNat (Option.map g)).map
          (Option.map Line.unreachable) = file.lines.map (Option.map Line.unreachable) := by
        apply List.ext_getElem?
        intro i
        rw [List.getElem?_map, List.getElem?_map, List.getElem?_modify]
        split
        next =>
          rw [Option.map_eq_map, Option.map_map]
          apply Option.map_congr
          intro o _
          cases o with
          | none => rfl
          | some line => exact congrArg some (hg line)
        next => simp
      rw [hq, hfile, Option.map_some, Option.map_some, File.modifyLine, hmarks]
    next => rfl

theorem sameLayout_hitLine (addr hits : U64) (s : Reporter) (ref : LineRef) :
    SameLayout s (hitLine cfg addr hits s ref) := by
  rw [hitLine]
  split
  · exact SameLayout.refl s
  next line hline =>
    have hsame := sameLayout_modifyLine s ref (g := fun l =>
      if line.order = 0 then { l.registerHit addr hits cfg.singleShot with order := s.order }
      else l.registerHit addr hits cfg.singleShot) fun l => by dsimp only; split <;> rfl
    exact ⟨hsame.layout, hsame.fileNames⟩

theorem sameLayout_onAddressHit (s : Reporter) (addr hits : U64) :
    SameLayout s (s.onAddressHit cfg addr hits) := by
  rw [onAddressHit]
  generalize s.addrToLine addr = refs
  induction refs generalizing s with
  | nil => exact SameLayout.refl s
  | cons ref refs ih => exact (sameLayout_hitLine addr hits s ref).trans (ih _)

theorem sameLayout_loadEntry (s : Reporter) (e : Entry) : SameLayout s (loadEntry cfg s e) := by
  rw [loadEntry]
  split
  · exact SameLayout.refl s
  split
  · split
    · exact ⟨rfl, rfl⟩
    next ref _ =>
      have hsame := sameLayout_modifyLine (s.notify (.onAddress e.lineId e.hits)) ref
        (g := fun line => line.registerHitIndex e.index e.hits)
        fun _ => Line.unreachable_registerHitIndex
      exact ⟨hsame.layout, hsame.fileNames⟩
  · exact sameLayout_onAddressHit s e.addr e.hits

theorem sameLayout_foldl_loadEntry (es : List Entry) (s : Reporter) :
    SameLayout s (es.foldl (loadEntry cfg) s) := by
  induction es generalizing s with
  | nil => exact SameLayout.refl s
  | cons e es ih => exact (sameLayout_loadEntry s e).trans (ih _)

theorem sameLayout_onFile (h : s.onFile cfg = some t) : SameLayout s t := by
  rw [onFile] at h
  split at h
  · cases h
    exact SameLayout.refl s
  split at h
  · split at h
    · cases h
      exact ⟨rfl, rfl⟩
    · simp only [Option.bind_eq_bind, Option.bind_eq_some_iff, Option.pure_def, Option.some.injEq,
        Prod.exists] at h
      obtain ⟨u, ok, hu, rfl⟩ := h
      rw [(unMarshal_eq_some hu).2]
      split
      · obtain ⟨hlayout, hnames⟩ := @sameLayout_foldl_loadEntry cfg (databaseEntries _) s
        exact ⟨hlayout, hnames⟩
      · exact ⟨rfl, rfl⟩
  · cases h
    exact ⟨rfl, rfl⟩

theorem sameLayout_registerAddress (s : Reporter) (ref : LineRef) (id addr : U64) :
    SameLayout s (s.registerAddress ref id addr) := by
  obtain ⟨hlayout, hnames⟩ := sameLayout_modifyLine s ref
    (g := fun line => replay (s.pendingFiles id) (line.addAddress addr)) fun _ =>
      (replay_frame _ _).2.1.trans Line.unreachable_addAddress
  exact ⟨hlayout, hnames⟩

theorem sizeOf?_onAddressHit (s : Reporter) (addr hits : U64) :
    (s.onAddressHit cfg addr hits).sizeOf? = s.sizeOf? :=
  (sameLayout_onAddressHit s addr hits).sizeOf?

end Lines

/-! ### Runs -/

/-- The call stays inside the vectors. -/
def Admits (cfg : ReporterSetup) : Event → Prop
  | .line f n _ => cfg.runFilters f = true → Fits n ∧ Opens cfg f
  | _ => True

section Runs

variable {cfg : ReporterSetup} {s t : Reporter} {f : Text} {n : U32} {addr : U64}

theorem onLine_isSome (hs : Sized cfg s) (h : Admits cfg (.line f n addr)) :
    ∃ t, s.onLine cfg f n addr = some t ∧ Sized cfg t := by
  cases hf : cfg.runFilters f with
  | false => exact ⟨s, onLine_filtered hf, hs⟩
  | true =>
    obtain ⟨hfits, hopens⟩ := h hf
    obtain ⟨s₁, hopen, hs₁⟩ := openFile_isSome hs hopens
    obtain ⟨s₂, hopen₂, hs₂⟩ := @openLine_isSome cfg s₁ ⟨f, n⟩ hs₁ hfits
    simp only [onLine, hf, Bool.not_true, Bool.false_eq_true, if_false, hopen, hopen₂,
      Option.bind_eq_bind, Option.bind_some]
    cases s₂.line? ⟨f, n⟩ with
    | none => exact ⟨s₂, rfl, hs₂⟩
    | some line => exact ⟨_, rfl, hs₂.congr (sameLayout_registerAddress s₂ ⟨f, n⟩ _ addr).sizeOf?⟩

theorem opens_of_openFile (hs : Sized cfg s) (h : s.openFile cfg f = some t) : Opens cfg f := by
  rw [openFile] at h
  cases hfile : s.files f with
  | some file => exact (hs f file.lines.length (by rw [sizeOf?, hfile]; rfl)).2
  | none =>
    simp only [hfile] at h
    split at h
    next => simp at h
    next hlen =>
      rw [Opens]
      omega

theorem fits_of_openLine (hs : Sized cfg s) {file : File} (hfile : s.files f = some file)
    (h : s.openLine ⟨f, n⟩ = some t) : Fits n := by
  have hsize := (hs f file.lines.length (by rw [sizeOf?, hfile]; rfl)).1
  simp only [openLine, hfile] at h
  cases hget : file.getLine n with
  | some line =>
    have hlt : n.toNat < file.lines.length := by
      by_contra hge
      rw [File.getLine, List.getElem?_eq_none (by omega)] at hget
      simp at hget
    rw [Fits]
    omega
  | none =>
    simp only [hget, Option.bind_eq_bind, Option.bind_eq_some_iff] at h
    obtain ⟨file', hadd, -⟩ := h
    exact File.fits_of_addLine hsize hadd

theorem admits_of_onLine (hwf : s.WellFormed cfg) (hs : Sized cfg s)
    (h : s.onLine cfg f n addr = some t) : Admits cfg (.line f n addr) := by
  intro hf
  simp only [onLine, hf, Bool.not_true, Bool.false_eq_true, if_false, Option.bind_eq_bind,
    Option.bind_eq_some_iff] at h
  obtain ⟨s₁, hopen, s₂, hopen₂, -⟩ := h
  have hopens := opens_of_openFile hs hopen
  obtain ⟨s₁', hopen', hs₁⟩ := openFile_isSome hs hopens
  obtain rfl : s₁' = s₁ := Option.some.inj (hopen'.symm.trans hopen)
  obtain ⟨file, hfile⟩ := Option.isSome_iff_exists.mp
    (((openFile_eq_some hwf hopen).2.2.1 f).mpr (Or.inl rfl))
  exact ⟨fits_of_openLine hs₁ hfile hopen₂, hopens⟩

theorem sized_onFile (hs : Sized cfg s) (h : s.onFile cfg = some t) : Sized cfg t :=
  hs.congr (sameLayout_onFile h).sizeOf?

/-- A step that stays inside the vectors keeps them small. -/
theorem step_sized (hwf : s.WellFormed cfg) (hs : Sized cfg s) {ev : Event}
    (h : s.step cfg ev = some t) : Sized cfg t ∧ Admits cfg ev := by
  cases ev with
  | file => exact ⟨sized_onFile hs h, trivial⟩
  | line f n a =>
    have hadmits := admits_of_onLine hwf hs h
    obtain ⟨t', ht', hs'⟩ := onLine_isSome hs hadmits
    obtain rfl : t' = t := Option.some.inj (ht'.symm.trans h)
    exact ⟨hs', hadmits⟩
  | hit a hits =>
    rw [step, Option.some.injEq] at h
    exact ⟨h ▸ hs.congr (sizeOf?_onAddressHit s a hits), trivial⟩

theorem run_sized {evs : List Event} (h : run cfg evs = some s) :
    Sized cfg s ∧ ∀ ev ∈ evs, Admits cfg ev := by
  induction evs using List.reverseRecOn generalizing s with
  | nil =>
    cases h
    exact ⟨fun f size hsize => by simp [sizeOf?, create] at hsize, by simp⟩
  | append_singleton evs ev ih =>
    obtain ⟨s₀, hs₀, hstep⟩ := run_snoc_eq_some h
    obtain ⟨hsized, hevs⟩ := ih hs₀
    obtain ⟨hsized', hev⟩ := step_sized (run_frame hs₀).1 hsized hstep
    refine ⟨hsized', fun ev' hmem => ?_⟩
    rcases List.mem_append.mp hmem with hmem | hmem
    · exact hevs ev' hmem
    · rw [List.mem_singleton.mp hmem]
      exact hev

end Runs

end Reporter

end Kcov
