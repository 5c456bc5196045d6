import Kcov.Reporter.Database
import Mathlib.Data.List.Infix

/-! What the operations of a reporter do to each of its lines. -/

namespace Kcov

open Bytes

/-! ### Lines of a file -/

namespace File

variable {f g : File} {n m : U32} {line : Line}

theorem addLine_eq_some (h : f.addLine n line = some g) :
    g.fileHash = f.fileHash ∧ ∀ m, g.getLine m = if m = n then some line else f.getLine m := by
  simp only [addLine] at h
  generalize hlines : (if f.lines.length ≤ n.toNat
    then f.lines.take (n + 1).toNat ++ List.replicate ((n + 1).toNat - f.lines.length) none
    else f.lines) = lines at h
  split at h
  next hlt =>
    cases h
    refine ⟨rfl, fun m => ?_⟩
    have hget : ∀ i : Nat, lines[i]?.join = f.lines[i]?.join := by
      intro i
      rw [← hlines]
      split
      next hle =>
        rw [← hlines, if_pos hle] at hlt
        simp only [List.length_append, List.length_take, List.length_replicate] at hlt
        rw [List.take_of_length_le (by omega), List.getElem?_append]
        split
        next => rfl
        next hi =>
          rw [List.getElem?_eq_none (by omega : f.lines.length ≤ i), List.getElem?_replicate]
          split <;> rfl
      next => rfl
    rw [getLine, getLine, List.getElem?_set]
    by_cases hm : m = n
    · simp [hm, hlt]
    · rw [if_neg (fun heq => hm (BitVec.eq_of_toNat_eq heq.symm)), if_neg hm, hget]
  next => simp at h

theorem getLine_modifyLine (u : Line → Line) :
    (f.modifyLine n u).getLine m = if m = n then (f.getLine n).map u else f.getLine m := by
  rw [getLine, modifyLine, List.getElem?_modify]
  by_cases hm : m = n
  · subst hm
    simp only [if_true, getLine]
    cases f.lines[m.toNat]? with
    | none => rfl
    | some o => cases o <;> rfl
  · have hne : n.toNat ≠ m.toNat := fun heq => hm (BitVec.eq_of_toNat_eq heq.symm)
    simp only [hne, hm, if_false, getLine]
    simp

@[simp] theorem getLine_new (hash : U64) : (File.new hash).getLine m = none := rfl

end File

/-! ### Excluded lines -/

/-- What the line filter says about the lines of a file, one after the other. -/
def FileLineHandler.verdicts (path : Text) : List Text → FileLineHandler → List Bool
  | [], _ => []
  | text :: texts, handler =>
    (handler.matchLine path text).1 :: verdicts path texts (handler.matchLine path text).2

namespace FileLineHandler

/-- The patterns of two handlers are the same. -/
structure SamePatterns (h k : FileLineHandler) : Prop where
  single : h.ignoreSingleLinePatterns = k.ignoreSingleLinePatterns
  first : h.lineBeginPatterns = k.lineBeginPatterns
  last : h.lineEndPatterns = k.lineEndPatterns

/-- The nesting of excluded regions with which a line of `path` is matched. -/
def nesting (h : FileLineHandler) (path : Text) : Int :=
  if h.curFile ≠ path then 0 else h.excludeStart

theorem matchLine_congr {h k : FileLineHandler} {path : Text} (hp : SamePatterns h k)
    (hn : h.nesting path = k.nesting path) (text : Text) :
    (h.matchLine path text).1 = (k.matchLine path text).1 ∧
      SamePatterns (h.matchLine path text).2 (k.matchLine path text).2 ∧
      (h.matchLine path text).2.nesting path = (k.matchLine path text).2.nesting path := by
  unfold nesting at hn
  refine ⟨?_, ⟨hp.single, hp.first, hp.last⟩, ?_⟩
  · simp only [matchLine, hp.single, hp.first, hn]
  · simp only [matchLine, nesting, hp.first, hp.last, hn]
    simp

theorem excludeStart_create (excludeLine excludeRegion : Text) :
    (create excludeLine excludeRegion).excludeStart = 0 := by
  have hfold : ∀ (regions : List Text) (h : FileLineHandler),
      (regions.foldl addRegion h).excludeStart = h.excludeStart := by
    intro regions
    induction regions with
    | nil => exact fun _ => rfl
    | cons region regions ih => exact fun h => ih _
  exact hfold _ _

theorem nesting_create (excludeLine excludeRegion path : Text) :
    (create excludeLine excludeRegion).nesting path = 0 := by
  rw [nesting, excludeStart_create, ite_self]

/-- What the filter says about a file depends on the patterns and the nesting that it starts
with. -/
theorem verdicts_congr {path : Text} (texts : List Text) {h k : FileLineHandler}
    (hp : SamePatterns h k) (hn : h.nesting path = k.nesting path) :
    verdicts path texts h = verdicts path texts k := by
  induction texts generalizing h k with
  | nil => rfl
  | cons text texts ih =>
    obtain ⟨hout, hp', hn'⟩ := matchLine_congr hp hn text
    rw [verdicts, verdicts, hout, ih hp' hn']

end FileLineHandler

namespace ReporterSetup

/-- The line filter refuses the line. -/
def excluded (cfg : ReporterSetup) (ref : LineRef) : Bool :=
  ref.lineNr ≠ 0 && (cfg.lineHandler.verdicts ref.file (cfg.host.getLines ref.file))[
    ref.lineNr.toNat - 1]? == some false

/-- The number of the line at `ref`. -/
def lineId (cfg : ReporterSetup) (ref : LineRef) : U64 :=
  Line.makeId (cfg.fileHash ref.file) ref.lineNr

/-- What is known of a line when its file has just been opened. -/
def freshLine (cfg : ReporterSetup) (ref : LineRef) : Option Line :=
  if cfg.excluded ref then some (Line.new (cfg.fileHash ref.file) ref.lineNr true) else none

end ReporterSetup

namespace Reporter

theorem toNat_succ {nr : U32} (h : nr.toNat + 1 < 2 ^ 32) : (nr + 1).toNat = nr.toNat + 1 :=
  BitVec.toNat_add_of_lt h

/-- The loop marks the lines for which the filter says no, and leaves the others. -/
theorem markUnreachable_eq_some {path : Text} {texts : List Text} {nr : U32} {file file' : File}
    {handler handler' : FileLineHandler} (hnr : nr.toNat + texts.length < 2 ^ 32)
    (h : markUnreachable path texts nr file handler = some (file', handler')) :
    file'.fileHash = file.fileHash ∧ ∀ m, file'.getLine m =
      if nr ≤ m ∧ (handler.verdicts path texts)[m.toNat - nr.toNat]? = some false
      then some (Line.new file.fileHash m true) else file.getLine m := by
  induction texts generalizing nr file handler with
  | nil =>
    cases h
    refine ⟨rfl, fun m => ?_⟩
    simp [FileLineHandler.verdicts]
  | cons text texts ih =>
    rw [List.length_cons] at hnr
    have hsucc : (nr + 1).toNat = nr.toNat + 1 := toNat_succ (by omega)
    have hcond : ∀ (m : U32) (b : Bool) (vs : List Bool),
        (nr ≤ m ∧ (b :: vs)[m.toNat - nr.toNat]? = some false) ↔
          (m = nr ∧ b = false) ∨ (nr + 1 ≤ m ∧ vs[m.toNat - (nr + 1).toNat]? = some false) := by
      intro m b vs
      simp only [BitVec.le_def, hsucc, ← BitVec.toNat_inj]
      rcases Nat.lt_trichotomy m.toNat nr.toNat with hlt | heq | hgt
      · simp [Nat.not_le.mpr hlt, hlt.ne, show ¬ nr.toNat + 1 ≤ m.toNat by omega]
      · simp [heq]
      · rw [show m.toNat - nr.toNat = m.toNat - (nr.toNat + 1) + 1 by omega,
          List.getElem?_cons_succ]
        simp [hgt.le, hgt.ne', show nr.toNat + 1 ≤ m.toNat by omega]
    rw [markUnreachable] at h
    dsimp only at h
    cases hout : (handler.matchLine path text).1 with
    | true =>
      simp only [hout, Bool.not_true, Bool.false_eq_true, if_false] at h
      obtain ⟨hhash, hget⟩ := ih (by omega) h
      refine ⟨hhash, fun m => ?_⟩
      rw [hget, FileLineHandler.verdicts, hout]
      simp only [hcond, Bool.true_eq_false, and_false, false_or]
    | false =>
      simp only [hout, Bool.not_false, if_true] at h
      cases hadd : file.addLine nr (Line.new file.fileHash nr true) with
      | none => simp [hadd] at h
      | some file₁ =>
        simp only [hadd] at h
        obtain ⟨hhash₁, hget₁⟩ := File.addLine_eq_some hadd
        obtain ⟨hhash, hget⟩ := ih (by omega) h
        refine ⟨hhash.trans hhash₁, fun m => ?_⟩
        rw [hget, hget₁, hhash₁, FileLineHandler.verdicts, hout]
        simp only [hcond, and_true]
        by_cases hm : m = nr
        · subst hm
          simp
        · simp [hm]

/-- After its loop the filter has the same patterns, and its nesting is about the file alone. -/
theorem markUnreachable_handler {path : Text} {texts : List Text} {nr : U32} {file file' : File}
    {handler handler' : FileLineHandler}
    (h : markUnreachable path texts nr file handler = some (file', handler')) :
    handler'.SamePatterns handler ∧
      ∀ q, q ≠ path → handler.nesting q = 0 → handler'.nesting q = 0 := by
  induction texts generalizing nr file handler with
  | nil =>
    cases h
    exact ⟨⟨rfl, rfl, rfl⟩, fun _ _ h => h⟩
  | cons text texts ih =>
    obtain ⟨nr₁, file₁, h₁⟩ : ∃ nr₁ file₁, markUnreachable path texts nr₁ file₁
        (handler.matchLine path text).2 = some (file', handler') := by
      rw [markUnreachable] at h
      dsimp only at h
      split at h
      · split at h
        · simp at h
        · exact ⟨_, _, h⟩
      · exact ⟨_, _, h⟩
    obtain ⟨⟨hs, hf, hl⟩, hnest⟩ := ih h₁
    refine ⟨⟨hs, hf, hl⟩, fun q hq _ => hnest q hq ?_⟩
    exact if_pos (Ne.symm hq)

/-! ### Well-formed reporters -/

/-- The maps of a reporter agree with each other and with what the lines are. -/
structure WellFormed (cfg : ReporterSetup) (s : Reporter) : Prop where
  names_nodup : s.fileNames.Nodup
  mem_names : ∀ f, f ∈ s.fileNames ↔ (s.files f).isSome
  fileHash : ∀ f file, s.files f = some file → file.fileHash = cfg.fileHash f
  patterns : s.lineHandler.SamePatterns cfg.lineHandler
  nesting : ∀ f, s.files f = none → s.lineHandler.nesting f = 0
  lineId : ∀ ref line, s.line? ref = some line → line.lineId = cfg.lineId ref
  unreachable : ∀ ref line, s.line? ref = some line → line.unreachable = cfg.excluded ref
  marked : ∀ ref, (s.files ref.file).isSome → cfg.excluded ref → (s.line? ref).isSome
  addresses : ∀ ref line, s.line? ref = some line → line.addresses.Nodup
  addrToLine : ∀ a, ∀ r ∈ s.addrToLine a, ∃ line, s.line? r = some line ∧ a ∈ line.addresses
  addrToLine_nodup : ∀ a, ((s.addrToLine a).map cfg.lineId).Nodup
  lineIdToFile : ∀ id r, s.lineIdToFile id = some r →
    cfg.lineId r = id ∧ ∃ line, s.line? r = some line ∧ line.addrs ≠ []
  registered : ∀ ref line, s.line? ref = some line → line.addrs ≠ [] →
    (s.lineIdToFile (cfg.lineId ref)).isSome

theorem wellFormed_create (cfg : ReporterSetup) : (create cfg).WellFormed cfg := by
  have hline : ∀ ref, (create cfg).line? ref = none := fun _ => rfl
  refine ⟨by simp [create], by simp [create], by simp [create], ⟨rfl, rfl, rfl⟩,
    fun f _ => FileLineHandler.nesting_create _ _ f, ?_, ?_, by simp [create], ?_, by simp [create],
    by simp [create], by simp [create], ?_⟩ <;>
  · intro ref line h
    simp [hline] at h

/-- Only some of the fields matter. -/
theorem WellFormed.congr {cfg : ReporterSetup} {s t : Reporter} (hwf : s.WellFormed cfg)
    (hfiles : t.files = s.files) (hnames : t.fileNames = s.fileNames)
    (haddr : t.addrToLine = s.addrToLine) (hid : t.lineIdToFile = s.lineIdToFile)
    (hhandler : t.lineHandler = s.lineHandler) : t.WellFormed cfg := by
  obtain ⟨files, names, addr, pending, id, done, order, handler, notified⟩ := t
  dsimp only at hfiles hnames haddr hid hhandler
  subst hfiles hnames haddr hid hhandler
  exact ⟨hwf.names_nodup, hwf.mem_names, hwf.fileHash, hwf.patterns, hwf.nesting, hwf.lineId,
    hwf.unreachable, hwf.marked, hwf.addresses, hwf.addrToLine, hwf.addrToLine_nodup,
    hwf.lineIdToFile, hwf.registered⟩

/-- What opening files and lines leaves alone. -/
structure SameLinks (s t : Reporter) : Prop where
  addrToLine : t.addrToLine = s.addrToLine
  pendingFiles : t.pendingFiles = s.pendingFiles
  lineIdToFile : t.lineIdToFile = s.lineIdToFile
  unmarshallingDone : t.unmarshallingDone = s.unmarshallingDone
  order : t.order = s.order
  notified : t.notified = s.notified

section Open

variable {cfg : ReporterSetup} {s t : Reporter}

/-- New lines without addresses keep a reporter well formed. -/
theorem WellFormed.of_sameLinks (hwf : s.WellFormed cfg) (hlinks : SameLinks s t)
    (hnodup : t.fileNames.Nodup) (hnames : ∀ f, f ∈ t.fileNames ↔ (t.files f).isSome)
    (hhash : ∀ f file, t.files f = some file → file.fileHash = cfg.fileHash f)
    (hpatterns : t.lineHandler.SamePatterns cfg.lineHandler)
    (hnesting : ∀ f, t.files f = none → t.lineHandler.nesting f = 0)
    (hmarked : ∀ ref, (t.files ref.file).isSome → cfg.excluded ref → (t.line? ref).isSome)
    (hline : ∀ ref, t.line? ref = s.line? ref ∨ (s.line? ref = none ∧
      t.line? ref = some (Line.new (cfg.fileHash ref.file) ref.lineNr (cfg.excluded ref)))) :
    t.WellFormed cfg := by
  have hold : ∀ ref line, s.line? ref = some line → t.line? ref = some line := by
    intro ref line hs
    rcases hline ref with heq | ⟨hnone, -⟩
    · rw [heq, hs]
    · rw [hs] at hnone
      simp at hnone
  have hnew : ∀ ref line, t.line? ref = some line → s.line? ref = some line ∨
      line = Line.new (cfg.fileHash ref.file) ref.lineNr (cfg.excluded ref) := by
    intro ref line ht
    rcases hline ref with heq | ⟨-, heq⟩
    · exact Or.inl (by rw [← heq, ht])
    · rw [ht, Option.some.injEq] at heq
      exact Or.inr heq
  refine ⟨hnodup, hnames, hhash, hpatterns, hnesting, fun ref line h => ?_, fun ref line h => ?_,
    hmarked, fun ref line h => ?_, fun a r hr => ?_, fun a => ?_, fun id r hr => ?_,
    fun ref line h haddrs => ?_⟩
  · rcases hnew ref line h with h | rfl
    · exact hwf.lineId ref line h
    · rfl
  · rcases hnew ref line h with h | rfl
    · exact hwf.unreachable ref line h
    · rfl
  · rcases hnew ref line h with h | rfl
    · exact hwf.addresses ref line h
    · exact List.nodup_nil
  · rw [hlinks.addrToLine] at hr
    obtain ⟨line, hs, ha⟩ := hwf.addrToLine a r hr
    exact ⟨line, hold r line hs, ha⟩
  · rw [hlinks.addrToLine]
    exact hwf.addrToLine_nodup a
  · rw [hlinks.lineIdToFile] at hr
    obtain ⟨hid, line, hs, haddrs⟩ := hwf.lineIdToFile id r hr
    exact ⟨hid, line, hold r line hs, haddrs⟩
  · rw [hlinks.lineIdToFile]
    rcases hnew ref line h with h | rfl
    · exact hwf.registered ref line h haddrs
    · exact absurd rfl haddrs

theorem excluded_iff (cfg : ReporterSetup) (f : Text) (n : U32) :
    cfg.excluded ⟨f, n⟩ = true ↔ 1 ≤ n ∧
      (cfg.lineHandler.verdicts f (cfg.host.getLines f))[n.toNat - (1 : U32).toNat]? =
        some false := by
  have hzero : n ≠ 0 ↔ 1 ≤ n := by
    rw [BitVec.le_def, ne_eq, ← BitVec.toNat_inj]
    simp
    omega
  rw [← hzero]
  simp [ReporterSetup.excluded]

/-! A reporter in which one file is new or replaced. -/

section Update

variable {path : Text} {file : File}

theorem line?_of_update (h : t.files = Function.update s.files path (some file)) (ref : LineRef) :
    t.line? ref = if ref.file = path then file.getLine ref.lineNr else s.line? ref := by
  rw [line?, h, Function.update_apply]
  split
  next => rfl
  next => rfl

theorem isSome_of_update (h : t.files = Function.update s.files path (some file)) (q : Text) :
    (t.files q).isSome ↔ q = path ∨ (s.files q).isSome := by
  rw [h, Function.update_apply]
  split <;> simp_all

theorem fileHash_of_update (hwf : s.WellFormed cfg)
    (h : t.files = Function.update s.files path (some file))
    (hhash : file.fileHash = cfg.fileHash path) (q : Text) (g : File) (hg : t.files q = some g) :
    g.fileHash = cfg.fileHash q := by
  rw [h, Function.update_apply] at hg
  split at hg
  next hq => rw [← Option.some.inj hg, hhash, hq]
  next => exact hwf.fileHash q g hg

/-- One line of a known file has changed. -/
theorem line?_of_update_line {ref : LineRef} {file₀ : File} {o : Option Line}
    (hfile : s.files ref.file = some file₀)
    (h : t.files = Function.update s.files ref.file (some file))
    (hget : ∀ m, file.getLine m = if m = ref.lineNr then o else file₀.getLine m) (r : LineRef) :
    t.line? r = if r = ref then o else s.line? r := by
  obtain ⟨f, n⟩ := ref
  obtain ⟨f', n'⟩ := r
  rw [line?_of_update h, hget]
  simp only [LineRef.mk.injEq]
  by_cases hf : f' = f
  · subst hf
    simp [line?, hfile]
  · simp [hf]

end Update

/-- What opening a file that is not known yet does. -/
theorem openFile_new {path : Text} (hnew : s.files path = none)
    (h : s.openFile cfg path = some t) :
    ∃ file handler, (cfg.host.getLines path).length < 2 ^ 32 - 1 ∧
      markUnreachable path (cfg.host.getLines path) 1 (File.new (cfg.fileHash path))
        s.lineHandler = some (file, handler) ∧
      t = { s with
        files := Function.update s.files path (some file)
        fileNames := s.fileNames ++ [path]
        lineHandler := handler } := by
  simp only [openFile, hnew] at h
  split at h
  next => simp at h
  next hlen =>
    simp only [Option.bind_eq_bind, Option.bind_eq_some_iff, Option.pure_def, Option.some.injEq,
      Prod.exists] at h
    obtain ⟨file, handler, hmark, rfl⟩ := h
    exact ⟨file, handler, by omega, hmark, rfl⟩

/-- The lines of a file that has just been opened. -/
theorem getLine_markUnreachable (hwf : s.WellFormed cfg) {path : Text}
    (hnew : s.files path = none) (hlen : (cfg.host.getLines path).length < 2 ^ 32 - 1)
    {file : File} {handler : FileLineHandler}
    (hmark : markUnreachable path (cfg.host.getLines path) 1 (File.new (cfg.fileHash path))
      s.lineHandler = some (file, handler)) (n : U32) :
    file.getLine n = cfg.freshLine ⟨path, n⟩ := by
  have hverdicts := FileLineHandler.verdicts_congr (cfg.host.getLines path) hwf.patterns
    ((hwf.nesting path hnew).trans (FileLineHandler.nesting_create _ _ path).symm)
  obtain ⟨-, hget⟩ := markUnreachable_eq_some (by simp; omega) hmark
  rw [hget, hverdicts, File.getLine_new, ReporterSetup.freshLine]
  simp only [excluded_iff]
  rfl

/-- Opening a file marks its excluded lines. -/
theorem openFile_eq_some (hwf : s.WellFormed cfg) {path : Text}
    (h : s.openFile cfg path = some t) :
    t.WellFormed cfg ∧ SameLinks s t ∧
      (∀ q, (t.files q).isSome ↔ q = path ∨ (s.files q).isSome) ∧
      ∀ ref, t.line? ref =
        if ref.file = path ∧ s.files path = none then cfg.freshLine ref else s.line? ref := by
  cases hfile : s.files path with
  | some file =>
    simp only [openFile, hfile, Option.some.injEq] at h
    subst h
    refine ⟨hwf, ⟨rfl, rfl, rfl, rfl, rfl, rfl⟩, fun q => ?_, fun ref => by simp⟩
    by_cases hq : q = path <;> simp [hq, hfile]
  | none =>
    obtain ⟨file, handler, hlen, hmark, ht⟩ := openFile_new hfile h
    obtain ⟨hhash, -⟩ := markUnreachable_eq_some (by simp; omega) hmark
    obtain ⟨hpatterns, hnesting⟩ := markUnreachable_handler hmark
    have hupdate : t.files = Function.update s.files path (some file) := by rw [ht]
    have hlinks : SameLinks s t := by
      rw [ht]
      exact ⟨rfl, rfl, rfl, rfl, rfl, rfl⟩
    have hfiles := isSome_of_update hupdate
    have hline : ∀ ref, t.line? ref = if ref.file = path then cfg.freshLine ref else s.line? ref := by
      rintro ⟨f, n⟩
      rw [line?_of_update hupdate]
      split
      next hf =>
        subst hf
        exact getLine_markUnreachable hwf hfile hlen hmark n
      next => rfl
    refine ⟨hwf.of_sameLinks hlinks ?_ ?_ (fileHash_of_update hwf hupdate hhash) ?_ ?_ ?_ ?_,
      hlinks, hfiles, fun ref => by rw [hline]; simp⟩
    · have hnot : path ∉ s.fileNames := by
        rw [hwf.mem_names, hfile]
        simp
      rw [ht]
      exact List.nodup_append.mpr ⟨hwf.names_nodup, by simp, by aesop⟩
    · intro f
      rw [hfiles, ← hwf.mem_names, ht]
      simp [or_comm]
    · rw [ht]
      exact ⟨hpatterns.single.trans hwf.patterns.single,
        hpatterns.first.trans hwf.patterns.first, hpatterns.last.trans hwf.patterns.last⟩
    · intro f hf
      have hold : ¬(f = path ∨ (s.files f).isSome) := by
        rw [← hfiles, hf]
        simp
      rw [not_or, Option.not_isSome_iff_eq_none] at hold
      rw [ht]
      exact hnesting f hold.1 (hwf.nesting f hold.2)
    · intro ref hsome hex
      rw [hline]
      split
      next => simp [ReporterSetup.freshLine, hex]
      next hne => exact hwf.marked ref (((hfiles _).mp hsome).resolve_left hne) hex
    · intro ref
      rw [hline]
      split
      next hf =>
        have hnone : s.line? ref = none := by simp [line?, hf, hfile]
        rw [ReporterSetup.freshLine]
        split
        next hex => exact Or.inr ⟨hnone, by rw [hex]⟩
        next => exact Or.inl hnone.symm
      next => exact Or.inl rfl

/-- The line at `ref`, or the one that `onLine` makes if there is none. -/
def baseLine (cfg : ReporterSetup) (s : Reporter) (ref : LineRef) : Line :=
  (s.line? ref).getD (Line.new (cfg.fileHash ref.file) ref.lineNr (cfg.excluded ref))

/-- Opening a line of a known file. -/
theorem openLine_eq_some (hwf : s.WellFormed cfg) {ref : LineRef}
    (hfile : (s.files ref.file).isSome) (h : s.openLine ref = some t) :
    t.WellFormed cfg ∧ SameLinks s t ∧ (∀ q, (t.files q).isSome ↔ (s.files q).isSome) ∧
      ∀ r, t.line? r = if r = ref then some (baseLine cfg s ref) else s.line? r := by
  obtain ⟨file, hfile⟩ := Option.isSome_iff_exists.mp hfile
  have hlookup : s.line? ref = file.getLine ref.lineNr := by simp [line?, hfile]
  simp only [openLine, hfile] at h
  cases hget : file.getLine ref.lineNr with
  | some line =>
    simp only [hget, Option.some.injEq] at h
    subst h
    refine ⟨hwf, ⟨rfl, rfl, rfl, rfl, rfl, rfl⟩, fun _ => Iff.rfl, fun r => ?_⟩
    split
    next hr => rw [hr, baseLine, hlookup, hget, Option.getD_some]
    next => rfl
  | none =>
    rw [hget] at hlookup
    simp only [hget, Option.bind_eq_bind, Option.bind_eq_some_iff, Option.pure_def,
      Option.some.injEq] at h
    obtain ⟨file', hadd, ht⟩ := h
    obtain ⟨hhash, hgetLine⟩ := File.addLine_eq_some hadd
    have hex : cfg.excluded ref = false := by
      by_contra hne
      have hsome := hwf.marked ref (by simp [hfile]) (by simpa using hne)
      simp [hlookup] at hsome
    have hbase : baseLine cfg s ref = Line.new file.fileHash ref.lineNr false := by
      rw [baseLine, hlookup, Option.getD_none, hex, hwf.fileHash _ _ hfile]
    have hupdate : t.files = Function.update s.files ref.file (some file') := by rw [← ht]
    have hlinks : SameLinks s t := by
      rw [← ht]
      exact ⟨rfl, rfl, rfl, rfl, rfl, rfl⟩
    have hfiles : ∀ q, (t.files q).isSome ↔ (s.files q).isSome := by
      intro q
      rw [isSome_of_update hupdate, or_iff_right_of_imp]
      rintro rfl
      simp [hfile]
    have hline : ∀ r, t.line? r = if r = ref then some (baseLine cfg s ref) else s.line? r :=
      line?_of_update_line hfile hupdate (hbase ▸ hgetLine)
    refine ⟨hwf.of_sameLinks hlinks ?_ (fun f => ?_)
      (fileHash_of_update hwf hupdate (hhash.trans (hwf.fileHash _ _ hfile))) ?_ (fun f hf => ?_)
      (fun r hsome hexr => ?_) (fun r => ?_), hlinks, hfiles, hline⟩
    · rw [← ht]
      exact hwf.names_nodup
    · rw [hfiles, ← hwf.mem_names, ← ht]
    · rw [← ht]
      exact hwf.patterns
    · have hnone : s.files f = none := by
        rw [← Option.not_isSome_iff_eq_none, ← hfiles, hf]
        simp
      rw [← ht]
      exact hwf.nesting f hnone
    · rw [hline]
      split
      next => rfl
      next => exact hwf.marked r ((hfiles _).mp hsome) hexr
    · rw [hline]
      split
      next heq =>
        subst heq
        exact Or.inr ⟨hlookup, by rw [baseLine, hlookup, Option.getD_none]⟩
      next => exact Or.inl rfl

theorem line?_modifyLine (s : Reporter) (ref r : LineRef) (g : Line → Line) :
    (s.modifyLine ref g).line? r = if r = ref then (s.line? ref).map g else s.line? r := by
  cases hfile : s.files ref.file with
  | none =>
    simp only [modifyLine, hfile]
    by_cases hr : r = ref
    · simp [hr, line?, hfile]
    · rw [if_neg hr]
  | some file =>
    have hupdate : (s.modifyLine ref g).files =
        Function.update s.files ref.file (some (file.modifyLine ref.lineNr g)) := by
      simp only [modifyLine, hfile]
    have hlookup : s.line? ref = file.getLine ref.lineNr := by simp [line?, hfile]
    rw [hlookup]
    exact line?_of_update_line hfile hupdate (fun m => File.getLine_modifyLine g) r

end Open

/-! ### Changing a line -/

section Modify

variable {cfg : ReporterSetup} {s t : Reporter} {ref : LineRef} {g : Line → Line}

theorem modifyLine_files (q : Text) :
    ((s.modifyLine ref g).files q).map File.fileHash = (s.files q).map File.fileHash := by
  cases hfile : s.files ref.file with
  | none => simp only [modifyLine, hfile]
  | some file =>
    simp only [modifyLine, hfile, Function.update_apply]
    split
    next hq => simp [hq, hfile, File.modifyLine]
    next => rfl

theorem modifyLine_names : (s.modifyLine ref g).fileNames = s.fileNames ∧
    (s.modifyLine ref g).lineHandler = s.lineHandler := by
  cases hfile : s.files ref.file <;> simp only [modifyLine, hfile, and_self]

theorem modifyLine_links (s : Reporter) (ref : LineRef) (g : Line → Line) :
    SameLinks s (s.modifyLine ref g) := by
  cases hfile : s.files ref.file <;> simp only [modifyLine, hfile] <;>
    exact ⟨rfl, rfl, rfl, rfl, rfl, rfl⟩

/-- What a well-formed reporter says about its files, which changing a line leaves alone. -/
structure SameFiles (s t : Reporter) : Prop where
  fileNames : t.fileNames = s.fileNames
  lineHandler : t.lineHandler = s.lineHandler
  hashes : ∀ q, (t.files q).map File.fileHash = (s.files q).map File.fileHash

theorem SameFiles.isSome (h : SameFiles s t) (q : Text) : (t.files q).isSome ↔ (s.files q).isSome := by
  rw [← Option.isSome_map, h.hashes, Option.isSome_map]

theorem sameFiles_modifyLine : SameFiles s (s.modifyLine ref g) :=
  ⟨modifyLine_names.1, modifyLine_names.2, modifyLine_files⟩

/-- A reporter stays well formed when the lines keep their numbers and marks, and the maps follow
their addresses. -/
theorem WellFormed.of_sameFiles (hwf : s.WellFormed cfg) (hfiles : SameFiles s t)
    (hsome : ∀ ref, (t.line? ref).isSome = (s.line? ref).isSome)
    (hline : ∀ ref line line', s.line? ref = some line → t.line? ref = some line' →
      line'.lineId = line.lineId ∧ line'.unreachable = line.unreachable ∧ line'.addresses.Nodup)
    (haddr : ∀ a, ∀ r ∈ t.addrToLine a, ∃ line, t.line? r = some line ∧ a ∈ line.addresses)
    (hnodup : ∀ a, ((t.addrToLine a).map cfg.lineId).Nodup)
    (hid : ∀ id r, t.lineIdToFile id = some r →
      cfg.lineId r = id ∧ ∃ line, t.line? r = some line ∧ line.addrs ≠ [])
    (hreg : ∀ ref line, t.line? ref = some line → line.addrs ≠ [] →
      (t.lineIdToFile (cfg.lineId ref)).isSome) : t.WellFormed cfg := by
  have hold : ∀ ref line', t.line? ref = some line' → ∃ line, s.line? ref = some line ∧
      line'.lineId = line.lineId ∧ line'.unreachable = line.unreachable ∧
      line'.addresses.Nodup := by
    intro ref line' ht
    obtain ⟨line, hs⟩ := Option.isSome_iff_exists.mp ((hsome ref).symm.trans (by rw [ht]; rfl))
    exact ⟨line, hs, hline ref line line' hs ht⟩
  refine ⟨hfiles.fileNames ▸ hwf.names_nodup, fun f => ?_, fun f file hf => ?_,
    hfiles.lineHandler ▸ hwf.patterns, fun f hf => ?_, fun ref line h => ?_, fun ref line h => ?_,
    fun ref hf hex => ?_, fun ref line h => ?_, haddr, hnodup, hid, hreg⟩
  · rw [hfiles.fileNames, hfiles.isSome]
    exact hwf.mem_names f
  · have hmap := hfiles.hashes f
    rw [hf, Option.map_some] at hmap
    obtain ⟨file', hf', hhash⟩ := Option.map_eq_some_iff.mp hmap.symm
    rw [← hhash]
    exact hwf.fileHash f file' hf'
  · rw [hfiles.lineHandler]
    refine hwf.nesting f (Option.not_isSome_iff_eq_none.mp fun hs => ?_)
    rw [← hfiles.isSome, hf] at hs
    simp at hs
  · obtain ⟨line', hs, hid', -, -⟩ := hold ref line h
    rw [hid']
    exact hwf.lineId ref line' hs
  · obtain ⟨line', hs, -, hun, -⟩ := hold ref line h
    rw [hun]
    exact hwf.unreachable ref line' hs
  · rw [hsome]
    exact hwf.marked ref ((hfiles.isSome _).mp hf) hex
  · obtain ⟨-, -, -, -, hnd⟩ := hold ref line h
    exact hnd

/-- Changing the counts of one line. -/
theorem WellFormed.modifyCounts (hwf : s.WellFormed cfg) (ref : LineRef)
    (hg : ∀ line, s.line? ref = some line → (g line).lineId = line.lineId ∧
      (g line).unreachable = line.unreachable ∧ (g line).addresses = line.addresses) :
    (s.modifyLine ref g).WellFormed cfg := by
  have hlinks := modifyLine_links s ref g
  have hline : ∀ r line', (s.modifyLine ref g).line? r = some line' → ∃ line,
      s.line? r = some line ∧ line'.lineId = line.lineId ∧
        line'.unreachable = line.unreachable ∧ line'.addresses = line.addresses := by
    intro r line' h
    rw [line?_modifyLine] at h
    split at h
    next hr =>
      obtain ⟨line, hs, rfl⟩ := Option.map_eq_some_iff.mp h
      exact ⟨line, hr ▸ hs, hg line hs⟩
    next => exact ⟨line', h, rfl, rfl, rfl⟩
  have hlift : ∀ r line, s.line? r = some line → ∃ line',
      (s.modifyLine ref g).line? r = some line' ∧ line'.addresses = line.addresses := by
    intro r line h
    rw [line?_modifyLine]
    split
    next hr =>
      subst hr
      exact ⟨g line, by rw [h]; rfl, (hg line h).2.2⟩
    next => exact ⟨line, h, rfl⟩
  have hnil : ∀ line line' : Line, line'.addresses = line.addresses →
      (line'.addrs = [] ↔ line.addrs = []) := by
    intro line line' h
    rw [← List.map_eq_nil_iff (f := Prod.fst), ← List.map_eq_nil_iff (f := Prod.fst) (l := line.addrs)]
    exact Eq.congr_left h
  refine hwf.of_sameFiles sameFiles_modifyLine (fun r => ?_) (fun r line line' hs ht => ?_)
    (fun a r hr => ?_) (fun a => ?_) (fun id r hr => ?_) (fun r line' ht hne => ?_)
  · rw [line?_modifyLine]
    split
    next hr => rw [Option.isSome_map, hr]
    next => rfl
  · obtain ⟨line₁, hs₁, h1, h2, h3⟩ := hline r line' ht
    rw [hs, Option.some.injEq] at hs₁
    subst hs₁
    exact ⟨h1, h2, h3 ▸ hwf.addresses r line hs⟩
  · rw [hlinks.addrToLine] at hr
    obtain ⟨line, hs, ha⟩ := hwf.addrToLine a r hr
    obtain ⟨line', ht, haddr⟩ := hlift r line hs
    exact ⟨line', ht, haddr ▸ ha⟩
  · rw [hlinks.addrToLine]
    exact hwf.addrToLine_nodup a
  · rw [hlinks.lineIdToFile] at hr
    obtain ⟨hid, line, hs, hne⟩ := hwf.lineIdToFile id r hr
    obtain ⟨line', ht, haddr⟩ := hlift r line hs
    exact ⟨hid, line', ht, fun h => hne ((hnil line line' haddr).mp h)⟩
  · rw [hlinks.lineIdToFile]
    obtain ⟨line, hs, -, -, haddr⟩ := hline r line' ht
    exact hwf.registered r line hs fun h => hne ((hnil line line' haddr).mpr h)

end Modify

end Reporter

end Kcov
