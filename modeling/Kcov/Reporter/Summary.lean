import Kcov.Lib.Counting
import Kcov.Reporter.Compiled

/-! The summary of a reporter: how many lines of its files are code, and how many were executed. -/

namespace Kcov

open Bytes

namespace Reporter

/-- `ExecutionSummary`. -/
structure ExecutionSummary where
  lines : U32
  executedLines : U32
  includeInTotals : Bool := true
  deriving DecidableEq, Repr

/-- The body of the loop of `getExecutionSummary`. -/
def summarize (cfg : ReporterSetup) (s : Reporter) (out : ExecutionSummary) (fileName : Text) :
    ExecutionSummary :=
  match s.files fileName with
  | none => out
  | some file =>
    if !cfg.host.fileExists fileName then out
    else if !cfg.runFilters fileName then out
    else { out with
      lines := out.lines + file.nrLines
      executedLines := out.executedLines + file.getExecutedLines }

def getExecutionSummary (cfg : ReporterSetup) (s : Reporter) (it : IterationOrder) :
    ExecutionSummary :=
  (it.order s.fileNames).foldl (summarize cfg s) { lines := 0, executedLines := 0 }

end Reporter

/-! ### The lines of one file -/

namespace File

variable {f g : File} {n : U32} {line : Line}

/-- The numbers of the lines of which `p` holds. -/
def numbersOf (f : File) (p : Line → Bool) : Finset U32 :=
  Counting.wordsWith fun n => (f.getLine n).any p

/-- The numbers of the lines that are code. -/
def codeNrs (f : File) : Finset U32 := f.numbersOf fun line => !line.unreachable

/-- The numbers of the lines that are code and have hits. -/
def executedNrs (f : File) : Finset U32 :=
  f.numbersOf fun line => !line.unreachable && line.hits != 0

theorem card_numbersOf (hsize : f.lines.length ≤ 2 ^ 32) (p : Line → Bool) :
    (f.numbersOf p).card = f.lines.reduceOption.countP p := by
  have hjoin : ∀ n : U32, ((f.getLine n).any p) = f.lines[n.toNat]?.any fun o => o.any p := by
    intro n
    rw [getLine]
    cases f.lines[n.toNat]? <;> rfl
  have hcount : ∀ lines : List (Option Line),
      lines.countP (fun o => o.any p) = lines.reduceOption.countP p := by
    intro lines
    induction lines with
    | nil => rfl
    | cons o lines ih =>
      cases o with
      | none => simpa [List.reduceOption_cons_of_none] using ih
      | some line => simp [List.reduceOption_cons_of_some, List.countP_cons, ih]
  simp only [numbersOf, hjoin]
  rw [Counting.card_filter_word _ hsize, hcount]

theorem getExecutedLines_eq (hsize : f.lines.length ≤ 2 ^ 32) :
    f.getExecutedLines = BitVec.ofNat 32 f.executedNrs.card := by
  rw [executedNrs, card_numbersOf hsize, getExecutedLines, Counting.foldl_count]
  simp

/-- The counter of the file is the number of its code lines. -/
def Tallied (f : File) : Prop := f.nrLines = BitVec.ofNat 32 f.codeNrs.card

theorem tallied_new (hash : U64) : (File.new hash).Tallied := by
  unfold Tallied codeNrs numbersOf
  have hempty : (Counting.wordsWith fun n => ((File.new hash).getLine n).any
      fun line => !line.unreachable) = ∅ := by
    ext n
    simp
  rw [hempty, Finset.card_empty]
  rfl

theorem addLine_nrLines (h : f.addLine n line = some g) :
    g.nrLines = if line.unreachable then f.nrLines else f.nrLines + 1 := by
  simp only [addLine, Option.ite_none_right_eq_some, Option.some.injEq] at h
  obtain ⟨-, rfl⟩ := h
  rfl

theorem Tallied.addLine (hf : f.Tallied) (hfree : f.getLine n = none)
    (h : f.addLine n line = some g) : g.Tallied := by
  have hget := (addLine_eq_some h).2
  have hnr := addLine_nrLines h
  unfold Tallied at hf ⊢
  rw [hnr, hf]
  cases hun : line.unreachable with
  | true =>
    have hsame : g.codeNrs = f.codeNrs := by
      ext m
      simp only [codeNrs, numbersOf, Counting.mem_wordsWith, hget]
      split
      next hm => simp [hm, hfree, hun]
      next => rfl
    rw [hsame, if_pos rfl]
  | false =>
    have hinsert : g.codeNrs = insert n f.codeNrs := by
      ext m
      simp only [codeNrs, numbersOf, Finset.mem_insert, Counting.mem_wordsWith, hget]
      split
      next hm => simp [hm, hun]
      next hm => simp [hm]
    have hnot : n ∉ f.codeNrs := by
      simp [codeNrs, numbersOf, hfree]
    rw [hinsert, Finset.card_insert_of_notMem hnot, BitVec.ofNat_add]
    rfl

end File

/-! ### The lines of a reporter -/

namespace Reporter

/-- The code lines of every file are counted. -/
def Tallied (s : Reporter) : Prop := ∀ f file, s.files f = some file → file.Tallied

section Steps

variable {cfg : ReporterSetup} {s t : Reporter} {path : Text} {ref : LineRef}

theorem Tallied.update (hs : s.Tallied) {file : File} (hfile : file.Tallied)
    (ht : t.files = Function.update s.files path (some file)) : t.Tallied := by
  intro f g hg
  rw [ht, Function.update_apply] at hg
  split at hg
  next => exact Option.some.inj hg ▸ hfile
  next => exact hs f g hg

/-- The files say as much about code lines as their layouts. -/
theorem Tallied.congr (hs : s.Tallied) (h : SameLayout s t) : t.Tallied := by
  intro f g hg
  have hmap := congrFun h.layout f
  rw [layout?, layout?, hg, Option.map_some] at hmap
  obtain ⟨file, hfile, hlayout⟩ := Option.map_eq_some_iff.mp hmap.symm
  rw [Layout.mk.injEq] at hlayout
  obtain ⟨hmarks, hnr⟩ := hlayout
  have hget : ∀ (file : File) (n : U32), ((file.getLine n).any fun line => !line.unreachable) =
      ((file.lines.map (Option.map Line.unreachable))[n.toNat]?.join).any fun b => !b := by
    intro file n
    rw [File.getLine, List.getElem?_map]
    cases file.lines[n.toNat]? with
    | none => rfl
    | some o => cases o <;> rfl
  have hcode : g.codeNrs = file.codeNrs := by
    simp only [File.codeNrs, File.numbersOf, hget, hmarks]
  have htallied := hs f file hfile
  unfold File.Tallied at htallied ⊢
  rw [hcode, ← hnr, htallied]

theorem tallied_markUnreachable {texts : List Text} {nr : U32} {file file' : File}
    {handler handler' : FileLineHandler} (hnr : nr.toNat + texts.length < 2 ^ 32)
    (hfile : file.Tallied) (hfree : ∀ m, nr ≤ m → file.getLine m = none)
    (h : markUnreachable path texts nr file handler = some (file', handler')) :
    file'.Tallied := by
  induction texts generalizing nr file handler with
  | nil =>
    cases h
    exact hfile
  | cons text texts ih =>
    rw [List.length_cons] at hnr
    have hsucc : (nr + 1).toNat = nr.toNat + 1 := toNat_succ (by omega)
    have hlater : ∀ m, nr + 1 ≤ m → nr ≤ m ∧ m ≠ nr := by
      intro m hm
      rw [BitVec.le_def, hsucc] at hm
      exact ⟨BitVec.le_def.mpr (by omega), by rintro rfl; omega⟩
    rw [markUnreachable] at h
    dsimp only at h
    split at h
    next =>
      split at h
      next => simp at h
      next file₁ hadd =>
        refine ih (by omega) (hfile.addLine (hfree nr (BitVec.le_refl nr)) hadd) (fun m hm => ?_) h
        rw [(File.addLine_eq_some hadd).2, if_neg (hlater m hm).2]
        exact hfree m (hlater m hm).1
    next => exact ih (by omega) hfile (fun m hm => hfree m (hlater m hm).1) h

theorem tallied_openFile (hs : s.Tallied) (h : s.openFile cfg path = some t) : t.Tallied := by
  cases hfile : s.files path with
  | some file =>
    simp only [openFile, hfile, Option.some.injEq] at h
    exact h ▸ hs
  | none =>
    obtain ⟨file, handler, hlen, hmark, ht⟩ := openFile_new hfile h
    refine hs.update ?_ (by rw [ht])
    exact tallied_markUnreachable (by simp; omega) (File.tallied_new _)
      (fun m _ => File.getLine_new _) hmark

theorem tallied_openLine (hs : s.Tallied) (h : s.openLine ref = some t) : t.Tallied := by
  rw [openLine] at h
  split at h
  next => exact Option.some.inj h ▸ hs
  next file hfile =>
    split at h
    next => exact Option.some.inj h ▸ hs
    next hfree =>
      simp only [Option.bind_eq_bind, Option.bind_eq_some_iff, Option.pure_def,
        Option.some.injEq] at h
      obtain ⟨file', hadd, rfl⟩ := h
      exact hs.update ((hs _ _ hfile).addLine hfree hadd) rfl

theorem tallied_step (hs : s.Tallied) {ev : Event} (h : s.step cfg ev = some t) : t.Tallied := by
  cases ev with
  | file => exact hs.congr (sameLayout_onFile h)
  | hit a hits =>
    rw [step, Option.some.injEq] at h
    exact h ▸ hs.congr (sameLayout_onAddressHit s a hits)
  | line f n a =>
    rw [step, onLine] at h
    split at h
    next => exact Option.some.inj h ▸ hs
    next =>
      simp only [Option.bind_eq_bind, Option.bind_eq_some_iff] at h
      obtain ⟨s₁, hopen, s₂, hopen₂, h⟩ := h
      have hs₂ := tallied_openLine (tallied_openFile hs hopen) hopen₂
      split at h
      next => exact Option.some.inj h ▸ hs₂
      next => exact Option.some.inj h ▸ hs₂.congr (sameLayout_registerAddress s₂ _ _ a)

/-- Every known file is included. -/
def Included (cfg : ReporterSetup) (s : Reporter) : Prop :=
  ∀ f, (s.files f).isSome → cfg.runFilters f = true

/-- Every line that is not excluded has an address. -/
def Addressed (cfg : ReporterSetup) (s : Reporter) : Prop :=
  ∀ r line, s.line? r = some line → cfg.excluded r = false → line.addrs ≠ []

theorem Included.congr (hs : Included cfg s) (h : SameLayout s t) : Included cfg t := by
  intro f hf
  rw [(isSome_of_sameLayout h ⟨f, 0⟩).1] at hf
  exact hs f hf

theorem Addressed.congr (hs : Addressed cfg s) (h : SameLayout s t)
    (haddrs : ∀ r, (t.counts r).map Prod.fst = (s.counts r).map Prod.fst) : Addressed cfg t := by
  intro r line hline hex hnil
  have hsome := (isSome_of_sameLayout h r).2
  rw [hline, Option.isSome_some, eq_comm] at hsome
  obtain ⟨line₀, hline₀⟩ := Option.isSome_iff_exists.mp hsome
  have hfst := haddrs r
  rw [counts_eq hline, counts_eq hline₀, hnil, List.map_nil, eq_comm, List.map_eq_nil_iff] at hfst
  exact hs r line₀ hline₀ hex hfst

/-- What a run leaves in every reporter. -/
structure Summarized (cfg : ReporterSetup) (s : Reporter) : Prop where
  tallied : s.Tallied
  included : Included cfg s
  addressed : Addressed cfg s

theorem summarized_step (hwf : s.WellFormed cfg) (hs : Summarized cfg s) {ev : Event}
    (h : s.step cfg ev = some t) : Summarized cfg t := by
  have htallied := tallied_step hs.tallied h
  cases ev with
  | file =>
    have hlayout := sameLayout_onFile h
    exact ⟨htallied, hs.included.congr hlayout,
      hs.addressed.congr hlayout (onFile_frame hwf h).addresses⟩
  | hit a hits =>
    rw [step, Option.some.injEq] at h
    subst h
    have hlayout := @sameLayout_onAddressHit cfg s a hits
    exact ⟨htallied, hs.included.congr hlayout,
      hs.addressed.congr hlayout ((onAddressHit_step hwf a hits).map_fst_counts hwf)⟩
  | line f n a =>
    cases hf : cfg.runFilters f with
    | false =>
      rw [step, onLine_filtered hf, Option.some.injEq] at h
      exact h ▸ hs
    | true =>
      have hstep := onLine_eq_some hwf ⟨f, n⟩ hf h
      refine ⟨htallied, fun q hq => ?_, hstep.code hs.addressed⟩
      rcases (hstep.files q).mp hq with rfl | hq
      · exact hf
      · exact hs.included q hq

end Steps

section Runs

variable {cfg : ReporterSetup} {s : Reporter} {evs : List Event}

theorem run_summarized (h : run cfg evs = some s) : Summarized cfg s := by
  induction evs using List.reverseRecOn generalizing s with
  | nil =>
    cases h
    exact ⟨fun _ _ hf => by simp [create] at hf, fun _ hf => by simp [create] at hf,
      fun _ _ hline => by simp [create, line?] at hline⟩
  | append_singleton evs ev ih =>
    obtain ⟨s₀, hs₀, hstep⟩ := run_snoc_eq_some h
    exact summarized_step (run_frame hs₀).1 (ih hs₀) hstep

/-- The code lines are the lines that were registered and are not excluded. -/
theorem run_lineIsCode (h : run cfg evs = some s) (ref : LineRef) :
    s.lineIsCode ref.file ref.lineNr =
      (!cfg.excluded ref && evs.any (registers cfg ref)) := by
  have hframe := run_frame h
  rw [lineIsCode_eq hframe.1 (run_summarized h).addressed]
  congr 1
  rw [Bool.eq_iff_iff, ← addressesOf_ne_nil, ← hframe.2 ref]
  simp

/-- The numbers of the lines of a file that are code. -/
def codeNrs (s : Reporter) (f : Text) : Finset U32 :=
  Counting.wordsWith fun n => s.lineIsCode f n

/-- The line was executed, as the writers see it. -/
def isExecuted (cfg : ReporterSetup) (s : Reporter) (f : Text) (n : U32) : Bool :=
  s.lineIsCode f n && (s.getLineExecutionCount cfg f n).hits != 0

def executedNrs (cfg : ReporterSetup) (s : Reporter) (f : Text) : Finset U32 :=
  Counting.wordsWith fun n => s.isExecuted cfg f n

theorem codeNrs_eq {f : Text} {file : File} (hfile : s.files f = some file) :
    s.codeNrs f = file.codeNrs := by
  unfold codeNrs File.codeNrs File.numbersOf
  ext n
  rw [Counting.mem_wordsWith, Counting.mem_wordsWith, lineIsCode, hfile]
  simp only [File.lineIsCode]
  cases file.getLine n <;> simp

theorem executedNrs_eq {f : Text} {file : File} (hfile : s.files f = some file) :
    s.executedNrs cfg f = file.executedNrs := by
  unfold executedNrs File.executedNrs File.numbersOf
  ext n
  simp only [Counting.mem_wordsWith, isExecuted, lineIsCode, getLineExecutionCount, line?, hfile,
    Option.bind_some, File.lineIsCode]
  cases file.getLine n with
  | none => simp
  | some line => cases hun : line.unreachable <;> simp [hun]

/-- The files that both the summary and the writers look at. -/
def shownFiles (cfg : ReporterSetup) (s : Reporter) : List Text :=
  s.fileNames.filter cfg.host.fileExists

theorem summarize_eq (h : run cfg evs = some s) (out : ExecutionSummary) {f : Text}
    (hf : f ∈ s.fileNames) : summarize cfg s out f =
      if cfg.host.fileExists f then { out with
        lines := out.lines + BitVec.ofNat 32 (s.codeNrs f).card
        executedLines := out.executedLines + BitVec.ofNat 32 (s.executedNrs cfg f).card }
      else out := by
  have hsum := run_summarized h
  obtain ⟨file, hfile⟩ := Option.isSome_iff_exists.mp (((run_frame h).1.mem_names f).mp hf)
  have hsize := ((run_sized h).1 f file.lines.length (by rw [sizeOf?, hfile]; rfl)).1
  have htallied : file.nrLines = _ := hsum.tallied f file hfile
  have hincluded := hsum.included f (by simp [hfile])
  have hexecuted := File.getExecutedLines_eq hsize.le
  rw [summarize, hfile, codeNrs_eq hfile, executedNrs_eq hfile, ← htallied, ← hexecuted]
  simp only [hincluded, Bool.not_true, Bool.false_eq_true, if_false]
  cases cfg.host.fileExists f with
  | false => simp only [Bool.not_false, if_true, Bool.false_eq_true, if_false]
  | true => simp only [Bool.not_true, if_true, Bool.false_eq_true, if_false]

theorem foldl_summarize (h : run cfg evs = some s) (out : ExecutionSummary) {names : List Text}
    (hnames : ∀ f ∈ names, f ∈ s.fileNames) : names.foldl (summarize cfg s) out = { out with
      lines := out.lines + BitVec.ofNat 32
        ((names.filter cfg.host.fileExists).map fun f => (s.codeNrs f).card).sum
      executedLines := out.executedLines + BitVec.ofNat 32
        ((names.filter cfg.host.fileExists).map fun f => (s.executedNrs cfg f).card).sum } := by
  induction names generalizing out with
  | nil => simp
  | cons f names ih =>
    obtain ⟨hf, hnames⟩ := List.forall_mem_cons.mp hnames
    rw [List.foldl_cons, summarize_eq h out hf, ih _ hnames]
    cases hex : cfg.host.fileExists f with
    | false => simp [hex]
    | true => simp [hex, BitVec.ofNat_add, BitVec.add_assoc]

/-- The summary is the number of code lines and of executed lines, in 32 bits. -/
theorem getExecutionSummary_eq (h : run cfg evs = some s) (it : IterationOrder) :
    s.getExecutionSummary cfg it =
      { lines := BitVec.ofNat 32 ((s.shownFiles cfg).map fun f => (s.codeNrs f).card).sum
        executedLines :=
          BitVec.ofNat 32 ((s.shownFiles cfg).map fun f => (s.executedNrs cfg f).card).sum } := by
  have hperm := (it.perm s.fileNames).filter cfg.host.fileExists
  rw [getExecutionSummary, foldl_summarize h _ fun f hf => (it.perm _).mem_iff.mp hf,
    (hperm.map _).sum_eq, (hperm.map _).sum_eq, shownFiles]
  simp

end Runs

end Reporter

end Kcov
