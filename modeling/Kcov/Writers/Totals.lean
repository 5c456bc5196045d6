import Kcov.Reporter.Exclusion
import Kcov.Writers.Base
import Mathlib.Algebra.BigOperators.Group.List.Lemmas

/-! When the summary of a reporter and the totals of the writers are the same numbers. -/

namespace Kcov

open Bytes

/-! ### Counting the lines of a file -/

namespace WriterFile

variable {cfg : ReporterSetup} {s : Reporter} {file : WriterFile}

/-- The code lines and the executed lines among the lines of the text. -/
def counted (cfg : ReporterSetup) (s : Reporter) (file : WriterFile) : LineCount :=
  { code := BitVec.ofNat 32 (file.lineNrs.countP (s.lineIsCode file.name))
    executed := BitVec.ofNat 32 (file.lineNrs.countP (s.isExecuted cfg file.name)) }

theorem foldl_count (ns : List U32) (c : LineCount) :
    ns.foldl (file.count cfg s) c =
      { code := c.code + BitVec.ofNat 32 (ns.countP (s.lineIsCode file.name))
        executed := c.executed + BitVec.ofNat 32 (ns.countP (s.isExecuted cfg file.name)) } := by
  have hcode : ∀ c n, (file.count cfg s c n).code =
      if s.lineIsCode file.name n then c.code + 1 else c.code := by
    intro c n
    rw [count]
    split <;> rfl
  have hexecuted : ∀ c n, (file.count cfg s c n).executed =
      if s.isExecuted cfg file.name n then c.executed + 1 else c.executed := by
    intro c n
    rw [count, Reporter.isExecuted]
    cases s.lineIsCode file.name n with
    | false => simp
    | true => simp [bne]
  induction ns generalizing c with
  | nil => simp
  | cons n ns ih =>
    rw [List.foldl_cons, ih, hcode, hexecuted, ← Counting.foldl_count, ← Counting.foldl_count,
      ← Counting.foldl_count (n := c.code), ← Counting.foldl_count (n := c.executed),
      List.foldl_cons, List.foldl_cons]

/-- The counters are zero or were stored when some line was code. -/
def Fresh (s : Reporter) (file : WriterFile) : Prop :=
  (file.codeLines = 0 ∧ file.executedLines = 0) ∨ ∃ n ∈ file.lineNrs, s.lineIsCode file.name n

theorem counted_eq_zero (h : ¬∃ n ∈ file.lineNrs, s.lineIsCode file.name n) :
    file.counted cfg s = { code := 0, executed := 0 } := by
  have hcode : file.lineNrs.countP (s.lineIsCode file.name) = 0 :=
    List.countP_eq_zero.mpr fun n hn hc => h ⟨n, hn, hc⟩
  have hexecuted : file.lineNrs.countP (s.isExecuted cfg file.name) = 0 := by
    refine List.countP_eq_zero.mpr fun n hn hc => h ⟨n, hn, ?_⟩
    rw [Reporter.isExecuted, Bool.and_eq_true] at hc
    exact hc.1
  rw [counted, hcode, hexecuted]
  rfl

theorem store_counted (hfresh : file.Fresh s) (h : ¬∃ n ∈ file.lineNrs, s.lineIsCode file.name n) :
    file.store (file.counted cfg s) = file := by
  obtain ⟨hcode, hexecuted⟩ := hfresh.resolve_right h
  cases file with
  | mk name codeLines executedLines lastLineNr =>
    dsimp only at hcode hexecuted
    rw [counted_eq_zero h, store, hcode, hexecuted]

/-- One round of a loop that counts a line and stores the counters. -/
def countAndStore (cfg : ReporterSetup) (s : Reporter) (file : WriterFile)
    (st : WriterFile × LineCount) (n : U32) : WriterFile × LineCount :=
  (st.1.store (file.count cfg s st.2 n), file.count cfg s st.2 n)

theorem foldl_countAndStore (ns : List U32) (out : WriterFile) (c : LineCount) :
    (ns.foldl (countAndStore cfg s file) (out, c)).1 =
      if ns = [] then out else out.store (ns.foldl (file.count cfg s) c) := by
  induction ns generalizing out c with
  | nil => rfl
  | cons n ns ih =>
    rw [List.foldl_cons, countAndStore, ih, if_neg (List.cons_ne_nil n ns), List.foldl_cons]
    split
    next hns => rw [hns]; rfl
    next => rfl

end WriterFile

section Writers

variable {cfg : ReporterSetup} {s : Reporter} {file : WriterFile}

theorem HtmlWriter.writeOne_eq (hfresh : file.Fresh s) :
    HtmlWriter.writeOne cfg s file = file.store (file.counted cfg s) := by
  have hloop : HtmlWriter.writeOne cfg s file =
      (file.lineNrs.foldl (file.countAndStore cfg s) (file, ⟨0, 0⟩)).1 := rfl
  rw [hloop, WriterFile.foldl_countAndStore]
  split
  next hnil => exact (WriterFile.store_counted hfresh (by simp [hnil])).symm
  next => rw [WriterFile.foldl_count]; simp [WriterFile.counted]

/-- The loop of `sumOne` runs over the lines that are code. -/
theorem CoberturaWriter.sumOne_eq (hfresh : file.Fresh s) :
    CoberturaWriter.sumOne cfg s file = file.store (file.counted cfg s) := by
  have hskip : file.lineNrs.foldl (file.count cfg s) ⟨0, 0⟩ =
      (file.lineNrs.filter (s.lineIsCode file.name)).foldl (file.count cfg s) ⟨0, 0⟩ := by
    rw [List.foldl_filter]
    congr 1
    funext c n
    rw [WriterFile.count]
    split <;> rfl
  have hloop : CoberturaWriter.sumOne cfg s file =
      ((file.lineNrs.filter (s.lineIsCode file.name)).foldl (file.countAndStore cfg s)
        (file, ⟨0, 0⟩)).1 := by
    rw [List.foldl_filter, CoberturaWriter.sumOne]
    congr 2
    funext st n
    cases s.lineIsCode file.name n <;> rfl
  rw [hloop, WriterFile.foldl_countAndStore]
  split
  next hnil =>
    refine (WriterFile.store_counted hfresh ?_).symm
    rintro ⟨n, hn, hc⟩
    rw [List.filter_eq_nil_iff] at hnil
    exact hnil n hn hc
  next =>
    rw [← hskip, WriterFile.foldl_count]
    simp [WriterFile.counted]

end Writers

/-! ### Totals over files -/

/-- A loop that adds to the totals what each file counts. -/
theorem foldl_totals {step : LineCount → WriterFile → LineCount} {code executed : WriterFile → Nat}
    (files : List WriterFile) (hstep : ∀ file ∈ files, ∀ c, step c file =
      { code := c.code + BitVec.ofNat 32 (code file)
        executed := c.executed + BitVec.ofNat 32 (executed file) }) (c : LineCount) :
    files.foldl step c =
      { code := c.code + BitVec.ofNat 32 (files.map code).sum
        executed := c.executed + BitVec.ofNat 32 (files.map executed).sum } := by
  induction files generalizing c with
  | nil => simp
  | cons file files ih =>
    obtain ⟨hfile, hfiles⟩ := List.forall_mem_cons.mp hstep
    rw [List.foldl_cons, ih hfiles, hfile]
    simp only [List.map_cons, List.sum_cons, BitVec.ofNat_add, BitVec.add_assoc]

namespace WriterBase

variable {cfg : ReporterSetup} {s : Reporter} {w : WriterBase} {it : IterationOrder}

theorem filesInOrder_perm (hnodup : (w.files.map (·.name)).Nodup) (it : IterationOrder) :
    (w.filesInOrder it).Perm w.files := by
  have hfind : ∀ file ∈ w.files, w.files.find? (·.name = file.name) = some file := by
    intro file hfile
    have hsome : (w.files.find? (·.name = file.name)).isSome := by
      rw [List.find?_isSome]
      exact ⟨file, hfile, decide_eq_true rfl⟩
    obtain ⟨g, hg⟩ := Option.isSome_iff_exists.mp hsome
    have hname : g.name = file.name := by simpa using List.find?_some hg
    rw [hg, List.inj_on_of_nodup_map hnodup (List.mem_of_find?_eq_some hg) hfile hname]
  have hall : (w.files.map (·.name)).filterMap (fun name => w.files.find? (·.name = name)) =
      w.files := by
    rw [List.filterMap_map]
    calc w.files.filterMap ((fun name => w.files.find? (·.name = name)) ∘ (·.name))
        = w.files.filterMap some := List.filterMap_congr hfind
      _ = w.files := List.filterMap_some
  exact hall ▸ (it.perm _).filterMap _

/-- The totals of files whose counters are known. -/
theorem totals_eq (hnodup : (w.files.map (·.name)).Nodup) {code executed : WriterFile → Nat}
    (h : ∀ file ∈ w.files, file.codeLines = BitVec.ofNat 32 (code file) ∧
      file.executedLines = BitVec.ofNat 32 (executed file)) :
    w.totals it =
      { code := BitVec.ofNat 32 (w.files.map code).sum
        executed := BitVec.ofNat 32 (w.files.map executed).sum } := by
  have hperm := filesInOrder_perm hnodup it
  have hloop := @foldl_totals (fun total file => { code := total.code + file.codeLines
                                                   executed := total.executed + file.executedLines })
    code executed (w.filesInOrder it) (fun file hfile c => by
      obtain ⟨hcode, hexecuted⟩ := h file (hperm.mem_iff.mp hfile)
      rw [hcode, hexecuted]) { code := 0, executed := 0 }
  rw [totals, hloop, (hperm.map code).sum_eq, (hperm.map executed).sum_eq]
  simp

end WriterBase

namespace JsonWriter

variable {cfg : ReporterSetup} {s : Reporter} {w : WriterBase}

theorem write_eq (hnodup : (w.files.map (·.name)).Nodup) (it : IterationOrder) :
    write cfg s w it =
      { code := BitVec.ofNat 32
          (w.files.map fun file => file.lineNrs.countP (s.lineIsCode file.name)).sum
        executed := BitVec.ofNat 32
          (w.files.map fun file => file.lineNrs.countP (s.isExecuted cfg file.name)).sum } := by
  have hperm := WriterBase.filesInOrder_perm hnodup it
  have hloop := @foldl_totals (fun total file => file.lineNrs.foldl (file.count cfg s) total) _ _
    (w.filesInOrder it) (fun file _ c => WriterFile.foldl_count file.lineNrs c)
    { code := 0, executed := 0 }
  rw [write, hloop, (hperm.map _).sum_eq, (hperm.map _).sum_eq]
  simp

end JsonWriter

/-! ### What the writers know -/

/-- The files of a writer next to a reporter. -/
structure WriterBase.Follows (cfg : ReporterSetup) (s : Reporter) (w : WriterBase) : Prop where
  names : w.files.map (·.name) = s.shownFiles cfg
  last : ∀ file ∈ w.files,
    file.lastLineNr = BitVec.ofNat 32 ((cfg.host.getLines file.name).length + 1)
  fresh : ∀ file ∈ w.files, file.Fresh s

namespace WriterBase

variable {cfg : ReporterSetup} {s t : Reporter} {w w' : WriterBase} {f : Text}

theorem new_eq_some {file : WriterFile} (hex : cfg.host.fileExists f = true)
    (h : WriterFile.new cfg.host f = some file) : file.name = f ∧ file.codeLines = 0 ∧
      file.executedLines = 0 ∧
      file.lastLineNr = BitVec.ofNat 32 ((cfg.host.getLines f).length + 1) := by
  simp only [WriterFile.new, Option.bind_eq_bind, Option.bind_eq_some_iff, Option.pure_def,
    Option.some.injEq] at h
  obtain ⟨data, hdata, rfl⟩ := h
  simp [Host.getLines, hex, hdata]

/-- Counters stay fresh as long as code lines stay code lines. -/
theorem Follows.mono (h : Follows cfg s w) (hnames : t.fileNames = s.fileNames)
    (hcode : ∀ f n, s.lineIsCode f n = true → t.lineIsCode f n = true) : Follows cfg t w := by
  refine ⟨?_, h.last, fun file hfile => ?_⟩
  · rw [h.names, Reporter.shownFiles, Reporter.shownFiles, hnames]
  · rcases h.fresh file hfile with hzero | ⟨n, hn, hc⟩
    · exact Or.inl hzero
    · exact Or.inr ⟨n, hn, hcode _ _ hc⟩

theorem Follows.any_name (h : Follows cfg s w) (hwf : s.WellFormed cfg) (f : Text) :
    w.files.any (·.name = f) = (cfg.host.fileExists f && (s.files f).isSome) := by
  have hmem : f ∈ w.files.map (·.name) ↔ f ∈ s.fileNames ∧ cfg.host.fileExists f = true := by
    rw [h.names, Reporter.shownFiles, List.mem_filter]
  rw [Bool.eq_iff_iff, Bool.and_eq_true, ← hwf.mem_names, and_comm, ← hmem, List.any_eq_true,
    List.mem_map]
  simp only [decide_eq_true_eq]

/-- A file that the reporter gets to know comes last. -/
theorem Follows.line (h : Follows cfg s w) (hwf : s.WellFormed cfg)
    (hfilter : cfg.runFilters f = true)
    (hnames : t.fileNames = if (s.files f).isSome then s.fileNames else s.fileNames ++ [f])
    (hcode : ∀ f n, s.lineIsCode f n = true → t.lineIsCode f n = true)
    (hw : w.onLine cfg f = some w') : Follows cfg t w' := by
  have hkeep : ∀ file ∈ w.files, file.Fresh t := by
    intro file hfile
    rcases h.fresh file hfile with hzero | ⟨n, hn, hc⟩
    · exact Or.inl hzero
    · exact Or.inr ⟨n, hn, hcode _ _ hc⟩
  simp only [onLine, hfilter, Bool.not_true, Bool.false_eq_true, if_false, h.any_name hwf,
    Bool.and_eq_true] at hw
  cases hex : cfg.host.fileExists f with
  | false =>
    simp only [hex, Bool.false_eq_true, false_and, if_false, Bool.not_false, if_true,
      Option.some.injEq] at hw
    subst hw
    refine ⟨?_, h.last, hkeep⟩
    rw [h.names, Reporter.shownFiles, Reporter.shownFiles, hnames]
    split
    · rfl
    · simp [hex]
  | true =>
    cases hknown : (s.files f).isSome with
    | true =>
      simp only [hex, hknown, and_self, if_true, Option.some.injEq] at hw
      subst hw
      refine ⟨?_, h.last, hkeep⟩
      rw [h.names, Reporter.shownFiles, Reporter.shownFiles, hnames, hknown, if_pos rfl]
    | false =>
      simp only [hex, hknown, and_false, Bool.false_eq_true, if_false, Bool.not_true,
        Option.bind_eq_bind, Option.bind_eq_some_iff, Option.pure_def, Option.some.injEq] at hw
      obtain ⟨file, hnew, rfl⟩ := hw
      obtain ⟨hname, hcode₀, hexec₀, hlast⟩ := new_eq_some hex hnew
      refine ⟨?_, fun g hg => ?_, fun g hg => ?_⟩
      · rw [List.map_append, h.names, Reporter.shownFiles, Reporter.shownFiles, hnames, hknown]
        simp [hex, hname]
      · rcases List.mem_append.mp hg with hg | hg
        · exact h.last g hg
        · rw [List.mem_singleton.mp hg, hname]
          exact hlast
      · rcases List.mem_append.mp hg with hg | hg
        · exact hkeep g hg
        · rw [List.mem_singleton.mp hg]
          exact Or.inl ⟨hcode₀, hexec₀⟩

/-- Writing the counters keeps a writer what it is. -/
theorem Follows.store (h : Follows cfg s w) {one : WriterFile → WriterFile}
    (hone : ∀ file, file.Fresh s → one file = file.store (file.counted cfg s)) :
    Follows cfg s { files := w.files.map one } := by
  have hname : ∀ file ∈ w.files, (one file).name = file.name ∧
      (one file).lastLineNr = file.lastLineNr := by
    intro file hfile
    rw [hone file (h.fresh file hfile)]
    exact ⟨rfl, rfl⟩
  refine ⟨?_, fun g hg => ?_, fun g hg => ?_⟩
  · rw [← h.names, List.map_map]
    exact List.map_congr_left fun file hfile => (hname file hfile).1
  · obtain ⟨file, hfile, rfl⟩ := List.mem_map.mp hg
    rw [(hname file hfile).1, (hname file hfile).2]
    exact h.last file hfile
  · obtain ⟨file, hfile, rfl⟩ := List.mem_map.mp hg
    rw [hone file (h.fresh file hfile)]
    by_cases hcode : ∃ n ∈ file.lineNrs, s.lineIsCode file.name n
    · exact Or.inr hcode
    · rw [WriterFile.Fresh, WriterFile.counted_eq_zero hcode]
      exact Or.inl ⟨rfl, rfl⟩

end WriterBase

namespace Reporter

variable {cfg : ReporterSetup} {s t : Reporter} {evs : List Event}

/-- A file is remembered when its first line is registered. -/
theorem onLine_fileNames {f : Text} {n : U32} {a : U64} (hfilter : cfg.runFilters f = true)
    (h : s.onLine cfg f n a = some t) :
    t.fileNames = if (s.files f).isSome then s.fileNames else s.fileNames ++ [f] := by
  simp only [onLine, hfilter, Bool.not_true, Bool.false_eq_true, if_false, Option.bind_eq_bind,
    Option.bind_eq_some_iff] at h
  obtain ⟨s₁, hopen, s₂, hopen₂, h⟩ := h
  have hline : s₂.fileNames = s₁.fileNames := by
    rw [openLine] at hopen₂
    split at hopen₂
    next => exact Option.some.inj hopen₂ ▸ rfl
    next =>
      split at hopen₂
      next => exact Option.some.inj hopen₂ ▸ rfl
      next =>
        simp only [Option.bind_eq_bind, Option.bind_eq_some_iff, Option.pure_def,
          Option.some.injEq] at hopen₂
        obtain ⟨file, -, rfl⟩ := hopen₂
        rfl
  have hfile : s₁.fileNames = if (s.files f).isSome then s.fileNames else s.fileNames ++ [f] := by
    cases hknown : s.files f with
    | some file =>
      simp only [openFile, hknown, Option.some.injEq] at hopen
      rw [← hopen]
      rfl
    | none =>
      obtain ⟨file, handler, -, -, rfl⟩ := openFile_new hknown hopen
      rfl
  rw [← hfile, ← hline]
  split at h
  next => exact Option.some.inj h ▸ rfl
  next => exact Option.some.inj h ▸ (sameLayout_registerAddress s₂ _ _ a).fileNames

theorem lineIsCode_mono {ev : Event} (hs : run cfg evs = some s)
    (ht : run cfg (evs ++ [ev]) = some t) (f : Text) (n : U32)
    (h : s.lineIsCode f n = true) : t.lineIsCode f n = true := by
  have hs' := run_lineIsCode hs ⟨f, n⟩
  have ht' := run_lineIsCode ht ⟨f, n⟩
  dsimp only at hs' ht'
  rw [hs', Bool.and_eq_true] at h
  rw [ht', List.any_append, h.1, h.2]
  rfl

end Reporter

/-! ### Runs -/

namespace Reports

variable {cfg : ReporterSetup} {it : IterationOrder} {evs : List Event} {r r' : Reports}

/-- The writers follow a reporter that has seen the calls `evs`. -/
structure Follows (cfg : ReporterSetup) (evs : List Reporter.Event) (r : Reports) : Prop where
  reporter : Reporter.run cfg evs = some r.reporter
  html : r.html.Follows cfg r.reporter
  cobertura : r.cobertura.Follows cfg r.reporter
  json : r.json.Follows cfg r.reporter

theorem follows_call {calls : List Reporter.Event} (h : r.Follows cfg calls) {ev : Reporter.Event}
    (hstep : r.step cfg it (.call ev) = some r') : r'.Follows cfg (calls ++ [ev]) := by
  simp only [step, Option.bind_eq_bind, Option.bind_eq_some_iff] at hstep
  obtain ⟨reporter, hreporter, hstep⟩ := hstep
  have hrun : Reporter.run cfg (calls ++ [ev]) = some reporter := by
    rw [Reporter.run_snoc, h.reporter]
    exact hreporter
  have hwf := (Reporter.run_frame h.reporter).1
  have hcode := Reporter.lineIsCode_mono h.reporter hrun
  cases ev with
  | line f n a =>
    simp only [Option.bind_eq_some_iff, Option.pure_def, Option.some.injEq] at hstep
    obtain ⟨html, hhtml, cobertura, hcobertura, json, hjson, rfl⟩ := hstep
    cases hf : cfg.runFilters f with
    | false =>
      have hsame : ∀ w : WriterBase, w.onLine cfg f = some w := by simp [WriterBase.onLine, hf]
      rw [Reporter.step, Reporter.onLine_filtered hf, Option.some.injEq] at hreporter
      subst hreporter
      rw [hsame, Option.some.injEq] at hhtml hcobertura hjson
      subst hhtml hcobertura hjson
      exact ⟨hrun, h.html, h.cobertura, h.json⟩
    | true =>
      have hnames := Reporter.onLine_fileNames hf hreporter
      exact ⟨hrun, h.html.line hwf hf hnames hcode hhtml,
        h.cobertura.line hwf hf hnames hcode hcobertura, h.json.line hwf hf hnames hcode hjson⟩
  | file =>
    cases hstep
    have hnames := (Reporter.sameLayout_onFile hreporter).fileNames
    exact ⟨hrun, h.html.mono hnames hcode, h.cobertura.mono hnames hcode,
      h.json.mono hnames hcode⟩
  | hit a hits =>
    cases hstep
    rw [Reporter.step, Option.some.injEq] at hreporter
    have hnames : reporter.fileNames = r.reporter.fileNames :=
      hreporter ▸ (Reporter.sameLayout_onAddressHit r.reporter a hits).fileNames
    exact ⟨hrun, h.html.mono hnames hcode, h.cobertura.mono hnames hcode,
      h.json.mono hnames hcode⟩

theorem follows_write {calls : List Reporter.Event} (h : r.Follows cfg calls)
    (hstep : r.step cfg it .write = some r') : r'.Follows cfg calls := by
  cases hstep
  exact ⟨h.reporter, h.html.store fun _ => HtmlWriter.writeOne_eq,
    h.cobertura.store fun _ => CoberturaWriter.sumOne_eq, h.json⟩

/-- However often the reports are written in between, the writers follow the reporter. -/
theorem run_follows (h : run cfg it evs = some r) : r.Follows cfg (calls evs) := by
  induction evs using List.reverseRecOn generalizing r with
  | nil =>
    cases h
    exact ⟨rfl, ⟨rfl, by simp [create], by simp [create]⟩, ⟨rfl, by simp [create], by simp [create]⟩,
      ⟨rfl, by simp [create], by simp [create]⟩⟩
  | append_singleton evs ev ih =>
    rw [run, List.foldlM_append, Option.bind_eq_bind, Option.bind_eq_some_iff] at h
    obtain ⟨r₀, hr₀, hstep⟩ := h
    simp only [List.foldlM_cons, List.foldlM_nil, Option.bind_eq_bind, Option.pure_def] at hstep
    have hfollows := ih hr₀
    cases ev with
    | call ev => simpa [calls] using follows_call hfollows (by simpa using hstep)
    | write => simpa [calls] using follows_write hfollows (by simpa using hstep)

end Reports

/-! ### Lines outside the text -/

namespace ReporterSetup

variable {cfg : ReporterSetup} {f : Text}

/-- The number is not that of a line of the text. -/
def outside (cfg : ReporterSetup) (f : Text) (n : U32) : Bool :=
  n = 0 || decide ((cfg.host.getLines f).length < n.toNat)

/-- The line that the call registers, if it belongs to a report and is not in the text. -/
def outlier (cfg : ReporterSetup) : Reporter.Event → Option LineRef
  | .line f n _ =>
    if cfg.runFilters f && cfg.host.fileExists f && cfg.outside f n then some ⟨f, n⟩ else none
  | _ => none

/-- The lines that are registered with numbers outside the text of their files. -/
def outliers (cfg : ReporterSetup) (evs : List Reporter.Event) : List LineRef :=
  (evs.filterMap cfg.outlier).dedup

theorem mem_outliers {evs : List Reporter.Event} {ref : LineRef} : ref ∈ cfg.outliers evs ↔
    evs.any (Reporter.registers cfg ref) = true ∧ cfg.host.fileExists ref.file = true ∧
      cfg.outside ref.file ref.lineNr = true := by
  obtain ⟨f, n⟩ := ref
  rw [outliers, List.mem_dedup, List.mem_filterMap, List.any_eq_true]
  constructor
  · rintro ⟨ev, hev, hout⟩
    cases ev with
    | line g m a =>
      rw [outlier] at hout
      split at hout
      next hcond =>
        simp only [Option.some.injEq, LineRef.mk.injEq] at hout
        obtain ⟨rfl, rfl⟩ := hout
        simp only [Bool.and_eq_true] at hcond
        exact ⟨⟨_, hev, by simp [Reporter.registers, hcond.1.1]⟩, hcond.1.2, hcond.2⟩
      next => simp at hout
    | _ => simp [outlier] at hout
  · rintro ⟨⟨ev, hev, hreg⟩, hex, hout⟩
    refine ⟨ev, hev, ?_⟩
    cases ev with
    | line g m a =>
      simp only [Reporter.registers, Bool.and_eq_true, decide_eq_true_eq] at hreg
      obtain ⟨⟨hf, rfl⟩, rfl⟩ := hreg
      simp only [outlier, hf, hex, hout, Bool.and_self, if_true]
    | _ => simp [Reporter.registers] at hreg

theorem excluded_of_outside {n : U32} (h : cfg.outside f n = true) :
    cfg.excluded ⟨f, n⟩ = false := by
  have hlen : ∀ (handler : FileLineHandler) (texts : List Text),
      (handler.verdicts f texts).length = texts.length := by
    intro handler texts
    induction texts generalizing handler with
    | nil => rfl
    | cons text texts ih => exact congrArg (· + 1) (ih _)
  rw [outside, Bool.or_eq_true, decide_eq_true_eq, decide_eq_true_eq] at h
  rw [excluded]
  rcases h with rfl | h
  · rfl
  · dsimp only
    rw [List.getElem?_eq_none (by rw [hlen]; omega)]
    simp

/-- The numbers of the lines of the text. -/
def textNrs (cfg : ReporterSetup) (f : Text) : List U32 :=
  (List.range' 1 (cfg.host.getLines f).length).map (BitVec.ofNat 32)

section TextNrs

variable (hopens : Reporter.Opens cfg f)
include hopens

theorem mem_textNrs {n : U32} : n ∈ cfg.textNrs f ↔ cfg.outside f n = false := by
  unfold Reporter.Opens at hopens
  have hzero : n = 0 ↔ n.toNat = 0 := by rw [← BitVec.toNat_inj]; rfl
  rw [textNrs, List.mem_map, outside, Bool.or_eq_false_iff, decide_eq_false_iff_not,
    decide_eq_false_iff_not, hzero]
  constructor
  · rintro ⟨i, hi, rfl⟩
    rw [List.mem_range'_1] at hi
    rw [BitVec.toNat_ofNat, Nat.mod_eq_of_lt (by omega)]
    omega
  · rintro ⟨hne, hle⟩
    exact ⟨n.toNat, List.mem_range'_1.mpr (by omega), by simp⟩

theorem nodup_textNrs : (cfg.textNrs f).Nodup := by
  unfold Reporter.Opens at hopens
  refine List.Nodup.map_on (fun i hi j hj heq => ?_) List.nodup_range'
  rw [List.mem_range'_1] at hi hj
  have hnat := congrArg BitVec.toNat heq
  rwa [BitVec.toNat_ofNat, BitVec.toNat_ofNat, Nat.mod_eq_of_lt (by omega),
    Nat.mod_eq_of_lt (by omega)] at hnat

/-- The lines with `p` are those in the text and those outside it. -/
theorem card_wordsWith (p : U32 → Bool) : (Counting.wordsWith p).card =
    (cfg.textNrs f).countP p + (Counting.wordsWith fun n => p n && cfg.outside f n).card := by
  have hsplit : Counting.wordsWith p = ((cfg.textNrs f).filter p).toFinset ∪
      Counting.wordsWith fun n => p n && cfg.outside f n := by
    ext n
    rw [Finset.mem_union, List.mem_toFinset, List.mem_filter, mem_textNrs hopens,
      Counting.mem_wordsWith, Counting.mem_wordsWith]
    cases p n <;> cases cfg.outside f n <;> simp
  have hdisjoint : Disjoint ((cfg.textNrs f).filter p).toFinset
      (Counting.wordsWith fun n => p n && cfg.outside f n) := by
    rw [Finset.disjoint_left]
    intro n hn hout
    rw [List.mem_toFinset, List.mem_filter, mem_textNrs hopens] at hn
    rw [Counting.mem_wordsWith, hn.1, Bool.and_false] at hout
    simp at hout
  rw [hsplit, Finset.card_union_of_disjoint hdisjoint,
    List.toFinset_card_of_nodup ((nodup_textNrs hopens).filter p), List.countP_eq_length_filter]

end TextNrs

end ReporterSetup

namespace Reports

open Reporter

variable {cfg : ReporterSetup} {s : Reporter} {cs : List Reporter.Event} {w : WriterBase}

/-- The lines outside the texts are counted file by file. -/
theorem length_outliers (h : Reporter.run cfg cs = some s) (q : LineRef → Bool) :
    ((cfg.outliers cs).filter q).length = ((s.shownFiles cfg).map fun f =>
      (Counting.wordsWith fun n => (s.lineIsCode f n && q ⟨f, n⟩) && cfg.outside f n).card).sum := by
  have hwf := (run_frame h).1
  have hnodup : ((cfg.outliers cs).filter q).Nodup := (List.nodup_dedup _).filter q
  have hshown : (s.shownFiles cfg).Nodup := hwf.names_nodup.filter _
  have hmem : ∀ ref ∈ ((cfg.outliers cs).filter q).toFinset,
      ref.file ∈ (s.shownFiles cfg).toFinset := by
    intro ref href
    rw [List.mem_toFinset, List.mem_filter, ReporterSetup.mem_outliers] at href
    obtain ⟨⟨hreg, hex, -⟩, -⟩ := href
    obtain ⟨a, ha⟩ := exists_line_of_registers hreg
    have hfilter : cfg.runFilters ref.file = true := by
      obtain ⟨ev, -, hev⟩ := List.any_eq_true.mp hreg
      cases ev with
      | line f n a =>
        simp only [registers, Bool.and_eq_true, decide_eq_true_eq] at hev
        exact hev.1.2 ▸ hev.1.1
      | _ => simp [registers] at hev
    rw [List.mem_toFinset, shownFiles, List.mem_filter, hwf.mem_names]
    exact ⟨isSome_files_of_line h hfilter ha, hex⟩
  rw [← List.toFinset_card_of_nodup hnodup, Finset.card_eq_sum_card_fiberwise hmem,
    List.sum_toFinset _ hshown]
  congr 1
  apply List.map_congr_left
  intro f hf
  have hex : cfg.host.fileExists f = true := (List.mem_filter.mp hf).2
  refine Finset.card_nbij LineRef.lineNr ?_ ?_ ?_
  · intro ref href
    rw [Finset.mem_coe, Finset.mem_filter, List.mem_toFinset, List.mem_filter,
      ReporterSetup.mem_outliers] at href
    obtain ⟨⟨⟨hreg, -, hout⟩, hq⟩, rfl⟩ := href
    rw [Finset.mem_coe, Counting.mem_wordsWith, run_lineIsCode h ref,
      ReporterSetup.excluded_of_outside hout, hreg, hq, hout]
    rfl
  · intro ref href ref' href' heq
    have hfile := (Finset.mem_filter.mp href).2.trans (Finset.mem_filter.mp href').2.symm
    cases ref
    cases ref'
    rw [LineRef.mk.injEq]
    exact ⟨hfile, heq⟩
  · intro n hn
    have hn' := Counting.mem_wordsWith.mp hn
    rw [Bool.and_eq_true, Bool.and_eq_true, run_lineIsCode h ⟨f, n⟩, Bool.and_eq_true] at hn'
    refine ⟨⟨f, n⟩, ?_, rfl⟩
    rw [Finset.mem_coe, Finset.mem_filter, List.mem_toFinset, List.mem_filter,
      ReporterSetup.mem_outliers]
    exact ⟨⟨⟨hn'.1.1.2, hex, hn'.2⟩, hn'.1.2⟩, rfl⟩

/-- The totals over the lines of the texts. -/
def textTotals (cfg : ReporterSetup) (s : Reporter) : LineCount :=
  { code := BitVec.ofNat 32
      ((s.shownFiles cfg).map fun f => (cfg.textNrs f).countP (s.lineIsCode f)).sum
    executed := BitVec.ofNat 32
      ((s.shownFiles cfg).map fun f => (cfg.textNrs f).countP (s.isExecuted cfg f)).sum }

theorem opens_of_shown (h : Reporter.run cfg cs = some s) {f : Text}
    (hf : f ∈ s.shownFiles cfg) : Opens cfg f := by
  obtain ⟨file, hfile⟩ := Option.isSome_iff_exists.mp
    (((run_frame h).1.mem_names f).mp (List.mem_filter.mp hf).1)
  exact ((run_sized h).1 f file.lines.length (by rw [sizeOf?, hfile]; rfl)).2

/-- The loops of the writers visit the lines of the text. -/
theorem lineNrs_eq (h : Reporter.run cfg cs = some s) (hw : w.Follows cfg s) {file : WriterFile}
    (hfile : file ∈ w.files) : file.lineNrs = cfg.textNrs file.name := by
  have hopens := opens_of_shown h (hw.names ▸ List.mem_map_of_mem hfile)
  unfold Opens at hopens
  rw [WriterFile.lineNrs, hw.last file hfile, BitVec.toNat_ofNat, Nat.mod_eq_of_lt hopens,
    Nat.add_sub_cancel, ReporterSetup.textNrs]

theorem sum_files (h : Reporter.run cfg cs = some s) (hw : w.Follows cfg s)
    (p : Text → U32 → Bool) :
    (w.files.map fun file => file.lineNrs.countP (p file.name)).sum =
      ((s.shownFiles cfg).map fun f => (cfg.textNrs f).countP (p f)).sum := by
  rw [← hw.names, List.map_map]
  refine congrArg List.sum (List.map_congr_left fun file hfile => ?_)
  rw [lineNrs_eq h hw hfile]
  rfl

theorem names_nodup (h : Reporter.run cfg cs = some s) (hw : w.Follows cfg s) :
    (w.files.map (·.name)).Nodup :=
  hw.names ▸ (run_frame h).1.names_nodup.filter _

/-- A writer that stores the counters of its files shows the totals over the texts. -/
theorem totals_store (h : Reporter.run cfg cs = some s) (hw : w.Follows cfg s)
    {one : WriterFile → WriterFile}
    (hone : ∀ file, file.Fresh s → one file = file.store (file.counted cfg s))
    (it : IterationOrder) :
    ({ files := w.files.map one : WriterBase }).totals it = textTotals cfg s := by
  have hw' := hw.store hone
  have hcounters : ∀ file ∈ w.files.map one,
      file.codeLines = BitVec.ofNat 32 (file.lineNrs.countP (s.lineIsCode file.name)) ∧
        file.executedLines =
          BitVec.ofNat 32 (file.lineNrs.countP (s.isExecuted cfg file.name)) := by
    intro g hg
    obtain ⟨file, hfile, rfl⟩ := List.mem_map.mp hg
    rw [hone file (hw.fresh file hfile)]
    exact ⟨rfl, rfl⟩
  rw [WriterBase.totals_eq (names_nodup h hw') hcounters, sum_files h hw' s.lineIsCode,
    sum_files h hw' (s.isExecuted cfg)]
  rfl

theorem json_write_eq (h : Reporter.run cfg cs = some s) (hw : w.Follows cfg s)
    (it : IterationOrder) : JsonWriter.write cfg s w it = textTotals cfg s := by
  rw [JsonWriter.write_eq (names_nodup h hw), sum_files h hw s.lineIsCode,
    sum_files h hw (s.isExecuted cfg)]
  rfl

/-- The reporter counts the lines of the texts and the lines outside them. -/
theorem summary_eq (h : Reporter.run cfg cs = some s) (it : IterationOrder) :
    ((s.getExecutionSummary cfg it).lines = BitVec.ofNat 32
      (((s.shownFiles cfg).map fun f => (cfg.textNrs f).countP (s.lineIsCode f)).sum +
        (cfg.outliers cs).length)) ∧
    ((s.getExecutionSummary cfg it).executedLines = BitVec.ofNat 32
      (((s.shownFiles cfg).map fun f => (cfg.textNrs f).countP (s.isExecuted cfg f)).sum +
        ((cfg.outliers cs).filter fun ref => s.isExecuted cfg ref.file ref.lineNr).length)) := by
  have hsplit : ∀ p : Text → U32 → Bool,
      ((s.shownFiles cfg).map fun f => (Counting.wordsWith (p f)).card).sum =
        ((s.shownFiles cfg).map fun f => (cfg.textNrs f).countP (p f)).sum +
          ((s.shownFiles cfg).map fun f =>
            (Counting.wordsWith fun n => p f n && cfg.outside f n).card).sum := by
    intro p
    rw [← List.sum_map_add]
    refine congrArg List.sum (List.map_congr_left fun f hf => ?_)
    exact ReporterSetup.card_wordsWith (opens_of_shown h hf) (p f)
  rw [getExecutionSummary_eq h]
  refine ⟨congrArg (BitVec.ofNat 32) ((hsplit s.lineIsCode).trans ?_),
    congrArg (BitVec.ofNat 32) ((hsplit (s.isExecuted cfg)).trans ?_)⟩
  · rw [← List.filter_true (cfg.outliers cs), length_outliers h]
    simp only [Bool.and_true]
  · rw [length_outliers h]
    simp only [isExecuted, ← Bool.and_assoc, Bool.and_self]

/-- The summary and the reports show the same totals if and only if the lines outside the texts of
their files, and those of them that were executed, do not count in 32 bits. -/
theorem totals_agree_iff (cfg : ReporterSetup) (it : IterationOrder) (evs : List Event)
    (r : Reports) (h : run cfg it evs = some r) (it₁ it₂ it₃ it₄ : IterationOrder) :
    ((HtmlWriter.write cfg r.reporter r.html it₂).2 =
        ⟨(r.reporter.getExecutionSummary cfg it₁).lines,
          (r.reporter.getExecutionSummary cfg it₁).executedLines⟩ ∧
      (CoberturaWriter.write cfg r.reporter r.cobertura it₃).2 =
        ⟨(r.reporter.getExecutionSummary cfg it₁).lines,
          (r.reporter.getExecutionSummary cfg it₁).executedLines⟩ ∧
      JsonWriter.write cfg r.reporter r.json it₄ =
        ⟨(r.reporter.getExecutionSummary cfg it₁).lines,
          (r.reporter.getExecutionSummary cfg it₁).executedLines⟩) ↔
      2 ^ 32 ∣ (cfg.outliers (calls evs)).length ∧
      2 ^ 32 ∣ ((cfg.outliers (calls evs)).filter fun ref =>
        r.reporter.isExecuted cfg ref.file ref.lineNr).length := by
  have hfollows := run_follows h
  have hrun := hfollows.reporter
  obtain ⟨hlines, hexecuted⟩ := summary_eq hrun it₁
  have hhtml : (HtmlWriter.write cfg r.reporter r.html it₂).2 = textTotals cfg r.reporter :=
    totals_store hrun hfollows.html (fun _ => HtmlWriter.writeOne_eq) it₂
  have hcobertura : (CoberturaWriter.write cfg r.reporter r.cobertura it₃).2 =
      textTotals cfg r.reporter :=
    totals_store hrun hfollows.cobertura (fun _ => CoberturaWriter.sumOne_eq) it₃
  rw [hhtml, hcobertura, json_write_eq hrun hfollows.json, hlines, hexecuted, and_self, and_self,
    textTotals, LineCount.mk.injEq, Counting.ofNat_eq_ofNat_add_iff,
    Counting.ofNat_eq_ofNat_add_iff]

/-- A program whose only file has become one line long. -/
def shortSetup : ReporterSetup where
  host := { Host.bare with
    fileExists := fun _ => true
    readFile := fun _ => some (ascii "x\n") }
  runFilters _ := true
  excludeLine := []
  excludeRegion := []
  hashFilename := true
  maxPossibleHits := .limited
  checksum := 0
  cleanOutput := false
  database := none

/-- One line in the text, hit, with a report in between. -/
def insideRun : List Event :=
  [.call (.line (ascii "/a") 1 16), .write, .call (.hit 16 1)]

theorem totals_agree_inside :
    ∃ r, run shortSetup foundOrder insideRun = some r ∧
      JsonWriter.write shortSetup r.reporter r.json foundOrder =
        ⟨(r.reporter.getExecutionSummary shortSetup foundOrder).lines,
          (r.reporter.getExecutionSummary shortSetup foundOrder).executedLines⟩ := by
  obtain ⟨r, hr⟩ : ∃ r, run shortSetup foundOrder insideRun = some r := ⟨_, rfl⟩
  have hnone : shortSetup.outliers (calls insideRun) = [] := by decide
  refine ⟨r, hr, ((totals_agree_iff shortSetup foundOrder insideRun r hr foundOrder foundOrder
    foundOrder foundOrder).mpr ?_).2.2⟩
  rw [hnone]
  exact ⟨Nat.dvd_zero _, Nat.dvd_zero _⟩

/-- Line 10 of a file of one line is in the summary and in no report. -/
theorem totals_differ_outside :
    (run shortSetup foundOrder [.call (.line (ascii "/a") 10 16), .call (.hit 16 1)]).map (fun r =>
      (r.reporter.getExecutionSummary shortSetup foundOrder,
        (HtmlWriter.write shortSetup r.reporter r.html foundOrder).2,
        (CoberturaWriter.write shortSetup r.reporter r.cobertura foundOrder).2,
        JsonWriter.write shortSetup r.reporter r.json foundOrder)) =
      some (⟨1, 1, true⟩, ⟨0, 0⟩, ⟨0, 0⟩, ⟨0, 0⟩) := by
  decide

end Reports

end Kcov
