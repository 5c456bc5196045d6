import Kcov.Engines.Bash

/-! Markers of scripts whose paths contain the separator of the marker. -/

namespace Kcov.Bash

open Bytes Reporter

/-- The path of a script. -/
structure ScriptPath where
  path : Text
  noNul : 0 ∉ path
  noLine : newline ∉ path

/-- What bash makes of `kcov@${BASH_SOURCE}@${LINENO}@`. -/
def marker (file : Text) (line : Nat) : Text :=
  ascii "kcov@" ++ (file ++ atSign :: decimal line ++ [atSign])

/-- The engine delivers a breakpoint for the line and the file that the marker was made for. -/
def Decodes (host : Host) (codeLines : List Text → List U32) (file : Text) (line : Nat) : Prop :=
  ∀ (s : State) (text : Text), s.inputType = .normal → s.stderr = marker file line ++ text →
    ∃ ref : LineRef, ref.file = host.realPath file ∧ ref.lineNr.toNat = line ∧
      ∃ t, s.checkEvents host codeLines = (true, t) ∧
        t.base = s.base.reportFile host codeLines ref.file ∧
        t.events = s.events ++ [⟨.breakpoint, 1, t.base.address host ref⟩]

/-- The parts `a` and `b` of a marker name the line. -/
def NamesLine (host : Host) (a b file : Text) (line : Nat) : Prop :=
  host.realPath a = host.realPath file ∧ stringIsIntegerAnyBase b = true ∧
    ((stringToInteger b).getD 0).setWidth 32 = BitVec.ofNat 32 line

/-- The path has no separator, or what is in front of its separators names the line as well. -/
def Separable (host : Host) (file : Text) (line : Nat) : Prop :=
  atSign ∉ file ∨ ∃ a b rest,
    splitString atSign (file ++ [atSign]) = a :: b :: rest ∧ NamesLine host a b file line

namespace ScriptEngineBase

variable {host : Host} {codeLines : List Text → List U32} {e : ScriptEngineBase}

theorem parseFile_reportedFiles (filename : Text) :
    (e.parseFile host codeLines filename).reportedFiles = e.reportedFiles := by
  rw [parseFile]
  induction codeLines (host.getLines filename) generalizing e with
  | nil => rfl
  | cons n ns ih =>
    rw [List.foldl_cons, ih, fileLineFound]
    split <;> rfl

theorem mem_reportFile {f filename : Text} :
    f ∈ (e.reportFile host codeLines filename).reportedFiles ↔
      f ∈ e.reportedFiles ∨ f = filename := by
  rw [reportFile]
  split
  · next h =>
    constructor
    · exact Or.inl
    · rintro (hf | rfl)
      · exact hf
      · exact List.contains_iff_mem.mp h
  · rw [parseFile_reportedFiles, List.mem_append, List.mem_singleton]

end ScriptEngineBase

theorem getLineId_inj {host : Host} {file : Text} {n m : U32}
    (h : getLineId host ⟨file, n⟩ = getLineId host ⟨file, m⟩) : n = m := by
  have hmask : ∀ i : Fin 32, (4294967295#64)[i.val + 32] = false := by decide
  apply BitVec.eq_of_getLsbD_eq
  intro i hi
  have hbit := congrArg (fun x : U64 => x.getLsbD (i + 32)) h
  simpa [getLineId, hmask ⟨i, hi⟩, hi, show i + 32 < 64 by omega] using hbit

/-- The engine has parsed a file, in which one line is code. -/
def oneLine (host : Host) (ref : LineRef) : ScriptEngineBase :=
  ⟨[ref.file], [(getLineId host ref, 1)], [], []⟩

theorem oneLine_reportFile {host : Host} {codeLines : List Text → List U32} {ref : LineRef} :
    (oneLine host ref).reportFile host codeLines ref.file = oneLine host ref :=
  if_pos (List.contains_iff_mem.mpr (List.mem_singleton_self ref.file))

/-- No other line of the file has the address of the line. -/
theorem oneLine_address {host : Host} {file : Text} {n m : U32}
    (h : (oneLine host ⟨file, m⟩).address host ⟨file, n⟩ =
      (oneLine host ⟨file, m⟩).address host ⟨file, m⟩) : n = m := by
  rw [ScriptEngineBase.address, ScriptEngineBase.address, oneLine, List.lookup_cons,
    List.lookup_cons, beq_self_eq_true] at h
  by_contra hne
  have hid : (getLineId host ⟨file, n⟩ == getLineId host ⟨file, m⟩) = false :=
    beq_eq_false_iff_ne.mpr fun heq => hne (getLineId_inj heq)
  rw [hid] at h
  exact absurd h (show (0 : U64) ≠ 1 by decide)

section Decoding

variable {host : Host} {codeLines : List Text → List U32} {file : ScriptPath} {line : Nat}

/-- The engine sees the first two parts of the marker behind `kcov`. -/
theorem checkEvents_parts (host : Host) (codeLines : List Text → List U32) {a b rest : Text}
    (hparts : file.path ++ atSign :: decimal line ++ [atSign] =
      a ++ atSign :: b ++ atSign :: rest)
    (ha : atSign ∉ a) (hb : atSign ∉ b) {s : State} {text : Text} (hnormal : s.inputType = .normal)
    (hstderr : s.stderr = marker file.path line ++ text) :
    ∃ stderr inputType, s.checkEvents host codeLines =
      State.reportParts host codeLines { s with stderr, inputType } a b := by
  have hplain : ∀ c ∈ a ++ atSign :: b ++ atSign :: rest, c ≠ newline ∧ c ≠ 0 := by
    rw [← hparts]
    intro c hc
    simp only [List.mem_append, List.mem_cons, List.not_mem_nil, or_false] at hc
    rcases hc with (hc | rfl | hc) | rfl
    · exact ⟨fun h => file.noLine (h ▸ hc), fun h => file.noNul (h ▸ hc)⟩
    · decide
    · obtain ⟨-, -, -, hnewline, hzero⟩ := decimal_plain hc
      exact ⟨hnewline, hzero⟩
    · decide
  have hmarker : s.stderr = List.replicate 0 0x6b ++ ascii "kcov@" ++
      (a ++ atSign :: b ++ atSign :: (rest ++ text)) := by
    rw [hstderr, marker, hparts]
    simp
  exact ⟨_, _, State.checkEvents_marker hnormal hmarker
    (fun c hc => ⟨fun h => ha (h ▸ hc), hplain c (by simp [hc])⟩)
    (fun c hc => ⟨fun h => hb (h ▸ hc), hplain c (by simp [hc])⟩)⟩

/-- The line that the engine reads in the parts `a` and `b`. -/
def partsRef (host : Host) (a b : Text) : LineRef :=
  ⟨host.realPath a, ((stringToInteger b).getD 0).setWidth 32⟩

/-- If the marker is decoded, then the line that is read stands for the right one. -/
theorem Decodes.report_eq {a b rest : Text} (h : Decodes host codeLines file.path line)
    (hparts : file.path ++ atSign :: decimal line ++ [atSign] =
      a ++ atSign :: b ++ atSign :: rest)
    (ha : atSign ∉ a) (hb : atSign ∉ b) (base : ScriptEngineBase) :
    isHelper (host.realPath a) = false ∧ stringIsIntegerAnyBase b = true ∧
      ∃ ref : LineRef, ref.file = host.realPath file.path ∧ ref.lineNr.toNat = line ∧
        base.reportFile host codeLines (host.realPath a) =
          base.reportFile host codeLines ref.file ∧
        (base.reportFile host codeLines (host.realPath a)).address host (partsRef host a b) =
          (base.reportFile host codeLines (host.realPath a)).address host ref := by
  obtain ⟨ref, hfile, hline, t, hcheck, hbase, hevents⟩ :=
    h (begun base (marker file.path line)) [] rfl (List.append_nil _).symm
  obtain ⟨stderr, inputType, hparse⟩ := checkEvents_parts host codeLines
    hparts ha hb (s := begun base (marker file.path line)) rfl (List.append_nil _).symm
  rw [hparse, State.reportParts] at hcheck
  dsimp only at hcheck
  split at hcheck
  · -- a skipped marker has no event
    cases hcheck
    cases hevents
  split at hcheck
  · cases hcheck
  · next hhelper hint =>
    cases hcheck
    refine ⟨by simpa using hhelper, by simpa using hint, ref, hfile, hline, hbase, ?_⟩
    simpa [State.report, begun, partsRef] using hevents

/-- A marker is decoded by what its first two parts say. -/
theorem decodes_iff_parts {a b rest : Text}
    (hparts : file.path ++ atSign :: decimal line ++ [atSign] =
      a ++ atSign :: b ++ atSign :: rest)
    (ha : atSign ∉ a) (hb : atSign ∉ b) : Decodes host codeLines file.path line ↔
      line < 2 ^ 32 ∧ isHelper (host.realPath file.path) = false ∧
        NamesLine host a b file.path line := by
  constructor
  · intro h
    obtain ⟨hscript, hint, ref, hfile, hline, hbase, -⟩ := h.report_eq hparts ha hb .empty
    have hsame : host.realPath a = host.realPath file.path := by
      have hmem : host.realPath a ∈ (ScriptEngineBase.empty.reportFile host codeLines
          (host.realPath a)).reportedFiles :=
        ScriptEngineBase.mem_reportFile.mpr (Or.inr rfl)
      rw [hbase, ScriptEngineBase.mem_reportFile, hfile] at hmem
      simpa [ScriptEngineBase.empty] using hmem
    refine ⟨hline ▸ ref.lineNr.isLt, hsame ▸ hscript, hsame, hint, ?_⟩
    -- where the table has the right line only, no other line is found at its address
    obtain ⟨-, -, ⟨f, n⟩, hfile, hline, -, haddress⟩ := h.report_eq hparts ha hb
      (oneLine host ⟨host.realPath file.path, BitVec.ofNat 32 line⟩)
    have hnumber : n = BitVec.ofNat 32 line := by
      rw [← hline, BitVec.ofNat_toNat, BitVec.setWidth_eq]
    cases hfile
    rw [partsRef, hsame, oneLine_reportFile, hnumber] at haddress
    exact oneLine_address haddress
  · rintro ⟨hline, hscript, hfile, hint, hnumber⟩ s text hnormal hstderr
    obtain ⟨stderr, inputType, hcheck⟩ :=
      checkEvents_parts host codeLines hparts ha hb hnormal hstderr
    rw [hcheck, State.reportParts]
    simp only [hfile, hscript, hint, hnumber, Bool.not_true, Bool.false_eq_true, if_false]
    refine ⟨⟨host.realPath file.path, BitVec.ofNat 32 line⟩, rfl, ?_, _, rfl, rfl, rfl⟩
    rw [BitVec.toNat_ofNat, Nat.mod_eq_of_lt hline]

end Decoding

/-- A marker is decoded if and only if the line number is an `unsigned int`, the script is none that
is skipped, and the separators in its path do no harm. -/
theorem decodes_iff (host : Host) (codeLines : List Text → List U32) (file : ScriptPath)
    (line : Nat) : Decodes host codeLines file.path line ↔
      line < 2 ^ 32 ∧ isHelper (host.realPath file.path) = false ∧
        Separable host file.path line := by
  by_cases hat : atSign ∈ file.path
  · obtain ⟨a, tail, hsplit, ha⟩ := List.eq_append_cons_of_mem hat
    obtain ⟨b, rest, htail, hb⟩ :=
      List.eq_append_cons_of_mem (List.mem_append_right tail (List.mem_singleton_self atSign))
    have hfields : file.path ++ [atSign] = a ++ atSign :: (b ++ atSign :: rest) := by
      rw [hsplit, List.append_assoc, List.cons_append, htail]
    have hparts : file.path ++ atSign :: decimal line ++ [atSign] =
        a ++ atSign :: b ++ atSign :: (rest ++ decimal line ++ [atSign]) := by
      rw [show file.path ++ atSign :: decimal line = file.path ++ [atSign] ++ decimal line by simp,
        hfields]
      simp
    have hstrings : splitString atSign (file.path ++ [atSign]) =
        a :: b :: splitString atSign rest := by
      rw [hfields, splitString_item ha, splitString_item hb]
    have hseparable : Separable host file.path line ↔ NamesLine host a b file.path line := by
      constructor
      · rintro (hnot | ⟨a', b', rest', heq, hnames⟩)
        · exact absurd hat hnot
        · rw [hstrings] at heq
          cases heq
          exact hnames
      · exact fun hnames => Or.inr ⟨a, b, _, hstrings, hnames⟩
    rw [decodes_iff_parts hparts ha hb, hseparable]
  · have hdecimal : atSign ∉ decimal line := fun h => (decimal_plain h).1 rfl
    have hparts : file.path ++ atSign :: decimal line ++ [atSign] =
        file.path ++ atSign :: decimal line ++ atSign :: [] := rfl
    rw [decodes_iff_parts hparts hat hdecimal]
    refine and_congr_right fun hline => and_congr_right fun _ => ?_
    have hlong : line < 2 ^ 64 := hline.trans (by decide)
    refine iff_of_true ⟨rfl, stringIsIntegerAnyBase_decimal hlong, ?_⟩ (Or.inl hat)
    rw [stringToInteger_decimal hlong]
    exact BitVec.setWidth_ofNat_of_le (by decide) line

/-- The engine stops reading at a line of `/a@b.sh`. -/
theorem not_decodes_separator : ¬Decodes Host.bare (fun _ => []) (ascii "/a@b.sh") 1 := by
  intro h
  obtain ⟨ref, -, -, t, hcheck, -⟩ := h (begun .empty (marker (ascii "/a@b.sh") 1)) [] rfl rfl
  have hstop : ((begun .empty (marker (ascii "/a@b.sh") 1)).checkEvents Host.bare
      (fun _ => [])).1 = false := by
    decide
  rw [hcheck] at hstop
  cases hstop

end Kcov.Bash
