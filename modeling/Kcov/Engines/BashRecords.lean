import Kcov.Engines.Bash

/-! Trace records whose quoted arguments go over several lines. -/

namespace Kcov.Bash

open Bytes Reporter

/-! ### The records -/

/-- A part of a command, as bash quotes it. -/
inductive Piece where
  | plain (c : Byte) (hquote : c ≠ apostrophe) (hbackslash : c ≠ backslash) (hline : c ≠ newline)
  | escaped (c : Byte) (hline : c ≠ newline)
  | quoted (s : Text) (hquote : apostrophe ∉ s)

def Piece.text : Piece → Text
  | plain c _ _ _ => [c]
  | escaped c _ => [backslash, c]
  | quoted s _ => apostrophe :: (s ++ [apostrophe])

def commandText (ps : List Piece) : Text := ps.flatMap Piece.text

/-- The expansion of `PS4` for a line, and the command. -/
structure Record where
  /-- How often bash repeats the first letter of `PS4`. -/
  depth : Nat
  file : Text
  line : Nat
  command : List Piece
  plainFile : ∀ b ∈ file, b ≠ atSign ∧ b ≠ apostrophe ∧ b ≠ backslash ∧ b ≠ newline

namespace Record

variable (r : Record)

def text : Text :=
  List.replicate r.depth 0x6b ++ ascii "kcov@" ++
    (r.file ++ atSign :: decimal r.line ++ atSign :: commandText r.command) ++ [newline]

/-- The marker of the record. -/
def head : Text :=
  List.replicate r.depth 0x6b ++ ascii "kcov@" ++ (r.file ++ atSign :: decimal r.line ++ [atSign])

/-- The record is about the line at `ref`. -/
def IsAbout (host : Host) (ref : LineRef) : Prop :=
  ref.file = host.realPath r.file ∧ ref.lineNr.toNat = r.line

/-- The record does not come from a helper script. -/
def ofScript (host : Host) : Bool := !isHelper (host.realPath r.file)

end Record

/-- One breakpoint for each line, with the address that the line has once its file is parsed. -/
def breakpoints (host : Host) (codeLines : List Text → List U32) :
    ScriptEngineBase → List LineRef → List (EngineEvent U64)
  | _, [] => []
  | base, ref :: refs =>
    let base := base.reportFile host codeLines ref.file
    ⟨.breakpoint, 1, base.address host ref⟩ :: breakpoints host codeLines base refs

/-- After all lines of the records, the engine has delivered one breakpoint for each record, and
expects a marker. -/
def Recognises (host : Host) (codeLines : List Text → List U32) (rs : List Record) : Prop :=
  ∀ (s : State) (rest : Text), s.inputType = .normal → s.stderr = rs.flatMap Record.text ++ rest →
    ∃ t refs, s.checkEventsTimes host codeLines ((rs.flatMap Record.text).count newline) = some t ∧
      t.stderr = rest ∧ t.inputType = .normal ∧
      List.Forall₂ (Record.IsAbout · host) rs refs ∧
      t.events = s.events ++ breakpoints host codeLines s.base refs

/-! ### The scanner -/

section Scanner

variable {t : InputType} {s u v : Text} {ps : List Piece}

theorem getInputType_plain (h : ∀ b ∈ u, b ≠ apostrophe ∧ b ≠ backslash) :
    getInputType t (u ++ s) = getInputType t s := by
  induction u with
  | nil => rfl
  | cons b u ih =>
    obtain ⟨hquote, hbackslash⟩ := h b List.mem_cons_self
    rw [List.cons_append, getInputType_cons fun h => hbackslash h.1, if_neg hquote,
      ih fun b hb => h b (List.mem_cons_of_mem _ hb)]

/-- Between single quotes a backslash is a character like any other. -/
theorem getInputType_quoted (h : apostrophe ∉ u) :
    getInputType .singleQuote (u ++ s) = getInputType .singleQuote s := by
  induction u with
  | nil => rfl
  | cons b u ih =>
    rw [List.mem_cons, not_or] at h
    rw [List.cons_append, getInputType_cons (fun h => by cases h.2), if_neg (Ne.symm h.1), ih h.2]

theorem Piece.getInputType_text (p : Piece) :
    getInputType .normal (p.text ++ s) = getInputType .normal s := by
  cases p with
  | plain c hquote hbackslash hline =>
    exact getInputType_plain (u := [c]) (by simp [hquote, hbackslash])
  | escaped c hline => exact getInputType_escaped
  | quoted u hquote =>
    rw [text, List.cons_append, getInputType_open, List.append_assoc, getInputType_quoted hquote,
      List.singleton_append, getInputType_close]

theorem getInputType_command : getInputType .normal (commandText ps ++ s) = getInputType .normal s := by
  induction ps with
  | nil => rfl
  | cons p ps ih =>
    rw [commandText, List.flatMap_cons, List.append_assoc, p.getInputType_text, ← commandText, ih]

end Scanner

/-! ### The rest of a command -/

/-- The rest of a command, behind which the scanner is in the state `t`. -/
inductive Remainder : InputType → Text → Prop where
  | normal (ps : List Piece) : Remainder .normal (commandText ps)
  | quoted {s : Text} (hquote : apostrophe ∉ s) (ps : List Piece) :
      Remainder .singleQuote (s ++ apostrophe :: commandText ps)

namespace Remainder

variable {t : InputType} {u v w : Text}

theorem getInputType_line (h : Remainder t u) : getInputType t (u ++ [newline]) = .normal := by
  cases h with
  | normal ps => exact getInputType_command
  | quoted hquote ps =>
    rw [List.append_assoc, getInputType_quoted hquote, List.cons_append, getInputType_close]
    exact getInputType_command

/-- What is left of a quoted text at a newline is quoted as well. -/
theorem split_quoted {ps : List Piece} {s : Text} (hquote : apostrophe ∉ s)
    (hps : ∀ {v w}, commandText ps = v ++ newline :: w →
      getInputType .normal (v ++ [newline]) = .singleQuote ∧ Remainder .singleQuote w)
    (h : s ++ apostrophe :: commandText ps = v ++ newline :: w) :
    getInputType .singleQuote (v ++ [newline]) = .singleQuote ∧ Remainder .singleQuote w := by
  rcases List.append_eq_append_iff.mp h with ⟨v', rfl, hv⟩ | ⟨s', rfl, hs⟩
  · -- the newline is behind the quoted text
    cases v' with
    | nil => cases hv
    | cons b v' =>
      obtain ⟨rfl, hrest⟩ := List.cons.inj hv
      rw [List.append_assoc, getInputType_quoted hquote, List.cons_append, getInputType_close]
      exact hps hrest
  · cases s' with
    | nil => cases hs
    | cons b s' =>
      obtain ⟨rfl, rfl⟩ := List.cons.inj hs
      simp only [List.mem_append, List.mem_cons, not_or] at hquote
      rw [getInputType_quoted hquote.1]
      exact ⟨rfl, .quoted hquote.2.2 ps⟩

/-- A newline in a command is quoted. -/
theorem split_command {ps : List Piece} (h : commandText ps = v ++ newline :: w) :
    getInputType .normal (v ++ [newline]) = .singleQuote ∧ Remainder .singleQuote w := by
  induction ps generalizing v w with
  | nil => simp [commandText] at h
  | cons p ps ih =>
    rw [commandText, List.flatMap_cons, ← commandText] at h
    cases p with
    | plain c hquote hbackslash hline =>
      cases v with
      | nil => exact absurd (List.cons.inj h).1 hline
      | cons b v =>
        obtain ⟨rfl, hrest⟩ := List.cons.inj h
        have hplain := getInputType_plain (t := .normal) (s := v ++ [newline]) (u := [c])
          (by simp [hquote, hbackslash])
        exact ⟨hplain.trans (ih hrest).1, (ih hrest).2⟩
    | escaped c hline =>
      match v with
      | [] => cases h
      | [b] => exact absurd (List.cons.inj (List.cons.inj h).2).1 hline
      | b :: d :: v =>
        obtain ⟨hb, h⟩ := List.cons.inj h
        obtain ⟨rfl, hrest⟩ := List.cons.inj h
        rw [← hb, List.cons_append, List.cons_append, getInputType_escaped]
        exact ih hrest
    | quoted s hquote =>
      rw [Piece.text, List.cons_append, List.append_assoc, List.singleton_append] at h
      cases v with
      | nil => cases h
      | cons b v =>
        obtain ⟨rfl, hrest⟩ := List.cons.inj h
        rw [List.cons_append, getInputType_open]
        exact split_quoted hquote ih hrest

theorem split (h : Remainder t u) (hu : u = v ++ newline :: w) :
    getInputType t (v ++ [newline]) = .singleQuote ∧ Remainder .singleQuote w := by
  cases h with
  | normal ps => exact split_command hu
  | quoted hquote ps => exact split_quoted hquote split_command hu

end Remainder

/-! ### Reading a record -/

namespace Record

variable {r : Record}

theorem head_append (t : Text) : List.replicate r.depth 0x6b ++ ascii "kcov@" ++
    (r.file ++ atSign :: decimal r.line ++ atSign :: t) = r.head ++ t := by
  simp [head]

theorem text_eq : r.text = r.head ++ (commandText r.command ++ [newline]) := by
  rw [text, head_append, List.append_assoc]

theorem head_plain : ∀ b ∈ r.head, b ≠ apostrophe ∧ b ≠ backslash ∧ b ≠ newline := by
  refine State.forall_mem_head (by decide) (fun b hb => (r.plainFile b hb).2) fun b hb => ?_
  obtain ⟨-, hquote, hbackslash, hline, -⟩ := decimal_plain hb
  exact ⟨hquote, hbackslash, hline⟩

theorem count_newline : r.text.count newline = (commandText r.command).count newline + 1 := by
  have hhead : r.head.count newline = 0 :=
    List.count_eq_zero.mpr fun h => (head_plain _ h).2.2 rfl
  rw [text_eq, List.count_append, hhead, List.count_append, List.count_singleton_self, Nat.zero_add]

end Record

namespace State

variable {host : Host} {codeLines : List Text → List U32} {s : State} {rest : Text}

theorem checkEvents_quoted (hquote : s.inputType = .singleQuote) (hne : s.stderr ≠ []) :
    s.checkEvents host codeLines = (true,
      { s with
        stderr := (getLine s.stderr).2
        inputType := getInputType .singleQuote (cString (getLine s.stderr).1) }) := by
  rw [checkEvents, if_neg hne]
  simp only [hquote, if_true]

theorem checkEventsTimes_add {n m : Nat} {t : State}
    (h : s.checkEventsTimes host codeLines n = some t) :
    s.checkEventsTimes host codeLines (n + m) = t.checkEventsTimes host codeLines m := by
  induction n generalizing s with
  | zero =>
    cases h
    rw [Nat.zero_add]
  | succ n ih =>
    rw [checkEventsTimes] at h
    rw [Nat.succ_add, checkEventsTimes]
    split at h
    · exact ih h
    · cases h

/-- The lines of a record behind its first one are read without any event. -/
theorem checkEventsTimes_quoted {u : Text} (h : Remainder .singleQuote u) (hnul : 0 ∉ u)
    (hquote : s.inputType = .singleQuote) (hstderr : s.stderr = u ++ newline :: rest) :
    s.checkEventsTimes host codeLines (u.count newline + 1) =
      some { s with stderr := rest, inputType := .normal } := by
  generalize hn : u.count newline = n
  have hne : s.stderr ≠ [] := by simp [hstderr]
  induction n generalizing s u with
  | zero =>
    have hline : newline ∉ u := List.count_eq_zero.mp hn
    have hcur : cString (u ++ [newline]) = u ++ [newline] :=
      cString_eq_self (by simpa [newline] using hnul)
    rw [checkEventsTimes, checkEvents_quoted hquote hne, hstderr, getLine_eq hline]
    simp only [hcur, h.getInputType_line]
    rfl
  | succ n ih =>
    have hmem : newline ∈ u := List.count_pos_iff.mp (by omega)
    obtain ⟨v, w, rfl, hv⟩ := List.eq_append_cons_of_mem hmem
    simp only [List.mem_append, List.mem_cons, not_or] at hnul
    have hcur : cString (v ++ [newline]) = v ++ [newline] :=
      cString_eq_self (by simpa [newline] using hnul.1)
    obtain ⟨htype, hw⟩ := h.split rfl
    have hcount : w.count newline = n := by
      rw [List.count_append, List.count_cons_self, List.count_eq_zero_of_not_mem hv] at hn
      omega
    rw [List.append_assoc, List.cons_append] at hstderr
    rw [checkEventsTimes, checkEvents_quoted hquote hne, hstderr, getLine_eq hv]
    simp only [hcur, htype]
    rw [ih hw hnul.2.2 rfl rfl hcount (by simp)]

/-- The engine reads the first line of a record. -/
theorem checkEvents_record (codeLines : List Text → List U32) {r : Record} {line : Text}
    (hscript : r.ofScript host = true)
    (hline : r.line < 2 ^ 32) (hhead : 0 ∉ r.head) (hnul : 0 ∉ line)
    (hnormal : s.inputType = .normal) (hstderr : s.stderr = r.head ++ (line ++ newline :: rest))
    (hend : newline ∉ line) :
    s.checkEvents host codeLines = (true, State.report host codeLines
      { s with stderr := rest, inputType := getInputType .normal (line ++ [newline]) }
      ⟨host.realPath r.file, BitVec.ofNat 32 r.line⟩) := by
  have hfile : ∀ b ∈ r.file, b ≠ atSign ∧ b ≠ newline ∧ b ≠ 0 := by
    intro b hb
    have hmem : b ∈ r.head := by simp [Record.head, hb]
    exact ⟨(r.plainFile b hb).1, (Record.head_plain b hmem).2.2, fun h => hhead (h ▸ hmem)⟩
  have hnumber : ∀ b ∈ decimal r.line, b ≠ atSign ∧ b ≠ newline ∧ b ≠ 0 := by
    intro b hb
    obtain ⟨hat, -, -, hnewline, hzero⟩ := decimal_plain hb
    exact ⟨hat, hnewline, hzero⟩
  have hcur : cString (line ++ [newline]) = line ++ [newline] :=
    cString_eq_self (by simpa [newline] using hnul)
  have htype : getInputType .normal (r.head ++ (line ++ [newline])) =
      getInputType .normal (line ++ [newline]) :=
    getInputType_plain fun b hb => ⟨(Record.head_plain b hb).1, (Record.head_plain b hb).2.1⟩
  rw [← Record.head_append] at hstderr
  rw [checkEvents_marker hnormal hstderr hfile hnumber, getLine_eq hend]
  simp only [hcur, Record.head_append, htype]
  exact reportParts_decimal (by simpa [Record.ofScript] using hscript) (hline.trans (by decide))

/-- The engine reads a whole record, reports its line, and then expects a marker again. -/
theorem checkEventsTimes_record (codeLines : List Text → List U32) {r : Record}
    (hscript : r.ofScript host = true)
    (hline : r.line < 2 ^ 32) (hnul : 0 ∉ r.text) (hnormal : s.inputType = .normal)
    (hstderr : s.stderr = r.text ++ rest) :
    s.checkEventsTimes host codeLines (r.text.count newline) = some
      (State.report host codeLines { s with stderr := rest }
        ⟨host.realPath r.file, BitVec.ofNat 32 r.line⟩) := by
  rw [Record.text_eq] at hstderr hnul
  rw [Record.count_newline]
  by_cases hmem : newline ∈ commandText r.command
  · obtain ⟨v, w, hsplit, hv⟩ := List.eq_append_cons_of_mem hmem
    obtain ⟨htype, hw⟩ := Remainder.split_command hsplit
    have hcount : (commandText r.command).count newline = w.count newline + 1 := by
      rw [hsplit, List.count_append, List.count_cons_self, List.count_eq_zero_of_not_mem hv,
        Nat.zero_add]
    rw [hsplit] at hnul hstderr
    simp only [List.mem_append, List.mem_cons, not_or] at hnul
    have hstream : s.stderr = r.head ++ (v ++ newline :: (w ++ newline :: rest)) := by
      simpa using hstderr
    have hfirst := checkEvents_record codeLines hscript hline hnul.1 hnul.2.1.1
      hnormal hstream hv
    rw [hcount, checkEventsTimes, hfirst]
    simp only [htype]
    rw [checkEventsTimes_quoted hw hnul.2.1.2.2 rfl rfl, ← hnormal]
    rfl
  · simp only [List.mem_append, not_or] at hnul
    have hstream : s.stderr = r.head ++ (commandText r.command ++ newline :: rest) := by
      simpa using hstderr
    have hfirst := checkEvents_record codeLines hscript hline hnul.1 hnul.2.1
      hnormal hstream hmem
    rw [List.count_eq_zero_of_not_mem hmem, checkEventsTimes, hfirst, getInputType_command,
      ← hnormal]
    rfl

end State

/-! ### Reading all records -/

/-- Every record is recognised whose line number is an `unsigned int` and which has no NUL. -/
theorem recognises_records (host : Host) (codeLines : List Text → List U32) {rs : List Record}
    (hrs : ∀ r ∈ rs, r.ofScript host = true ∧ r.line < 2 ^ 32 ∧ 0 ∉ r.text) :
    Recognises host codeLines rs := by
  induction rs with
  | nil =>
    intro s rest hnormal hstderr
    exact ⟨s, [], rfl, hstderr, hnormal, .nil, (List.append_nil _).symm⟩
  | cons r rs ih =>
    intro s rest hnormal hstderr
    obtain ⟨hscript, hline, hnul⟩ := hrs r List.mem_cons_self
    rw [List.flatMap_cons, List.append_assoc] at hstderr
    have hfirst := State.checkEventsTimes_record codeLines hscript hline hnul
      hnormal hstderr
    obtain ⟨t, refs, htimes, hrest, htype, habout, hevents⟩ :=
      ih (fun r hr => hrs r (List.mem_cons_of_mem _ hr)) (State.report host codeLines
        { s with stderr := rs.flatMap Record.text ++ rest } _) rest hnormal rfl
    refine ⟨t, ⟨host.realPath r.file, BitVec.ofNat 32 r.line⟩ :: refs, ?_, hrest, htype,
      .cons ⟨rfl, ?_⟩ habout, ?_⟩
    · rw [List.flatMap_cons, List.count_append, State.checkEventsTimes_add hfirst, htimes]
    · rw [BitVec.toNat_ofNat, Nat.mod_eq_of_lt hline]
    · rw [hevents, breakpoints, State.report, List.append_assoc, List.singleton_append]

/-- A record with the file name `file`, and a command. -/
def recordOf (file : Text) (line : Nat) (command : List Piece)
    (plainFile : ∀ b ∈ file, b ≠ atSign ∧ b ≠ apostrophe ∧ b ≠ backslash ∧ b ≠ newline) :
    Record where
  depth := 1
  file := file
  line := line
  command := command
  plainFile := plainFile

/-- A marker behind a quoted newline is a part of the command. -/
theorem recognises_alias : Recognises Host.bare (fun _ => [])
    [recordOf (ascii "a") 1 [.quoted (ascii "\nkcov@b@2@") (by decide)] (by decide),
      recordOf (ascii "a") 2 [] (by decide)] :=
  recognises_records Host.bare (fun _ => []) (by decide)

def largeRecord : Record := recordOf (ascii "a") (2 ^ 64) [] (by decide)

def nulRecord : Record := recordOf (ascii "a") 1 [.quoted [0] (by decide)] (by decide)

def skippedRecord : Record := recordOf (ascii "my-bash-helper.sh") 1 [] (by decide)

/-- A line number of 65 bits stops the engine, a NUL hides the end of a quoted text, and a script is
skipped whose name contains that of a helper script. -/
theorem not_recognises_large_nul_skipped : ¬Recognises Host.bare (fun _ => []) [largeRecord] ∧
    ¬Recognises Host.bare (fun _ => []) [nulRecord] ∧
      ¬Recognises Host.bare (fun _ => []) [skippedRecord] := by
  refine ⟨?_, ?_, ?_⟩
  · intro h
    obtain ⟨t, refs, htimes, -⟩ := h (begun .empty largeRecord.text) [] rfl rfl
    have hstop : ((begun .empty largeRecord.text).checkEventsTimes Host.bare (fun _ => [])
        (([largeRecord].flatMap Record.text).count newline)).isNone = true := by
      decide
    rw [htimes] at hstop
    cases hstop
  · intro h
    obtain ⟨t, refs, htimes, -, htype, -⟩ := h (begun .empty nulRecord.text) [] rfl rfl
    have hquote : ((begun .empty nulRecord.text).checkEventsTimes Host.bare (fun _ => [])
        (([nulRecord].flatMap Record.text).count newline)).map State.inputType =
          some .singleQuote := by
      decide
    rw [htimes, Option.map_some, htype] at hquote
    cases hquote
  · intro h
    obtain ⟨t, refs, htimes, -, -, habout, hevents⟩ := h (begun .empty skippedRecord.text) [] rfl rfl
    have hskip : ((begun .empty skippedRecord.text).checkEventsTimes Host.bare (fun _ => [])
        (([skippedRecord].flatMap Record.text).count newline)).map State.events = some [] := by
      decide
    obtain ⟨ref, refs, -, -, rfl⟩ := List.forall₂_cons_left_iff.mp habout
    rw [htimes, Option.map_some, hevents] at hskip
    cases hskip

end Kcov.Bash
