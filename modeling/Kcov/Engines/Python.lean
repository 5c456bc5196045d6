import Kcov.Engines.Engine
import Kcov.Lib.Decoder
import Kcov.Lib.Runs
import Kcov.Lib.Stream

/-! The python engine: the helper process writes a datum for each executed line to a FIFO, and the
engine polls the FIFO and the helper in turn. -/

namespace Kcov.Python

open Bytes Runs

def coverageMagic : BitVec 64 := 0x6d6574616c6c6775

/-- `sizeof(struct coverage_data)`. -/
def sizeofCoverageData : Nat := 16

/-- `sizeof(buf)` in `checkEvents`. -/
def bufSize : Nat := 8192

/-! ### The helper -/

/-- What `report_trace_real` packs: the size must fit in 32 bits. -/
structure Datum where
  filename : List Byte
  line : BitVec 32
  fits : filename.length + 17 < 2 ^ 32

namespace Datum

def size (d : Datum) : Nat := d.filename.length + 17

def encode (d : Datum) : List Byte :=
  Endian.big.encode 8 coverageMagic.toNat ++ Endian.big.encode 4 d.size ++
    Endian.big.encode 4 d.line.toNat ++ (d.filename ++ [0])

end Datum

/-! ### The engine -/

/-- A datum in the buffer of `checkEvents`: what was stored behind the header, and the line. -/
structure CoverageData where
  stored : List Byte
  line : BitVec 32
  deriving DecidableEq, Repr

/-- `p->filename`, or `none` where it reads on behind what was stored. -/
def CoverageData.filename (p : CoverageData) : Option (List Byte) := cStringAt p.stored 0

/-- The `valid` of `readCoverageDatum`, for a whole header. -/
def validHeader (head : List Byte) : Bool :=
  BitVec.ofNat 64 (field .big head 0 8) = coverageMagic ∧
    (BitVec.ofNat 32 (field .big head 8 4)).toNat < bufSize

/-- The number of bytes that are read behind a header. -/
def remainder (head : List Byte) : BitVec 64 :=
  (BitVec.ofNat 32 (field .big head 8 4)).setWidth 64 - BitVec.ofNat 64 sizeofCoverageData

/-- `readCoverageDatum` after a poll that has found something: a datum, or `none` where it returns
NULL. It blocks where a read does. -/
def readCoverageDatum (f : Stream) (ahead : Nat × Nat) :
    Except Stop (Option (Option CoverageData × Stream)) := do
  let some (head, f) ← f.freadAt bufSize 0 sizeofCoverageData ahead.1 | return none
  if head.length < sizeofCoverageData then return some (none, f)
  if !validHeader head then return some (none, f)
  let n := remainder head
  let some (rest, f) ← f.freadAt bufSize sizeofCoverageData n.toNat ahead.2 | return none
  -- the lengths are compared as signed numbers
  if (BitVec.ofNat 64 rest.length).slt n then return some (none, f)
  return some (some { stored := rest, line := BitVec.ofNat 32 (field .big head 12 4) }, f)

/-- Where a call of `continueExecution` is. -/
inductive Pc where
  /-- Between two calls. -/
  | idle
  /-- The poll has found the FIFO readable. -/
  | readable
  /-- `checkEvents` has returned false, and `waitpid` comes next. -/
  | failed
  /-- `continueExecution` has returned false. -/
  | finished
  /-- A call of `checkEvents` has left its buffer, or what was stored in it. -/
  | strayed
  deriving DecidableEq, Repr

/-- The engine, its FIFO and the helper. -/
structure State where
  stream : Stream
  exited : Option WaitStatus
  pc : Pc
  reportedFiles : List (List Byte)
  /-- The events that the listener has got. -/
  events : List (EngineEvent (BitVec 64))
  /-- The data that the helper has written. -/
  written : List Datum

inductive Event where
  /-- The helper writes a datum. -/
  | write (d : Datum)
  /-- The helper closes the FIFO. -/
  | close
  /-- The helper exits. -/
  | exit (status : WaitStatus)
  /-- The start of `continueExecution`, up to the result of `select`. -/
  | poll
  /-- The rest of `checkEvents`. -/
  | read (ahead : Nat × Nat)
  | waitpid

namespace State

/-- `checkEvents` returns false. -/
def fail (s : State) : State := { s with pc := .failed, events := s.events ++ [⟨.error, -1, 0⟩] }

section Step

-- what `m_lineIdToAddress` has for a line, or 0
variable (address : List Byte → BitVec 32 → BitVec 64)

/-- `checkEvents` with a datum. -/
def report (s : State) (filename : List Byte) (line : BitVec 32) : State :=
  { s with
    pc := .idle
    reportedFiles :=
      if filename ∈ s.reportedFiles then s.reportedFiles else s.reportedFiles ++ [filename]
    events := s.events ++ [⟨.breakpoint, 1, address filename line⟩] }

def step (s : State) : Event → State
  | .write d =>
    if s.stream.closed then s
    else
      { s with
        stream := { s.stream with pipe := s.stream.pipe ++ d.encode }
        written := s.written ++ [d] }
  | .close => { s with stream := { s.stream with closed := true } }
  | .exit status =>
    if s.stream.closed ∧ s.exited = none then { s with exited := some status } else s
  | .poll =>
    if s.pc ≠ .idle then s
    else if s.stream.eof then s.fail
    else if s.stream.pipe ≠ [] ∨ s.stream.closed then { s with pc := .readable }
    else s.fail
  | .read ahead =>
    if s.pc ≠ .readable then s
    else
      match readCoverageDatum s.stream ahead with
      | .error _ => { s with pc := .strayed }
      | .ok none => s
      | .ok (some (none, f)) => { s with stream := f }.fail
      | .ok (some (some p, f)) =>
        match p.filename with
        | none => { s with pc := .strayed }
        | some filename => { s with stream := f }.report address filename p.line
  | .waitpid =>
    if s.pc ≠ .failed then s
    else
      match s.exited with
      | none => { s with pc := .idle }
      | some (.exited exitStatus) =>
        { s with pc := .finished, events := s.events ++ [⟨.exitFirstProcess, exitStatus, 0⟩] }
      | some _ => { s with pc := .finished, events := s.events ++ [⟨.error, -1, 0⟩] }

/-- The engine when it has started the helper and opened the FIFO. -/
def start : State :=
  { stream := { buffer := [], pipe := [], closed := false, eof := false }
    exited := none
    pc := .idle
    reportedFiles := []
    events := []
    written := [] }

def run (evs : List Event) : State := evs.foldl (step address) start

end Step

end State

/-! ### Reading a datum -/

section Read

variable {f : Stream} {d : Datum}

theorem Datum.length_encode (d : Datum) : d.encode.length = d.size := by
  unfold Datum.encode Datum.size
  simp
  omega

theorem Datum.encode_ne_nil (d : Datum) : d.encode ≠ [] := by
  have hlen := d.length_encode
  unfold Datum.size at hlen
  rw [← List.length_pos_iff]
  omega

/-- The fields of the first bytes of a datum. -/
theorem fields_head (d : Datum) (rest : List Byte) :
    field .big ((d.encode ++ rest).take 16) 0 8 = coverageMagic.toNat ∧
      field .big ((d.encode ++ rest).take 16) 8 4 = d.size ∧
      field .big ((d.encode ++ rest).take 16) 12 4 = d.line.toNat := by
  have hsize : d.size < 256 ^ 4 := d.fits
  have hline : d.line.toNat < 256 ^ 4 := d.line.isLt
  have hhead : (d.encode ++ rest).take 16 = Endian.big.encode 8 coverageMagic.toNat ++
      (Endian.big.encode 4 d.size ++ (Endian.big.encode 4 d.line.toNat ++ [])) := by
    unfold Datum.encode
    rw [List.append_assoc _ _ rest, List.take_left' (by simp)]
    simp
  rw [hhead]
  refine ⟨?_, ?_, ?_⟩
  · rw [field_encode]
    rfl
  · rw [field_skip _ _ (by omega), field_encode, Nat.mod_eq_of_lt hsize]
  · rw [field_skip _ _ (by omega), field_skip _ _ (by omega), field_encode,
      Nat.mod_eq_of_lt hline]

/-- What becomes of a whole header. -/
theorem readCoverageDatum_header (hlen : 16 ≤ f.pending.length) (ahead : Nat × Nat) :
    ∃ f', f'.pending = f.pending.drop 16 ∧ f'.closed = f.closed ∧ f'.eof = f.eof ∧
      f'.buffer = f.buffered 16 ahead.1 ∧ readCoverageDatum f ahead =
        if validHeader (f.pending.take 16) then do
          let some (rest, f') ← f'.freadAt bufSize 16 (remainder (f.pending.take 16)).toNat ahead.2
            | return none
          if (BitVec.ofNat 64 rest.length).slt (remainder (f.pending.take 16)) then
            return some (none, f')
          return some (some
            { stored := rest, line := BitVec.ofNat 32 (field .big (f.pending.take 16) 12 4) }, f')
        else .ok (some (none, f')) := by
  obtain ⟨f', hread, hpending, hclosed, heof⟩ := Stream.fread_of_le hlen ahead.1
  have htake : (f.pending.take 16).length = 16 := by
    rw [List.length_take]
    omega
  refine ⟨f', hpending, hclosed, heof, Stream.buffer_of_fread hread, ?_⟩
  unfold readCoverageDatum
  rw [sizeofCoverageData, Stream.freadAt_of_lt (by decide) (by rw [htake, bufSize]; omega), hread]
  simp only [ok_bind, htake, lt_irrefl, if_false]
  cases validHeader (f.pending.take 16) <;> rfl

/-- The size in a header. -/
def sizeField (head : List Byte) : Nat := (BitVec.ofNat 32 (field .big head 8 4)).toNat

theorem toNat_remainder_mod {head : List Byte} :
    (remainder head).toNat = (2 ^ 64 - 16 + sizeField head) % 2 ^ 64 ∧ sizeField head < 2 ^ 32 := by
  have hlt := (BitVec.ofNat 32 (field .big head 8 4)).isLt
  refine ⟨?_, hlt⟩
  rw [remainder, sizeofCoverageData, BitVec.toNat_sub, BitVec.toNat_setWidth, sizeField,
    show (BitVec.ofNat 64 16).toNat = 16 from rfl]
  omega

theorem toNat_remainder {head : List Byte} (h : 16 ≤ sizeField head) :
    (remainder head).toNat = sizeField head - 16 := by
  obtain ⟨hmod, hlt⟩ := @toNat_remainder_mod head
  omega

/-- Below the size of the header, the difference is almost as large as 64 bits allow. -/
theorem toNat_remainder_small {head : List Byte} (h : sizeField head < 16) :
    (remainder head).toNat = 2 ^ 64 - 16 + sizeField head := by
  obtain ⟨hmod, -⟩ := @toNat_remainder_mod head
  omega

theorem slt_remainder {head : List Byte} {n : Nat} (hsize : sizeField head < 2 ^ 32)
    (hn : n < 2 ^ 32) :
    (BitVec.ofNat 64 n).slt (remainder head) = true ↔ 16 ≤ sizeField head ∧ n + 16 < sizeField head := by
  have hn64 : (BitVec.ofNat 64 n).toNat = n := by
    rw [BitVec.toNat_ofNat]
    omega
  rw [BitVec.slt, decide_eq_true_iff, BitVec.toInt_eq_toNat_cond, BitVec.toInt_eq_toNat_cond, hn64]
  rcases Nat.lt_or_ge (sizeField head) 16 with h | h
  · rw [toNat_remainder_small h, if_pos (by omega), if_neg (by omega)]
    omega
  · rw [toNat_remainder h, if_pos (by omega), if_pos (by omega)]
    omega

/-- A datum that fits in the buffer of `checkEvents` is read as it was written. -/
theorem readCoverageDatum_encode {rest : List Byte} (hpending : f.pending = d.encode ++ rest)
    (hsmall : d.size < bufSize) (ahead : Nat × Nat) :
    ∃ f', readCoverageDatum f ahead = .ok (some (some ⟨d.filename ++ [0], d.line⟩, f')) ∧
      f'.pending = rest ∧ f'.closed = f.closed ∧ f'.eof = f.eof := by
  have hlen := d.length_encode
  have hsize : d.size = d.filename.length + 17 := rfl
  obtain ⟨f1, hpending1, hclosed1, heof1, -, hread1⟩ := @readCoverageDatum_header f
    (by rw [hpending, List.length_append]; omega) ahead
  have hname : f1.pending = (d.filename ++ [0]) ++ rest := by
    rw [hpending1, hpending]
    unfold Datum.encode
    rw [List.append_assoc _ _ rest, List.drop_left' (by simp)]
  have hnameLen : (d.filename ++ [0]).length = d.filename.length + 1 := by simp
  obtain ⟨f2, hread2, hpending2, hclosed2, heof2⟩ := Stream.fread_of_le
    (show d.filename.length + 1 ≤ f1.pending.length by
      rw [hname, List.length_append, hnameLen]; omega) ahead.2
  rw [hname, List.take_left' hnameLen] at hread2
  rw [hname, List.drop_left' hnameLen] at hpending2
  obtain ⟨hmagic, hsizeEq, hline⟩ := fields_head d rest
  rw [← hpending] at hmagic hsizeEq hline
  have hsizeField : sizeField (f.pending.take 16) = d.size := by
    rw [sizeField, hsizeEq, BitVec.toNat_ofNat]
    exact Nat.mod_eq_of_lt d.fits
  have hvalid : validHeader (f.pending.take 16) = true := by
    rw [validHeader, hmagic, BitVec.ofNat_toNat, BitVec.setWidth_eq, ← sizeField, hsizeField,
      decide_eq_true_iff]
    exact ⟨rfl, hsmall⟩
  have hremainder : (remainder (f.pending.take 16)).toNat = d.filename.length + 1 := by
    rw [toNat_remainder (by omega)]
    omega
  have hslt : ¬(BitVec.ofNat 64 (d.filename ++ [0]).length).slt (remainder (f.pending.take 16)) := by
    rw [bufSize] at hsmall
    rw [slt_remainder (by omega) (by omega)]
    omega
  have hat : f1.freadAt bufSize 16 (d.filename.length + 1) ahead.2 =
      .ok (some (d.filename ++ [0], f2)) := by
    rw [bufSize] at hsmall ⊢
    rw [Stream.freadAt_of_lt (by omega), hread2]
    rw [hname, List.take_left' hnameLen, hnameLen]
    omega
  refine ⟨f2, ?_, hpending2, hclosed2.trans hclosed1, heof2.trans heof1⟩
  rw [hread1, if_pos hvalid, hremainder, hat, ok_bind]
  dsimp only
  rw [if_neg hslt, hline, BitVec.ofNat_toNat, BitVec.setWidth_eq]
  rfl

theorem filename_encode (d : Datum) :
    CoverageData.filename ⟨d.filename ++ [0], d.line⟩ = some (cString d.filename) := by
  have hzero : cStringAt (d.filename ++ [0]) (0 : Nat) = some (cString d.filename) := by
    rw [cStringAt_natCast, List.drop_zero, if_pos (by simp), cString_concat_zero]
  exact hzero

theorem readCoverageDatum_end (hpending : f.pending = []) (hclosed : f.closed = true)
    (ahead : Nat × Nat) : ∃ f', readCoverageDatum f ahead = .ok (some (none, f')) ∧
      f'.pending = [] ∧ f'.closed = true ∧ f'.eof = true := by
  obtain ⟨f', hread, hrest⟩ := Stream.fread_of_end hpending hclosed (show 0 < 16 by decide) ahead.1
  refine ⟨f', ?_, hrest⟩
  unfold readCoverageDatum
  rw [sizeofCoverageData, Stream.freadAt_of_lt (by decide) (by simp [hpending, bufSize]), hread]
  rfl

end Read

/-! ### What is delivered -/

namespace State

variable {address : List Byte → BitVec 32 → BitVec 64} {s : State}

/-- The event for a datum. -/
def eventOf (address : List Byte → BitVec 32 → BitVec 64) (d : Datum) : EngineEvent (BitVec 64) :=
  ⟨.breakpoint, 1, address (cString d.filename) d.line⟩

/-- The breakpoint events that the listener has got. -/
def breakpoints (s : State) : List (EngineEvent (BitVec 64)) :=
  s.events.filter fun ev => ev.type = .breakpoint

/-- Every datum that the helper wrote has been delivered. -/
def Delivered (address : List Byte → BitVec 32 → BitVec 64) (s : State) : Prop :=
  s.breakpoints = s.written.map (eventOf address)

/-- The data that have not been delivered yet are waiting in the FIFO and the buffer of its
stream. -/
structure Flowing (address : List Byte → BitVec 32 → BitVec 64) (s : State) : Prop where
  waiting : ∃ waiting : List Datum, s.stream.pending = waiting.flatMap Datum.encode ∧
    (∀ d ∈ waiting, d.size < bufSize) ∧
    s.breakpoints ++ waiting.map (eventOf address) = s.written.map (eventOf address)
  eof : s.stream.eof = true → s.stream.closed = true ∧ s.stream.pending = []
  readable : s.pc = .readable → s.stream.pipe ≠ [] ∨ s.stream.closed = true
  exited : s.exited.isSome → s.stream.closed = true
  finished : s.pc = .finished → s.exited.isSome

/-- When `waitpid` finds that the helper has exited, nothing is left to be read. -/
def Drained (s : State) : Prop :=
  s.exited.isSome → s.pc = .failed ∨ s.pc = .finished → s.stream.pending = []

/-- The helper does not exit between a failed poll and the next `waitpid` as long as something is
left to be read. -/
def ExitsDrained (s : State) : Event → Prop
  | .exit _ => s.stream.closed = true → s.pc = .failed → s.stream.pending = []
  | _ => True

@[simp] theorem breakpoints_fail (s : State) : s.fail.breakpoints = s.breakpoints := by
  simp [breakpoints, fail]

theorem breakpoints_report (s : State) (filename : List Byte) (line : BitVec 32) :
    (s.report address filename line).breakpoints =
      s.breakpoints ++ [⟨.breakpoint, 1, address filename line⟩] := by
  simp [breakpoints, report]

theorem Flowing.fail (h : s.Flowing address) : s.fail.Flowing address := by
  refine ⟨?_, h.eof, nofun, h.exited, nofun⟩
  rw [breakpoints_fail]
  exact h.waiting

/-- What a read does: it delivers the first datum that is waiting, or finds the end of the file. -/
theorem read_cases (h : s.Flowing address) (hpc : s.pc = .readable) (ahead : Nat × Nat) :
    (∃ d waiting f, (s.stream.pending = (d :: waiting).flatMap Datum.encode ∧
        (∀ d ∈ waiting, d.size < bufSize) ∧
        s.breakpoints ++ (d :: waiting).map (eventOf address) = s.written.map (eventOf address)) ∧
      s.step address (.read ahead) =
        { s with stream := f }.report address (cString d.filename) d.line ∧
      f.pending = waiting.flatMap Datum.encode ∧ f.closed = s.stream.closed ∧
      f.eof = s.stream.eof) ∨
    (∃ f, s.Delivered address ∧ s.step address (.read ahead) = { s with stream := f }.fail ∧
      f.pending = [] ∧ f.closed = true ∧ f.eof = true) := by
  obtain ⟨waiting, hpending, hsmall, hevents⟩ := h.waiting
  cases waiting with
  | nil =>
    have hclosed : s.stream.closed = true := by
      apply (h.readable hpc).resolve_left
      exact fun hne => hne (List.append_eq_nil_iff.mp hpending).2
    obtain ⟨f, hread, hf⟩ := readCoverageDatum_end hpending hclosed ahead
    refine Or.inr ⟨f, by simpa [Delivered] using hevents, ?_, hf⟩
    simp only [step, hpc, ne_eq, not_true_eq_false, if_false, hread]
  | cons d waiting =>
    have hd := hsmall d List.mem_cons_self
    obtain ⟨f, hread, hf⟩ := readCoverageDatum_encode hpending hd ahead
    refine Or.inl ⟨d, waiting, f, ⟨hpending, ?_, hevents⟩, ?_, hf⟩
    · exact fun d' hd' => hsmall d' (List.mem_cons_of_mem _ hd')
    · simp only [step, hpc, ne_eq, not_true_eq_false, if_false, hread, filename_encode]

/-- The event of `waitpid` is not a breakpoint, so nothing is delivered by it. -/
theorem Flowing.finish (h : s.Flowing address) {ev : EngineEvent (BitVec 64)}
    (hev : ev.type ≠ .breakpoint) (hexited : s.exited.isSome) :
    ({ s with pc := .finished, events := s.events ++ [ev] } : State).Flowing address := by
  refine ⟨?_, h.eof, nofun, h.exited, fun _ => hexited⟩
  have hsame : ({ s with pc := .finished, events := s.events ++ [ev] } : State).breakpoints =
      s.breakpoints := by simp [breakpoints, hev]
  rw [hsame]
  exact h.waiting

theorem Flowing.write (h : s.Flowing address) {d : Datum} (hsmall : d.size < bufSize) :
    (s.step address (.write d)).Flowing address := by
  simp only [State.step]
  split
  · exact h
  · rename_i hopen
    obtain ⟨waiting, hpending, hold, hevents⟩ := h.waiting
    refine ⟨⟨waiting ++ [d], ?_, ?_, ?_⟩, fun heof => ?_, fun hpc => Or.inl ?_, h.exited,
      h.finished⟩
    · unfold Stream.pending at hpending ⊢
      rw [← List.append_assoc, hpending]
      simp
    · intro d' hd'
      rcases List.mem_append.mp hd' with hmem | hlast
      · exact hold d' hmem
      · rw [List.mem_singleton.mp hlast]
        exact hsmall
    · rw [List.map_append, List.map_append, ← List.append_assoc]
      exact congrArg (· ++ _) hevents
    · exact absurd (h.eof heof).1 hopen
    · exact fun hnil => d.encode_ne_nil (List.append_eq_nil_iff.mp hnil).2

theorem Flowing.read (h : s.Flowing address) (ahead : Nat × Nat) :
    (s.step address (.read ahead)).Flowing address := by
  by_cases hpc : s.pc = .readable
  · rcases read_cases h hpc ahead with ⟨d, waiting, f, ⟨hfull, hrest, hevents⟩, hstep, hpending,
      hclosed, heof⟩ | ⟨f, hall, hstep, hpending, hclosed, -⟩
    · rw [hstep]
      refine ⟨⟨waiting, hpending, hrest, ?_⟩, fun hend => ?_, nofun, fun hexit => ?_, nofun⟩
      · rw [breakpoints_report, List.append_assoc]
        exact hevents
      · have hempty := (h.eof (heof ▸ hend)).2
        rw [hfull, List.flatMap_cons] at hempty
        exact absurd (List.append_eq_nil_iff.mp hempty).1 d.encode_ne_nil
      · exact hclosed.trans (h.exited hexit)
    · rw [hstep]
      apply Flowing.fail
      refine ⟨⟨[], hpending, by simp, ?_⟩, fun _ => ⟨hclosed, hpending⟩, fun _ => Or.inr hclosed,
        fun _ => hclosed, fun hfinished => absurd (hpc.symm.trans hfinished) nofun⟩
      rw [List.map_nil, List.append_nil]
      exact hall
  · simp only [State.step, if_pos hpc]
    exact h

theorem Flowing.step (h : s.Flowing address) {ev : Event}
    (hsmall : ∀ d, ev = .write d → d.size < bufSize) : (s.step address ev).Flowing address := by
  cases ev with
  | write d => exact h.write (hsmall d rfl)
  | close =>
    exact ⟨h.waiting, fun heof => ⟨rfl, (h.eof heof).2⟩, fun _ => Or.inr rfl, fun _ => rfl,
      h.finished⟩
  | exit status =>
    simp only [State.step]
    split
    · rename_i hexit
      exact ⟨h.waiting, h.eof, h.readable, fun _ => hexit.1, fun _ => rfl⟩
    · exact h
  | poll =>
    simp only [State.step]
    split
    · exact h
    · split
      · exact h.fail
      · split
        · rename_i hready
          exact ⟨h.waiting, h.eof, fun _ => hready, h.exited, nofun⟩
        · exact h.fail
  | read ahead => exact h.read ahead
  | waitpid =>
    simp only [State.step]
    split
    · exact h
    · split
      · exact ⟨h.waiting, h.eof, nofun, h.exited, nofun⟩
      · rename_i hexited
        exact h.finish (by simp) (by rw [hexited]; rfl)
      · rename_i hexited
        exact h.finish (by simp) (by rw [hexited]; rfl)

theorem Drained.step (hflow : s.Flowing address) (h : s.Drained) {ev : Event}
    (hexit : s.ExitsDrained ev) : (s.step address ev).Drained := by
  cases ev with
  | write d =>
    simp only [State.step]
    split
    · exact h
    · rename_i hopen
      exact fun hexited _ => absurd (hflow.exited hexited) hopen
  | close => exact h
  | exit status =>
    simp only [State.step]
    split
    · rename_i hnow
      rintro - (hpc | hpc)
      · exact hexit hnow.1 hpc
      · exact absurd (hflow.finished hpc) (by simp [hnow.2])
    · exact h
  | poll =>
    simp only [State.step]
    split
    · exact h
    · split
      · rename_i heof
        exact fun _ _ => (hflow.eof heof).2
      · split
        · rintro - (hpc | hpc) <;> cases hpc
        · rename_i hquiet
          exact fun hexited _ => absurd (Or.inr (hflow.exited hexited)) hquiet
  | read ahead =>
    by_cases hpc : s.pc = .readable
    · rcases read_cases hflow hpc ahead with ⟨d, waiting, f, -, hstep, -⟩ | ⟨f, -, hstep, hpending, -⟩
      · rw [hstep]
        rintro - (hidle | hidle) <;> cases hidle
      · rw [hstep]
        exact fun _ _ => hpending
    · simp only [State.step, if_pos hpc]
      exact h
  | waitpid =>
    simp only [State.step]
    split
    · exact h
    · rename_i hpc
      rw [not_ne_iff] at hpc
      split
      · rintro - (hidle | hidle) <;> cases hidle
      · exact fun hexited _ => h hexited (Or.inl hpc)
      · exact fun hexited _ => h hexited (Or.inl hpc)

/-- The helper has exited, and the next `waitpid` ends the run, or has done so, while something is
left to be read. -/
structure Lost (s : State) : Prop where
  exited : s.exited.isSome
  pc : s.pc = .failed ∨ s.pc = .finished
  pending : s.stream.pending ≠ []

theorem Lost.step (hflow : s.Flowing address) (h : s.Lost) (ev : Event) :
    (s.step address ev).Lost := by
  cases ev with
  | write d =>
    simp only [State.step, if_pos (hflow.exited h.exited)]
    exact h
  | close => exact ⟨h.exited, h.pc, h.pending⟩
  | exit status =>
    have hsome : ¬(s.stream.closed = true ∧ s.exited = none) := by
      rintro ⟨-, hnone⟩
      exact absurd h.exited (by simp [hnone])
    simp only [State.step, if_neg hsome]
    exact h
  | poll =>
    have hidle : s.pc ≠ .idle := by rcases h.pc with hpc | hpc <;> simp [hpc]
    simp only [State.step, if_pos hidle]
    exact h
  | read ahead =>
    have hreadable : s.pc ≠ .readable := by rcases h.pc with hpc | hpc <;> simp [hpc]
    simp only [State.step, if_pos hreadable]
    exact h
  | waitpid =>
    simp only [State.step]
    split
    · exact h
    · split
      · rename_i hnone
        exact absurd h.exited (by simp [hnone])
      · exact ⟨h.exited, Or.inr rfl, h.pending⟩
      · exact ⟨h.exited, Or.inr rfl, h.pending⟩

theorem lost_of_not_exitsDrained {ev : Event} (h : ¬s.ExitsDrained ev) :
    (s.step address ev).Lost ∨ s.Lost := by
  cases ev with
  | exit status =>
    simp only [ExitsDrained, Classical.not_imp] at h
    obtain ⟨hclosed, hpc, hpending⟩ := h
    by_cases hexited : s.exited = none
    · left
      simp only [State.step, if_pos (And.intro hclosed hexited)]
      exact ⟨rfl, Or.inl hpc, hpending⟩
    · exact Or.inr ⟨Option.isSome_iff_ne_none.mpr hexited, Or.inl hpc, hpending⟩
  | _ => exact absurd trivial h

/-- Everything has been delivered when nothing is left to be read. -/
theorem Flowing.delivered_iff (h : s.Flowing address) :
    s.Delivered address ↔ s.stream.pending = [] := by
  obtain ⟨waiting, hpending, -, hevents⟩ := h.waiting
  unfold Delivered
  rw [hpending, ← hevents]
  cases waiting with
  | nil => simp
  | cons d waiting =>
    rw [List.flatMap_cons, List.append_eq_nil_iff]
    simp [d.encode_ne_nil]

/-! ### Runs -/

theorem run_append (evs : List Event) (ev : Event) :
    run address (evs ++ [ev]) = (run address evs).step address ev := by
  unfold run
  rw [List.foldl_append]
  rfl

theorem flowing_run (evs : List Event) (hsmall : ∀ d, .write d ∈ evs → d.size < bufSize) :
    (run address evs).Flowing address := by
  induction evs using List.reverseRecOn with
  | nil => exact ⟨⟨[], rfl, by simp, rfl⟩, nofun, nofun, nofun, nofun⟩
  | append_singleton evs ev ih =>
    rw [run_append]
    apply (ih fun d hd => hsmall d (List.mem_append_left _ hd)).step
    rintro d rfl
    exact hsmall d (by simp)

/-- Whether something is lost is decided when the helper exits. -/
theorem drained_or_lost (evs : List Event) (hsmall : ∀ d, .write d ∈ evs → d.size < bufSize) :
    (AllSteps (fun before ev => (run address before).ExitsDrained ev) evs ∧
      (run address evs).Drained) ∨
    (¬AllSteps (fun before ev => (run address before).ExitsDrained ev) evs ∧
      (run address evs).Lost) := by
  induction evs using List.reverseRecOn with
  | nil => exact Or.inl ⟨allSteps_nil, nofun⟩
  | append_singleton evs ev ih =>
    have hbefore : ∀ d, .write d ∈ evs → d.size < bufSize := fun d hd =>
      hsmall d (List.mem_append_left _ hd)
    have hflow := @flowing_run address evs hbefore
    rw [allSteps_snoc, run_append]
    rcases ih hbefore with ⟨hall, hdrained⟩ | ⟨hnot, hlost⟩
    · by_cases hexit : (run address evs).ExitsDrained ev
      · exact Or.inl ⟨⟨hall, hexit⟩, hdrained.step hflow hexit⟩
      · refine Or.inr ⟨fun h => hexit h.2, ?_⟩
        rcases lost_of_not_exitsDrained hexit with hlost | hlost
        · exact hlost
        · exact hlost.step hflow ev
    · exact Or.inr ⟨fun h => hnot h.1, hlost.step hflow ev⟩

/-- When `continueExecution` has returned false, every datum has been delivered exactly if the helper
did not exit between a failed poll and the next `waitpid` with something left to be read. -/
theorem delivered_iff_exits_drained (evs : List Event)
    (hsmall : ∀ d, .write d ∈ evs → d.size < bufSize) (hfinished : (run address evs).pc = .finished) :
    (run address evs).Delivered address ↔
      AllSteps (fun before ev => (run address before).ExitsDrained ev) evs := by
  have hflow := @flowing_run address evs hsmall
  rw [hflow.delivered_iff]
  rcases @drained_or_lost address evs hsmall with ⟨hall, hdrained⟩ | ⟨hnot, hlost⟩
  · exact iff_of_true (hdrained (hflow.finished hfinished) (Or.inr hfinished)) hall
  · exact iff_of_false hlost.pending hnot

/-- A datum for line 3 of a file. -/
def lineThree : Datum := { filename := ascii "/a.py", line := 3, fits := by decide }

/-- The datum is read, and the engine finds the end of the file when the helper has exited. -/
def readToEnd : List Event :=
  [.write lineThree, .poll, .read (0, 0), .close, .exit (.exited 0), .poll, .read (0, 0), .waitpid]

theorem delivered_read_to_end :
    (run (fun _ _ => 7) readToEnd).pc = .finished ∧
      (run (fun _ _ => 7) readToEnd).Delivered (fun _ _ => 7) := by
  have hfinished : (run (fun _ _ => 7) readToEnd).pc = .finished := by decide
  refine ⟨hfinished, (delivered_iff_exits_drained readToEnd ?_ hfinished).mpr ?_⟩
  · intro d hd
    have hd' : d = lineThree := by simpa [readToEnd] using hd
    rw [hd']
    decide
  · -- the engine is between two calls when the helper exits
    refine allSteps_iff_getElem.mpr fun i hi => ?_
    match i, hi with
    | 0, _ | 1, _ | 2, _ | 3, _ | 5, _ | 6, _ | 7, _ => trivial
    | 4, _ => exact fun _ hpc => absurd hpc (by decide)

/-- The helper writes a datum and exits between the poll and `waitpid`. -/
def exitAfterPoll : List Event :=
  [.poll, .write lineThree, .close, .exit (.exited 0), .waitpid]

theorem not_delivered_exit_after_poll :
    (run (fun _ _ => 7) exitAfterPoll).pc = .finished ∧
      ¬(run (fun _ _ => 7) exitAfterPoll).Delivered (fun _ _ => 7) := by
  refine ⟨by decide, ?_⟩
  unfold Delivered
  decide

end State

end Kcov.Python
