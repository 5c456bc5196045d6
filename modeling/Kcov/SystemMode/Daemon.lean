import Kcov.SystemMode.Registration
import Mathlib.Data.List.Infix

/-! The read loop of the system-mode daemon: a FIFO to which starting processes append their
entries, and a loop that reads up to 4096 of the available bytes at a time and handles one entry of
each read. -/

namespace Kcov.SystemMode

open Bytes

/-- The FIFO, the stop flag, and the calls of `processOne` made so far. -/
structure Daemon where
  fifo : List Byte
  doExit : Bool
  processed : List (Nat × List Byte)

/-- `sizeof(buf)` in the read loop. -/
def readSize : Nat := 4096

def stopCommand : List Byte := ascii "STOPME"

/-- One round of the read loop of `main`, or `none` when it reads outside its buffer. -/
def Daemon.readLoop (host : Endian) (d : Daemon) : Option Daemon :=
  if d.doExit then some d
  else
    let got := d.fifo.take readSize
    let buf := got ++ zeros (readSize - got.length)
    let d := { d with fifo := d.fifo.drop readSize }
    if got.length = 0 then some d
    else if stopCommand.length ≤ got.length ∧ buf.take stopCommand.length = stopCommand then
      some { d with doExit := true }
    else if got.length < sizeofProcessEntry then some d
    else
      match parseProcessEntry host buf with
      | .error .outOfBounds => none
      | .error .rejected => some d
      | .ok (pid, filename) =>
        some { d with processed := d.processed ++ [(pid.toNat, filename)] }

/-- A client appends its entry, or the daemon goes through its loop once. -/
inductive DaemonEvent where
  | write (c : Client)
  | read

def Daemon.step (host : Endian) (d : Daemon) : DaemonEvent → Option Daemon
  | .write c => some { d with fifo := d.fifo ++ c.entry host }
  | .read => d.readLoop host

/-- The daemon after a sequence of events, from a started daemon with an empty FIFO. -/
def Daemon.run (host : Endian) (evs : List DaemonEvent) : Option Daemon :=
  evs.foldlM (Daemon.step host) { fifo := [], doExit := false, processed := [] }

/-! ### What the daemon is for -/

/-- The requests that the clients made, in order. -/
def written : List DaemonEvent → List (Nat × List Byte)
  | [] => []
  | .write c :: evs => c.request :: written evs
  | .read :: evs => written evs

/-- The requests that were processed and those whose entries are still in the FIFO are, in order,
all requests `sent`. -/
def Daemon.Accounts (host : Endian) (d : Daemon) (sent : List (Nat × List Byte)) : Prop :=
  ∃ waiting : List Client, d.processed ++ waiting.map Client.request = sent ∧
    d.fifo = waiting.flatMap (Client.entry host)

/-- No request is lost or handled twice in any state that the events lead through. -/
def NoneLost (host : Endian) (evs : List DaemonEvent) : Prop :=
  ∀ pre, pre <+: evs → ∃ d, Daemon.run host pre = some d ∧ d.Accounts host (written pre)

/-- A read of a FIFO with the entries of `queue` returns nothing or exactly the first entry, and
the process id in it is not cut to 16 bits. -/
def ReadsOne : List Client → Prop
  | [] => True
  | c :: rest => c.pid < 65536 ∧ c.filename.length + 13 ≤ readSize ∧
      (rest = [] ∨ c.filename.length + 13 = readSize)

/-- `ReadsOne` at every read of `evs`, starting with `queue` in the FIFO. -/
def AllReadOne : List Client → List DaemonEvent → Prop
  | _, [] => True
  | queue, .write c :: evs => AllReadOne (queue ++ [c]) evs
  | queue, .read :: evs => ReadsOne queue ∧ AllReadOne queue.tail evs

/-! ### One round -/

section Round

variable {host : Endian} {c : Client} {rest : List Client} {l : List (Nat × List Byte)}

/-- The state in which `l` were processed and the entries of `queue` wait. -/
def Daemon.waitingFor (host : Endian) (l : List (Nat × List Byte)) (queue : List Client) : Daemon :=
  { fifo := queue.flatMap (Client.entry host), doExit := false, processed := l }

/-- The first byte of an entry is not that of the stop command. -/
theorem take_header_ne_stopCommand (c : Client) (tail : List Byte) :
    (c.header host ++ tail).take stopCommand.length ≠ stopCommand := by
  intro h
  have hfirst : (c.header host ++ tail)[0]? = stopCommand[0]? := by
    rw [← h, List.getElem?_take]
    rfl
  cases host
  · exact absurd (Option.some.inj hfirst) (by decide)
  · exact absurd (Option.some.inj hfirst) (by decide)

/-- A read that finds a whole entry first handles it and drops what it read behind it. -/
theorem readLoop_entry (hfit : c.filename.length + 13 ≤ readSize) :
    (Daemon.waitingFor host l (c :: rest)).readLoop host = some
      { fifo := ((c :: rest).flatMap (Client.entry host)).drop readSize
        doExit := false
        processed := l ++ [((BitVec.ofNat 16 c.pid).toNat, c.filename)] } := by
  obtain ⟨tail, htail⟩ : ∃ tail, ((c :: rest).flatMap (Client.entry host)).take readSize =
      c.entry host ++ tail := by
    rw [List.flatMap_cons, List.take_append,
      List.take_of_length_le (by rw [Client.length_entry]; omega)]
    exact ⟨_, rfl⟩
  have hlen : (c.entry host ++ tail).length = 13 + c.filename.length + tail.length := by
    rw [List.length_append, Client.length_entry]
  have hstop : ∀ pad, (c.entry host ++ tail ++ pad).take stopCommand.length ≠ stopCommand := by
    intro pad
    rw [Client.entry_eq, List.append_assoc, List.append_assoc]
    exact take_header_ne_stopCommand c _
  have hparse : ∀ pad, parseProcessEntry host (c.entry host ++ tail ++ pad) =
      .ok (BitVec.ofNat 16 c.pid, c.filename) := by
    intro pad
    rw [List.append_assoc]
    exact c.parseProcessEntry_entry _
  simp only [Daemon.readLoop, Daemon.waitingFor, htail, Bool.false_eq_true, if_false]
  rw [if_neg (by omega), if_neg (fun h => hstop _ h.2),
    if_neg (by rw [hlen, sizeofProcessEntry]; omega), hparse]

/-- A read that finds only the start of the first entry runs off its buffer. -/
theorem readLoop_cut (hlong : readSize < c.filename.length + 13) :
    (Daemon.waitingFor host l (c :: rest)).readLoop host = none := by
  have hcut : readSize < (c.entry host).length := by
    rw [Client.length_entry]
    omega
  have htake : ((c :: rest).flatMap (Client.entry host)).take readSize =
      (c.entry host).take readSize := by
    rw [List.flatMap_cons, List.take_append_of_le_length (by omega)]
  have hlen : ((c.entry host).take readSize).length = readSize := by
    rw [List.length_take]
    omega
  have hstop : ((c.entry host).take readSize).take stopCommand.length ≠ stopCommand := by
    rw [List.take_take, Client.entry_eq]
    exact take_header_ne_stopCommand c _
  have hparse := c.parseProcessEntry_cut host (n := readSize) (by decide) hcut
  simp only [Daemon.readLoop, Daemon.waitingFor, htake, Bool.false_eq_true, if_false, hlen,
    Nat.sub_self, List.replicate_zero, List.append_nil]
  rw [if_neg (by decide), if_neg (fun h => hstop h.2), if_neg (by decide), hparse]

theorem readLoop_nil :
    (Daemon.waitingFor host l []).readLoop host = some (Daemon.waitingFor host l []) := by
  simp [Daemon.readLoop, Daemon.waitingFor]

theorem waitingFor_accounts (queue : List Client) :
    (Daemon.waitingFor host l queue).Accounts host (l ++ queue.map Client.request) :=
  ⟨queue, rfl, rfl⟩

/-- If all requests are still accounted for after a read, then the read took exactly one entry. -/
theorem readsOne_of_accounts {d : Daemon}
    (hstep : (Daemon.waitingFor host l (c :: rest)).readLoop host = some d)
    (hacc : d.Accounts host (l ++ (c :: rest).map Client.request)) : ReadsOne (c :: rest) := by
  by_cases hfit : c.filename.length + 13 ≤ readSize
  · rw [readLoop_entry hfit, Option.some.injEq] at hstep
    subst hstep
    obtain ⟨waiting, hproc, hfifo⟩ := hacc
    simp only [List.append_assoc, List.singleton_append, List.map_cons] at hproc
    obtain ⟨hhead, hwaiting⟩ := List.cons.inj (List.append_cancel_left hproc)
    have hpid : (BitVec.ofNat 16 c.pid).toNat = c.pid := congrArg Prod.fst hhead
    rw [BitVec.toNat_ofNat] at hpid
    have hlen := congrArg List.length hfifo
    rw [Client.request_injective.list_map hwaiting, List.flatMap_cons, List.length_drop,
      List.length_append, Client.length_entry] at hlen
    refine ⟨by omega, hfit, ?_⟩
    cases rest with
    | nil => exact Or.inl rfl
    | cons c' rest' =>
      rw [List.flatMap_cons, List.length_append, Client.length_entry] at hlen
      exact Or.inr (by omega)
  · rw [readLoop_cut (by omega)] at hstep
    simp at hstep

/-- A read that takes exactly one entry moves its request to those processed. -/
theorem readLoop_readsOne (h : ReadsOne (c :: rest)) :
    (Daemon.waitingFor host l (c :: rest)).readLoop host =
      some (Daemon.waitingFor host (l ++ [c.request]) rest) := by
  obtain ⟨hpid, hfit, hrest⟩ := h
  have hfifo : ((c :: rest).flatMap (Client.entry host)).drop readSize =
      rest.flatMap (Client.entry host) := by
    rw [List.flatMap_cons]
    rcases hrest with rfl | hexact
    · rw [List.flatMap_nil, List.append_nil, List.drop_eq_nil_of_le]
      rw [Client.length_entry]
      omega
    · rw [← hexact, Nat.add_comm, ← Client.length_entry host, List.drop_left]
  have hrequest : ((BitVec.ofNat 16 c.pid).toNat, c.filename) = c.request := by
    rw [BitVec.toNat_ofNat, Nat.mod_eq_of_lt hpid]
    rfl
  rw [readLoop_entry hfit, hfifo, hrequest]
  rfl

end Round

/-! ### Whole runs -/

section Runs

variable {host : Endian}

/-- `NoneLost`, from a state `d` in which `sent` were written before. -/
def NoneLostFrom (host : Endian) (d : Daemon) (sent : List (Nat × List Byte))
    (evs : List DaemonEvent) : Prop :=
  ∀ pre, pre <+: evs →
    ∃ d', pre.foldlM (Daemon.step host) d = some d' ∧ d'.Accounts host (sent ++ written pre)

theorem noneLostFrom_nil {d : Daemon} {sent : List (Nat × List Byte)} :
    NoneLostFrom host d sent [] ↔ d.Accounts host sent := by
  constructor
  · intro h
    obtain ⟨d', hrun, hacc⟩ := h [] (List.prefix_refl _)
    simp only [List.foldlM_nil, Option.pure_def, Option.some.injEq] at hrun
    subst hrun
    simpa [written] using hacc
  · intro h pre hpre
    rw [List.prefix_nil] at hpre
    subst hpre
    exact ⟨d, rfl, by simpa [written] using h⟩

theorem written_cons (ev : DaemonEvent) (evs : List DaemonEvent) :
    written (ev :: evs) = written [ev] ++ written evs := by
  cases ev <;> rfl

/-- Nothing is lost in a run when nothing is lost before it, its first step is defined and nothing
is lost from there. -/
theorem noneLostFrom_cons {d : Daemon} {sent : List (Nat × List Byte)} {ev : DaemonEvent}
    {evs : List DaemonEvent} :
    NoneLostFrom host d sent (ev :: evs) ↔ d.Accounts host sent ∧
      ∃ d', d.step host ev = some d' ∧ NoneLostFrom host d' (sent ++ written [ev]) evs := by
  constructor
  · intro h
    refine ⟨noneLostFrom_nil.mp fun pre hpre => h pre (hpre.trans List.nil_prefix), ?_⟩
    obtain ⟨d₁, hd₁, -⟩ := h [ev] (by simp)
    replace hd₁ : d.step host ev = some d₁ := by simpa using hd₁
    refine ⟨d₁, hd₁, fun pre hpre => ?_⟩
    obtain ⟨d', hrun, hacc⟩ := h (ev :: pre) (List.prefix_cons_inj ev |>.mpr hpre)
    rw [List.foldlM_cons, hd₁] at hrun
    rw [written_cons, ← List.append_assoc] at hacc
    exact ⟨d', hrun, hacc⟩
  · rintro ⟨hacc, d₁, hd₁, h⟩ pre hpre
    rcases List.prefix_cons_iff.mp hpre with rfl | ⟨pre', rfl, hpre'⟩
    · exact ⟨d, rfl, by simpa [written] using hacc⟩
    · obtain ⟨d', hrun, hacc'⟩ := h pre' hpre'
      refine ⟨d', ?_, ?_⟩
      · rw [List.foldlM_cons, hd₁]
        exact hrun
      · rw [written_cons, ← List.append_assoc]
        exact hacc'

theorem NoneLostFrom.accounts {d : Daemon} {sent : List (Nat × List Byte)}
    {evs : List DaemonEvent} (h : NoneLostFrom host d sent evs) : d.Accounts host sent :=
  noneLostFrom_nil.mp fun pre hpre => h pre (hpre.trans List.nil_prefix)

/-- From a state with `queue` waiting, nothing is lost if and only if each read takes exactly one
of the entries. -/
theorem noneLostFrom_iff (evs : List DaemonEvent) (l : List (Nat × List Byte))
    (queue : List Client) :
    NoneLostFrom host (Daemon.waitingFor host l queue) (l ++ queue.map Client.request) evs ↔
      AllReadOne queue evs := by
  induction evs generalizing l queue with
  | nil => exact iff_of_true (noneLostFrom_nil.mpr (waitingFor_accounts queue)) trivial
  | cons ev evs ih =>
    rw [noneLostFrom_cons, and_iff_right (waitingFor_accounts queue)]
    cases ev with
    | write c =>
      have hstep : (Daemon.waitingFor host l queue).step host (.write c) =
          some (Daemon.waitingFor host l (queue ++ [c])) := by
        simp [Daemon.step, Daemon.waitingFor]
      have hsent : l ++ queue.map Client.request ++ written [.write c] =
          l ++ (queue ++ [c]).map Client.request := by
        simp [written]
      rw [hstep, hsent]
      simp only [Option.some.injEq, exists_eq_left', ih, AllReadOne]
    | read =>
      rw [show written [.read] = [] from rfl, List.append_nil]
      cases queue with
      | nil =>
        rw [Daemon.step, readLoop_nil]
        simp only [Option.some.injEq, exists_eq_left', ih, AllReadOne, ReadsOne, List.tail_nil,
          true_and]
      | cons c rest =>
        have hsent : l ++ (c :: rest).map Client.request =
            l ++ [c.request] ++ rest.map Client.request := by
          simp
        rw [Daemon.step, AllReadOne, List.tail_cons]
        constructor
        · rintro ⟨d, hstep, hlost⟩
          have hone := readsOne_of_accounts hstep hlost.accounts
          rw [readLoop_readsOne hone, Option.some.injEq] at hstep
          rw [← hstep, hsent, ih] at hlost
          exact ⟨hone, hlost⟩
        · rintro ⟨hone, hall⟩
          refine ⟨_, readLoop_readsOne hone, ?_⟩
          rw [hsent, ih]
          exact hall

/-- No registration is lost in a run if and only if each of its reads finds the FIFO empty or takes
exactly the first entry out of it, with a process id of 16 bits. -/
theorem noneLost_iff (host : Endian) (evs : List DaemonEvent) :
    NoneLost host evs ↔ AllReadOne [] evs :=
  noneLostFrom_iff evs [] []

end Runs

/-- A process with a short file name. -/
def smallClient (pid : Nat) : Client :=
  { pid, filename := ascii "/a", noNul := by decide, fits := by decide }

/-- Two processes that write before the daemon reads: the second one is skipped. -/
theorem not_noneLost_two_writes :
    ¬ NoneLost .little [.write (smallClient 1), .write (smallClient 2), .read] := by
  intro h
  have hall := (noneLostFrom_iff _ [] []).mp h
  simp [AllReadOne, ReadsOne, smallClient, readSize, ascii] at hall

end Kcov.SystemMode
