import Kcov.Solib.PhdrData
import Mathlib.Data.List.Induction

/-! The thread that reads the messages of the preloaded library from a FIFO: it decodes each read on
its own. -/

namespace Kcov.Solib

open Bytes

/-- `buf_.size()`. -/
def solibBufSize : Nat := 104857600

/-- What a call of `read` in `solibThreadParse` returns. -/
inductive SolibRead where
  | data (bytes : List Byte)
  /-- Nothing is left and no one has the FIFO open: `solibThreadMain` starts again with a new
  buffer. -/
  | eof

/-- The buffer and `m_phdrs`. -/
structure SolibThread where
  buf : List Byte
  phdrs : List (List Byte)

namespace SolibThread

/-- One round of the loop, or `none` where it panics or copies from outside its buffer. A read
overwrites the start of the buffer and leaves the rest as it was. -/
def step (host : Endian) (s : SolibThread) : SolibRead → Option SolibThread
  | .eof => some { s with buf := zeros solibBufSize }
  | .data bytes =>
    if bytes.length ≥ solibBufSize then none
    else
      let buf := bytes ++ s.buf.drop bytes.length
      match phdrDataUnmarshal host buf with
      | none => some { s with buf := buf }
      | some nEntries => do
        let cpy ← read buf 0 (sizeofPhdrData + nEntries * sizeofEntry)
        return { buf := buf, phdrs := s.phdrs ++ [cpy] }

/-- A sequence of reads, from the start of the thread. -/
def run (host : Endian) (reads : List SolibRead) : Option SolibThread :=
  reads.foldlM (step host) { buf := zeros solibBufSize, phdrs := [] }

end SolibThread

/-! ### The stream -/

/-- The bytes of the reads that return some. -/
def pieces (reads : List SolibRead) : List (List Byte) :=
  reads.filterMap fun r =>
    match r with
    | .data bytes => some bytes
    | .eof => none

/-- The reads cut the stream of the messages. -/
structure Cuts (host : Endian) (messages : List PhdrData) (reads : List SolibRead) : Prop where
  stream : (pieces reads).flatten = messages.flatMap (PhdrData.encode host)
  pieces : ∀ bytes ∈ pieces reads, bytes ≠ [] ∧ bytes.length ≤ solibBufSize

/-- The copies in `m_phdrs` are the messages. -/
def Survive (host : Endian) (messages : List PhdrData) (reads : List SolibRead) : Prop :=
  ∃ s, SolibThread.run host reads = some s ∧ s.phdrs = messages.map (PhdrData.encode host)

section Survive

variable {host : Endian} {s t : SolibThread}

theorem step_message (hbuf : s.buf.length = solibBufSize) (p : PhdrData) :
    ∃ buf, buf.length = solibBufSize ∧ s.step host (.data (p.encode host)) =
      some { buf := buf, phdrs := s.phdrs ++ [p.encode host] } := by
  have hlen := p.length_encode host
  have hfits := p.fits
  have hsmall : dataAreaSize < solibBufSize := by decide
  have hread : read (p.encode host ++ s.buf.drop (p.encode host).length) 0
      (sizeofPhdrData + p.entries.length * sizeofEntry) = some (p.encode host) := by
    rw [read_eq_some, List.drop_zero, List.take_left' (by rw [hlen, Nat.mul_comm])]
    refine ⟨?_, rfl⟩
    rw [List.length_append, hlen, Nat.mul_comm]
    omega
  refine ⟨p.encode host ++ s.buf.drop (p.encode host).length, ?_, ?_⟩
  · rw [List.length_append, List.length_drop]
    omega
  · simp only [SolibThread.step, phdrDataUnmarshal_encode, hread]
    rw [if_neg (by omega)]
    rfl

/-- Reads that return one message each add the messages. -/
theorem foldlM_messages (messages : List PhdrData) (reads : List SolibRead)
    (hreads : pieces reads = messages.map (PhdrData.encode host))
    (hbuf : s.buf.length = solibBufSize) :
    ∃ t, reads.foldlM (SolibThread.step host) s = some t ∧
      t.phdrs = s.phdrs ++ messages.map (PhdrData.encode host) := by
  induction reads generalizing s messages with
  | nil =>
    cases messages with
    | nil => exact ⟨s, rfl, by simp⟩
    | cons p messages => simp [pieces] at hreads
  | cons r reads ih =>
    cases r with
    | eof =>
      obtain ⟨t, hrun, hphdrs⟩ := @ih { s with buf := zeros solibBufSize } messages hreads
        List.length_replicate
      exact ⟨t, hrun, hphdrs⟩
    | data bytes =>
      cases messages with
      | nil => simp [pieces] at hreads
      | cons p messages =>
        obtain ⟨rfl, hrest⟩ : bytes = p.encode host ∧
            pieces reads = messages.map (PhdrData.encode host) := by
          simpa [pieces] using hreads
        obtain ⟨buf, hlen, hstep⟩ := step_message hbuf p
        obtain ⟨t, hrun, hphdrs⟩ := @ih { buf := buf, phdrs := s.phdrs ++ [p.encode host] } messages
          hrest hlen
        refine ⟨t, ?_, ?_⟩
        · rw [List.foldlM_cons, hstep]
          exact hrun
        · rw [hphdrs, List.map_cons, List.append_assoc]
          rfl

theorem length_phdrs_step {r : SolibRead} (h : s.step host r = some t) :
    t.phdrs.length ≤ s.phdrs.length + (pieces [r]).length := by
  cases r with
  | eof =>
    cases h
    exact Nat.le_add_right _ _
  | data bytes =>
    have hone : (pieces [.data bytes]).length = 1 := rfl
    rw [hone]
    simp only [SolibThread.step] at h
    split at h
    · cases h
    · split at h
      · cases h
        exact Nat.le_succ _
      · rw [Option.bind_eq_bind, Option.bind_eq_some_iff] at h
        obtain ⟨cpy, -, hcpy⟩ := h
        cases hcpy
        rw [List.length_append, List.length_singleton]

theorem length_phdrs_foldlM (reads : List SolibRead)
    (h : reads.foldlM (SolibThread.step host) s = some t) :
    t.phdrs.length ≤ s.phdrs.length + (pieces reads).length := by
  induction reads generalizing s with
  | nil =>
    cases h
    exact Nat.le_add_right _ _
  | cons r reads ih =>
    rw [List.foldlM_cons, Option.bind_eq_bind, Option.bind_eq_some_iff] at h
    obtain ⟨u, hstep, hrest⟩ := h
    have hone := length_phdrs_step hstep
    have hmore := ih hrest
    have hsplit : (pieces (r :: reads)).length = (pieces [r]).length + (pieces reads).length := by
      cases r with
      | data bytes => exact Nat.add_comm _ _
      | eof => exact (Nat.zero_add _).symm
    omega

theorem survive_of_pieces {messages : List PhdrData} {reads : List SolibRead}
    (h : pieces reads = messages.map (PhdrData.encode host)) : Survive host messages reads := by
  obtain ⟨t, hrun, hphdrs⟩ := @foldlM_messages host { buf := zeros solibBufSize, phdrs := [] }
    messages reads h List.length_replicate
  exact ⟨t, hrun, hphdrs⟩

/-- Messages are lost when there are more of them than reads. -/
theorem not_survive_of_lt {messages : List PhdrData} {reads : List SolibRead}
    (h : (pieces reads).length < messages.length) : ¬Survive host messages reads := by
  rintro ⟨t, hrun, hphdrs⟩
  have hle := length_phdrs_foldlM reads hrun
  rw [hphdrs, List.length_map, List.length_nil] at hle
  omega

/-- The messages survive when each read returns one of them, and not when there are fewer reads than
messages. -/
theorem messages_survive (host : Endian) (messages : List PhdrData) (reads : List SolibRead) :
    (pieces reads = messages.map (PhdrData.encode host) → Survive host messages reads) ∧
      ((pieces reads).length < messages.length → ¬Survive host messages reads) :=
  ⟨survive_of_pieces, not_survive_of_lt⟩

/-- Processes whose objects fit in the library's memory hand all of them to the thread, however
often libraries are loaded. -/
theorem parseSolibs_survive (host : Endian) {loads : List (List DlPhdrInfo)}
    (hfits : ∀ infos ∈ loads, sizeofPhdrData + sizeofEntry * infos.length ≤ dataAreaSize) :
    ∃ messages, loads.mapM parseSolibs = some messages ∧ ∀ reads,
      pieces reads = messages.map (PhdrData.encode host) → Survive host messages reads := by
  have hmessages : ∃ messages, loads.mapM parseSolibs = some messages := by
    induction loads with
    | nil => exact ⟨[], rfl⟩
    | cons infos loads ih =>
      rw [List.forall_mem_cons] at hfits
      obtain ⟨p, hp⟩ := Option.isSome_iff_exists.mp ((isSome_parseSolibs infos).mpr hfits.1)
      obtain ⟨messages, hrest⟩ := ih hfits.2
      exact ⟨p :: messages, by simp [List.mapM_cons, hp, hrest]⟩
  obtain ⟨messages, hrun⟩ := hmessages
  exact ⟨messages, hrun, fun reads => survive_of_pieces⟩

end Survive

/-- The message of a process with one object at address 0x400000. -/
def oneObject : PhdrData :=
  { relocation := 0
    entries :=
      [{ name := ascii "/lib/a.so"
         segments := [{ paddr := 0, vaddr := 0x400000, size := 4096 }]
         nameFits := by decide
         segmentsFit := by decide }]
    fits := by decide }

theorem messages_survive_one_by_one :
    Survive .little [oneObject, oneObject]
      [.data (oneObject.encode .little), .eof, .data (oneObject.encode .little)] :=
  (messages_survive .little [oneObject, oneObject] _).1 rfl

/-- Two messages that are there at once are returned by one read, and the second one is lost. -/
theorem not_survive_coalesced :
    Cuts .little [oneObject, oneObject]
        [.data (oneObject.encode .little ++ oneObject.encode .little)] ∧
      ¬Survive .little [oneObject, oneObject]
        [.data (oneObject.encode .little ++ oneObject.encode .little)] := by
  have hlen := oneObject.length_encode .little
  have hone : sizeofPhdrData + sizeofEntry * oneObject.entries.length = 2592 := rfl
  have hsize : solibBufSize = 104857600 := rfl
  refine ⟨⟨by simp [pieces], fun bytes hbytes => ?_⟩, not_survive_of_lt (by simp [pieces])⟩
  obtain rfl : bytes = oneObject.encode .little ++ oneObject.encode .little := by
    simpa [pieces] using hbytes
  have htwo : (oneObject.encode .little ++ oneObject.encode .little).length = 5184 := by
    rw [List.length_append]
    omega
  refine ⟨List.length_pos_iff.mp (by omega), by omega⟩

end Kcov.Solib
