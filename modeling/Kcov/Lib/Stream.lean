import Kcov.Lib.Decoder

/-! Buffered input from a pipe: a reader takes bytes from a buffer that is filled from the pipe, and
finds the end of the file when the pipe is empty and its other end is closed. -/

namespace Bytes

/-- The input end of a pipe. -/
structure Stream where
  buffer : List Byte
  pipe : List Byte
  /-- No one writes to the pipe any more. -/
  closed : Bool
  /-- The reader has found the end of the file. -/
  eof : Bool
  deriving DecidableEq, Repr

namespace Stream

variable {f : Stream} {n : Nat}

/-- The bytes that have been written and not yet been taken. -/
def pending (f : Stream) : List Byte := f.buffer ++ f.pipe

/-- Taking `n` bytes, or `none` as long as this blocks. When the buffer does not have them, up to
`ahead` more bytes are read into it. -/
def fread (f : Stream) (n ahead : Nat) : Option (List Byte × Stream) :=
  if n ≤ f.buffer.length then some (f.buffer.take n, { f with buffer := f.buffer.drop n })
  else if n ≤ f.pending.length ∨ f.closed then
    some (f.pending.take n,
      { f with
        buffer := (f.pending.drop n).take ahead
        pipe := (f.pending.drop n).drop ahead
        eof := f.eof || f.pending.length < n })
  else none

/-- What the buffer holds after `n` bytes have been taken. -/
def buffered (f : Stream) (n ahead : Nat) : List Byte :=
  if n ≤ f.buffer.length then f.buffer.drop n else (f.pending.drop n).take ahead

/-- Taking `n` bytes into a buffer of `size` bytes, from offset `off` on. What has been delivered is
stored even as long as the call blocks for the rest. The system reads no more bytes at once than a
signed number can count: for more than that, the call only takes what is buffered. -/
def freadAt (f : Stream) (size off n ahead : Nat) : Except Stop (Option (List Byte × Stream)) :=
  if n < 2 ^ 63 then
    if off + (f.pending.take n).length ≤ size then .ok (f.fread n ahead) else .error .outOfBounds
  else if off + f.buffer.length ≤ size then .ok (some (f.buffer, { f with buffer := [] }))
  else .error .outOfBounds

theorem freadAt_of_lt {size off : Nat} (hn : n < 2 ^ 63)
    (hroom : off + (f.pending.take n).length ≤ size) (ahead : Nat) :
    f.freadAt size off n ahead = .ok (f.fread n ahead) := by
  rw [freadAt, if_pos hn, if_pos hroom]

/-- What a call leaves in the buffer. -/
theorem buffer_of_fread {ahead : Nat} {bytes : List Byte} {f' : Stream}
    (h : f.fread n ahead = some (bytes, f')) : f'.buffer = f.buffered n ahead := by
  unfold fread at h
  unfold buffered
  split at h
  next hn =>
    cases h
    rw [if_pos hn]
  next hn =>
    rw [if_neg hn]
    split at h
    · cases h
      rfl
    · cases h

theorem fread_of_le (h : n ≤ f.pending.length) (ahead : Nat) :
    ∃ f', f.fread n ahead = some (f.pending.take n, f') ∧ f'.pending = f.pending.drop n ∧
      f'.closed = f.closed ∧ f'.eof = f.eof := by
  unfold fread
  split
  · rename_i hbuffer
    refine ⟨{ f with buffer := f.buffer.drop n }, ?_, ?_, rfl, rfl⟩
    · unfold pending
      rw [List.take_append_of_le_length hbuffer]
    · unfold pending
      rw [List.drop_append_of_le_length hbuffer]
  · refine ⟨_, if_pos (Or.inl h), ?_, rfl, ?_⟩
    · exact List.take_append_drop ahead _
    · rw [decide_eq_false (by omega), Bool.or_false]

theorem fread_of_end (hpending : f.pending = []) (hclosed : f.closed = true) (hn : 0 < n)
    (ahead : Nat) : ∃ f', f.fread n ahead = some ([], f') ∧ f'.pending = [] ∧
      f'.closed = true ∧ f'.eof = true := by
  have hbuffer : f.buffer = [] := (List.append_eq_nil_iff.mp hpending).1
  unfold fread
  rw [if_neg (by rw [hbuffer, List.length_nil]; omega), if_pos (Or.inr hclosed), hpending]
  exact ⟨{ f with buffer := [], pipe := [], eof := true }, by simp [hn], rfl, hclosed, rfl⟩

end Stream

end Bytes
