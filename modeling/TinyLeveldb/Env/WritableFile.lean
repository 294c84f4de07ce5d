import TinyLeveldb.Basic
import TinyLeveldb.Library.Fallible

/-!
# The buffered output file

`class WritableFile`: appended bytes are collected in a buffer of 1024 bytes that is handed to
`WriteToFile` when the next slice does not fit. What `WriteToFile` returns, and what it leaves
in the file, is up to the operating system, so it is a parameter of the model: `δ` is whatever
is known of the open file descriptor.

The constructor does not initialise `has_buffer_size`. Any value is possible in the model, and
a copy that leaves the buffer is a fault.
-/

namespace TinyLeveldb

open Library

/-- `MAX_BUFFER_SIZE`. -/
def maxBufferSize : ℕ := 1024

/-- `memcpy(buffer + offset, src, n)` for the `n` bytes of `src`. -/
def memcpy (buffer : Bytes) (offset : ℤ) (src : Bytes) : Except Fault Bytes :=
  if 0 ≤ offset ∧ offset + src.length ≤ buffer.length then
    .ok (buffer.take offset.toNat ++ src ++ buffer.drop (offset.toNat + src.length))
  else .error .outOfBounds

/-- `class WritableFile`, over the state `δ` of its file descriptor. -/
structure WritableFile (δ : Type) where
  fd : δ
  buffer : Bytes
  hasBufferSize : ℤ

namespace WritableFile

/-- `WriteToFile` when every `write` succeeds: all bytes reach the file. -/
def writeAll (fd data : Bytes) : Except Fault (Status × Bytes) := .ok (.ok, fd ++ data)

/-- A new file, on zeroed memory. -/
def zeroed : WritableFile Bytes where
  fd := []
  buffer := List.replicate maxBufferSize 0
  hasBufferSize := 0

variable {δ : Type} (writeToFile : δ → Bytes → Except Fault (Status × δ))

/-- `FlushBUffer`. -/
def flushBuffer (f : WritableFile δ) : Except Fault (Status × WritableFile δ) :=
  if f.hasBufferSize > 0 then
    if f.hasBufferSize ≤ f.buffer.length then do
      let (s, fd) ← writeToFile f.fd (f.buffer.take f.hasBufferSize.toNat)
      .ok (s, { fd, buffer := List.replicate maxBufferSize 0, hasBufferSize := 0 })
    else .error .outOfBounds
  else .ok (.ioError, f)

/-- `Append`. Its sum of two `int`s wraps. -/
def append (f : WritableFile δ) (data : Slice) : Except Fault (Status × WritableFile δ) :=
  if (f.hasBufferSize + data.size).bmod (2 ^ 32) < maxBufferSize then do
    let buffer ← memcpy f.buffer f.hasBufferSize data.data
    .ok (.ok, { f with buffer, hasBufferSize := (f.hasBufferSize + data.size).bmod (2 ^ 32) })
  else do
    let (_, f) ← f.flushBuffer writeToFile
    if data.size > maxBufferSize then do
      let (s, fd) ← writeToFile f.fd data.data
      .ok (s, { f with fd })
    else do
      let buffer ← memcpy f.buffer 0 data.data
      .ok (.ok, { f with buffer, hasBufferSize := data.size })

variable {writeToFile}

/-- A slice that fits the buffer is always accepted: only `WriteToFile` on the slice itself
makes `Append` return anything but `OK`. -/
theorem status_append {f f' : WritableFile δ} {data : Slice} {s : Status}
    (h : f.append writeToFile data = .ok (s, f')) (hsize : data.size ≤ maxBufferSize) :
    s = .ok := by
  unfold append at h
  split at h
  · obtain ⟨buffer, -, h⟩ := bind_eq_ok.mp h
    cases h
    rfl
  · obtain ⟨⟨s', g⟩, -, h⟩ := bind_eq_ok.mp h
    simp only [if_neg (Nat.not_lt.mpr hsize)] at h
    obtain ⟨buffer, -, h⟩ := bind_eq_ok.mp h
    cases h
    rfl

end WritableFile

end TinyLeveldb
