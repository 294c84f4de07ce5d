import TinyLeveldb.Env.WritableFile

/-!
# The buffered file is a stream

`WriteToFile` over the `write` of the operating system, which may write fewer bytes than it is
given, and what the buffer adds to it. The bytes of the file followed by the occupied part of
the buffer are the *stream* of the file: every completed `Append` extends it by its slice
(`stream_append`), every completed `FlushBUffer` leaves it alone (`stream_flushBuffer`).
-/

namespace TinyLeveldb

open Library

namespace WritableFile

variable {δ : Type}

/-! ### `WriteToFile` -/

section Write

variable (write : δ → Bytes → ℤ × δ)

/-- The first rounds of the loop of `WriteToFile`, with `write fd p` for `write(fd, p, n)`: what it
returned, if it did, and the descriptor afterwards. `write_size` is unsigned, so `write_size < 0`
never holds, and a failed `write` counts as one of `2 ^ 64 - 1` bytes. -/
def writeRounds (data : Bytes) : ℕ → ℕ → δ → Option Status × δ
  | 0, _, fd => (none, fd)
  | rounds + 1, offset, fd =>
      if offset < data.length then
        let (count, fd) := write fd (data.drop offset)
        let writeSize := (count % 2 ^ 64).toNat
        let offset := (offset + writeSize) % 2 ^ 64
        if offset ≥ data.length then (some .ok, fd) else writeRounds data rounds offset fd
      else (some .ok, fd)

/-- `WriteToFile`: it returns what its last round does. -/
def writeToFile (fuel : ℕ) (fd : δ) (data : Bytes) : Except Fault (Status × δ) :=
  match writeRounds write data fuel 0 fd with
  | (some s, fd) => .ok (s, fd)
  | (none, _) => .error .diverged

/-- Every `write` of at least one byte writes at least one of them, and returns their number. -/
def ShortWrites (written : δ → Bytes) : Prop :=
  ∀ fd p, p ≠ [] → ∃ n : ℕ, 1 ≤ n ∧ n ≤ p.length ∧ (write fd p).1 = n ∧
    written (write fd p).2 = written fd ++ p.take n

end Write

/-- `WriteToFile` brings the bytes of every slice to the file. -/
def Delivers (writeToFile : δ → Bytes → Except Fault (Status × δ)) (written : δ → Bytes) : Prop :=
  ∀ fd p, p.length < 2 ^ 31 →
    ∃ fd', writeToFile fd p = .ok (.ok, fd') ∧ written fd' = written fd ++ p

theorem delivers_writeAll : Delivers writeAll id := fun fd p _ => ⟨fd ++ p, rfl, rfl⟩

/-- Each round of the loop leaves fewer bytes to write, whatever `write` makes of them. -/
theorem writeRounds_eq {write : δ → Bytes → ℤ × δ} {written : δ → Bytes}
    (hwrite : ShortWrites write written) {data : Bytes} (hdata : data.length < 2 ^ 31) {rounds : ℕ}
    {offset : ℕ} (fd : δ) (hoffset : offset < data.length)
    (hrounds : data.length - offset ≤ rounds) :
    ∃ fd', writeRounds write data rounds offset fd = (some .ok, fd') ∧
      written fd' = written fd ++ data.drop offset := by
  induction rounds generalizing offset fd with
  | zero => omega
  | succ rounds ih =>
    have hne : data.drop offset ≠ [] := by
      rw [ne_eq, List.drop_eq_nil_iff]
      omega
    obtain ⟨n, hpos, hle, hcount, hwritten⟩ := hwrite fd (data.drop offset) hne
    rw [List.length_drop] at hle
    have hsum : (offset + ((write fd (data.drop offset)).1 % 2 ^ 64).toNat) % 2 ^ 64 =
        offset + n := by
      rw [hcount]
      omega
    rw [writeRounds, if_pos hoffset]
    simp only [hsum]
    split
    · -- everything is written
      rename_i hend
      refine ⟨_, rfl, ?_⟩
      rw [hwritten, List.take_of_length_le (by rw [List.length_drop]; omega)]
    · rename_i hend
      have hlt : offset + n < data.length := Nat.lt_of_not_le hend
      obtain ⟨fd', hloop, hrest⟩ := ih (write fd (data.drop offset)).2 hlt (by omega)
      refine ⟨fd', hloop, ?_⟩
      rw [hrest, hwritten, List.append_assoc, ← List.drop_drop, List.take_append_drop]

/-- Short writes are enough for `WriteToFile` to deliver. -/
theorem ShortWrites.delivers {write : δ → Bytes → ℤ × δ} {written : δ → Bytes}
    (hwrite : ShortWrites write written) {fuel : ℕ} (hfuel : 2 ^ 31 ≤ fuel) :
    Delivers (writeToFile write fuel) written := by
  intro fd p hp
  rcases p.eq_nil_or_concat with rfl | ⟨_, _, hcons⟩
  · obtain ⟨fuel, rfl⟩ : ∃ fuel', fuel = fuel' + 1 := ⟨fuel - 1, by omega⟩
    exact ⟨fd, rfl, by simp⟩
  · have hpos : 0 < p.length := by simp [hcons]
    have hle : p.length - 0 ≤ fuel := by omega
    obtain ⟨fd', hloop, hwritten⟩ := writeRounds_eq hwrite hp fd hpos hle
    exact ⟨fd', by rw [writeToFile, hloop], hwritten⟩

/-! ### The stream -/

theorem memcpy_eq_ok {buffer buffer' src : Bytes} {offset : ℤ} :
    memcpy buffer offset src = .ok buffer' ↔ 0 ≤ offset ∧ offset + src.length ≤ buffer.length ∧
      buffer' = buffer.take offset.toNat ++ src ++ buffer.drop (offset.toNat + src.length) := by
  rw [memcpy]
  split
  · rename_i hbounds
    simp [hbounds, eq_comm]
  · rename_i hbounds
    refine iff_of_false (by simp) ?_
    rintro ⟨h0, hle, -⟩
    exact hbounds ⟨h0, hle⟩

/-- The bytes written so far, followed by the occupied part of the buffer. -/
def stream (written : δ → Bytes) (f : WritableFile δ) : Bytes :=
  written f.fd ++ f.buffer.take f.hasBufferSize.toNat

/-- The buffer is the array of the source, and its occupied part lies inside it. -/
structure Buffered (f : WritableFile δ) : Prop where
  length_buffer : f.buffer.length = maxBufferSize
  nonneg : 0 ≤ f.hasBufferSize
  le : f.hasBufferSize ≤ maxBufferSize

variable {writeToFile : δ → Bytes → Except Fault (Status × δ)} {written : δ → Bytes}
  {f f' : WritableFile δ} {s : Status}

/-- A completed `FlushBUffer` found nothing to write, or wrote the buffer and emptied it. -/
theorem flushBuffer_cases (h : f.flushBuffer writeToFile = .ok (s, f')) :
    (f.hasBufferSize ≤ 0 ∧ s = .ioError ∧ f' = f) ∨
    (0 < f.hasBufferSize ∧ ∃ fd,
      writeToFile f.fd (f.buffer.take f.hasBufferSize.toNat) = .ok (s, fd) ∧
      f' = { fd, buffer := List.replicate maxBufferSize 0, hasBufferSize := 0 }) := by
  rw [flushBuffer] at h
  split at h
  · rename_i hpos
    refine .inr ⟨hpos, ?_⟩
    split at h
    · obtain ⟨⟨t, fd⟩, hfd, h⟩ := bind_eq_ok.mp h
      cases h
      exact ⟨fd, hfd, rfl⟩
    · cases h
  · rename_i hempty
    cases h
    exact .inl ⟨Int.not_lt.mp hempty, rfl, rfl⟩

/-- A completed `FlushBUffer` moved its buffer to the file. -/
theorem stream_flushBuffer (hw : Delivers writeToFile written)
    (hbuffer : f.buffer.length = maxBufferSize) (h : f.flushBuffer writeToFile = .ok (s, f')) :
    f'.stream written = f.stream written ∧ f'.buffer.length = maxBufferSize ∧
      f'.hasBufferSize ≤ 0 := by
  rcases flushBuffer_cases h with ⟨hempty, -, rfl⟩ | ⟨hpos, fd, hfd, rfl⟩
  · exact ⟨rfl, hbuffer, hempty⟩
  · obtain ⟨fd', hfd', hwritten⟩ := hw f.fd (f.buffer.take f.hasBufferSize.toNat) (by
      rw [List.length_take, hbuffer, maxBufferSize]
      omega)
    cases hfd.symm.trans hfd'
    exact ⟨by simp [stream, hwritten], List.length_replicate, Int.le_refl 0⟩

/-- An `Append` that has room puts its slice behind the occupied part of the buffer. -/
theorem append_fits (written : δ → Bytes) (hbuffer : f.buffer.length = maxBufferSize)
    {data : Slice}
    (hfits : (f.hasBufferSize + data.size).bmod (2 ^ 32) < maxBufferSize)
    (h : f.append writeToFile data = .ok (s, f')) :
    s = .ok ∧ f'.fd = f.fd ∧ f'.stream written = f.stream written ++ data.data ∧ f'.Buffered := by
  rw [append, if_pos hfits] at h
  obtain ⟨buffer, hcopy, h⟩ := bind_eq_ok.mp h
  obtain ⟨hnonneg, hle, rfl⟩ := memcpy_eq_ok.mp hcopy
  cases h
  rw [hbuffer, maxBufferSize] at hle
  have hsum : (f.hasBufferSize + data.size).bmod (2 ^ 32) =
      f.hasBufferSize + data.data.length := by
    rw [Slice.size]
    exact Int.bmod_eq_of_le (by omega) (by omega)
  have htake : (f.hasBufferSize + data.data.length).toNat =
      (f.buffer.take f.hasBufferSize.toNat ++ data.data).length := by
    rw [List.length_append, List.length_take, hbuffer, maxBufferSize]
    omega
  refine ⟨rfl, rfl, ?_, ?_, ?_, ?_⟩
  · simp only [stream, hsum, htake, List.take_left]
    rw [List.append_assoc]
  · simp only [List.length_append, List.length_take, List.length_drop, hbuffer, maxBufferSize]
    omega
  · simp only [hsum]
    omega
  · simp only [hsum, maxBufferSize]
    omega

/-- A slice copied to the start of the buffer is all that is in it. -/
theorem stream_memcpy (written : δ → Bytes) {g : WritableFile δ}
    (hbuffer : g.buffer.length = maxBufferSize) {data : Slice} {buffer : Bytes}
    (hcopy : memcpy g.buffer 0 data.data = .ok buffer) :
    ({ g with buffer, hasBufferSize := data.size } : WritableFile δ).stream written =
        written g.fd ++ data.data ∧
      ({ g with buffer, hasBufferSize := data.size } : WritableFile δ).Buffered := by
  obtain ⟨-, hle, rfl⟩ := memcpy_eq_ok.mp hcopy
  rw [hbuffer, maxBufferSize] at hle
  refine ⟨by simp [stream, Slice.size], ?_, ?_, ?_⟩
  · simp only [List.length_append, List.length_take, List.length_drop, hbuffer, maxBufferSize]
    omega
  · simp only
    omega
  · simp only [Slice.size, maxBufferSize]
    omega

/-- An `Append` that has no room flushes the buffer, and then writes its slice or copies it to the
start of the buffer. -/
theorem append_cases {data : Slice}
    (hfits : ¬ (f.hasBufferSize + data.size).bmod (2 ^ 32) < maxBufferSize)
    (h : f.append writeToFile data = .ok (s, f')) :
    ∃ t g, f.flushBuffer writeToFile = .ok (t, g) ∧
      ((maxBufferSize < data.size ∧ ∃ fd, writeToFile g.fd data.data = .ok (s, fd) ∧
          f' = { g with fd }) ∨
        (data.size ≤ maxBufferSize ∧ s = .ok ∧ ∃ buffer,
          memcpy g.buffer 0 data.data = .ok buffer ∧
          f' = { g with buffer, hasBufferSize := data.size })) := by
  rw [append, if_neg hfits] at h
  obtain ⟨⟨t, g⟩, hflush, h⟩ := bind_eq_ok.mp h
  refine ⟨t, g, hflush, ?_⟩
  simp only at h
  split at h
  · rename_i hlarge
    obtain ⟨⟨s', fd⟩, hfd, h⟩ := bind_eq_ok.mp h
    cases h
    exact .inl ⟨hlarge, fd, hfd, rfl⟩
  · rename_i hsmall
    obtain ⟨buffer, hcopy, h⟩ := bind_eq_ok.mp h
    cases h
    exact .inr ⟨Nat.le_of_not_lt hsmall, rfl, buffer, hcopy, rfl⟩

/-- A completed `Append` extends the stream by its slice, whatever the buffer size was. -/
theorem stream_append (hw : Delivers writeToFile written)
    (hbuffer : f.buffer.length = maxBufferSize) {data : Slice}
    (h : f.append writeToFile data = .ok (s, f')) :
    f'.stream written = f.stream written ++ data.data ∧ f'.buffer.length = maxBufferSize := by
  by_cases hfits : (f.hasBufferSize + data.size).bmod (2 ^ 32) < maxBufferSize
  · obtain ⟨-, -, hstream, hf'⟩ := append_fits written hbuffer hfits h
    exact ⟨hstream, hf'.length_buffer⟩
  · obtain ⟨t, g, hflush, hrest⟩ := append_cases hfits h
    obtain ⟨hstream, hlength, hempty⟩ := stream_flushBuffer hw hbuffer hflush
    have hg : written g.fd = f.stream written := by
      rw [← hstream, stream, Int.toNat_of_nonpos hempty, List.take_zero, List.append_nil]
    rcases hrest with ⟨-, fd, hfd, rfl⟩ | ⟨-, -, buffer, hcopy, rfl⟩
    · obtain ⟨fd', hfd', hwritten⟩ := hw g.fd data.data data.size_lt
      cases hfd.symm.trans hfd'
      refine ⟨?_, hlength⟩
      simp only [stream, hwritten, hg, Int.toNat_of_nonpos hempty, List.take_zero, List.append_nil]
    · obtain ⟨hstream', hbuffered⟩ := stream_memcpy written hlength hcopy
      exact ⟨by rw [hstream', hg], hbuffered.length_buffer⟩

/-- A completed `Append` leaves nothing in the buffer exactly when its slice is too large for
it. -/
theorem hasBufferSize_append (hw : Delivers writeToFile written)
    (hbuffer : f.buffer.length = maxBufferSize) {data : Slice} (hdata : 0 < data.size)
    (h : f.append writeToFile data = .ok (s, f')) :
    f'.hasBufferSize ≤ 0 ↔ maxBufferSize < data.size := by
  by_cases hfits : (f.hasBufferSize + data.size).bmod (2 ^ 32) < maxBufferSize
  · rw [append, if_pos hfits] at h
    obtain ⟨buffer, hcopy, h⟩ := bind_eq_ok.mp h
    obtain ⟨hnonneg, hle, -⟩ := memcpy_eq_ok.mp hcopy
    cases h
    rw [hbuffer] at hle
    rw [Slice.size] at hdata
    have hsum : (f.hasBufferSize + data.data.length).bmod (2 ^ 32) =
        f.hasBufferSize + data.data.length := by
      rw [maxBufferSize] at hle
      exact Int.bmod_eq_of_le (by omega) (by omega)
    simp only [Slice.size, hsum]
    omega
  · obtain ⟨t, g, hflush, hrest⟩ := append_cases hfits h
    obtain ⟨-, -, hempty⟩ := stream_flushBuffer hw hbuffer hflush
    rcases hrest with ⟨hlarge, fd, -, rfl⟩ | ⟨hsmall, -, buffer, -, rfl⟩
    · exact iff_of_true hempty hlarge
    · simp only
      omega

/-- Nothing is in the buffer exactly when the whole stream is in the file. -/
theorem written_eq_stream_iff (hbuffer : f.buffer.length = maxBufferSize) :
    written f.fd = f.stream written ↔ f.hasBufferSize ≤ 0 := by
  have hne : f.buffer ≠ [] := by
    intro hnil
    rw [hnil] at hbuffer
    cases hbuffer
  rw [stream, List.self_eq_append_right, List.take_eq_nil_iff, or_iff_left hne, Int.toNat_eq_zero]

/-- Within its bounds, `FlushBUffer` completes and empties the buffer. -/
theorem Buffered.flushBuffer (hw : Delivers writeToFile written) (hf : f.Buffered) :
    ∃ s f', f.flushBuffer writeToFile = .ok (s, f') ∧ f'.Buffered ∧ f'.hasBufferSize = 0 := by
  obtain ⟨hbuffer, hnonneg, hle⟩ := hf
  rw [WritableFile.flushBuffer]
  split
  · obtain ⟨fd, hfd, -⟩ := hw f.fd (f.buffer.take f.hasBufferSize.toNat) (by
      rw [List.length_take, hbuffer, maxBufferSize]
      omega)
    rw [if_pos (by rw [hbuffer]; exact hle), hfd]
    exact ⟨.ok, _, rfl, ⟨List.length_replicate, Int.le_refl 0, by simp⟩, rfl⟩
  · exact ⟨.ioError, f, rfl, ⟨hbuffer, hnonneg, hle⟩, by omega⟩

/-- Within its bounds, `Append` completes and stays within them, for every slice that the sum of
the two `int`s can hold. -/
theorem Buffered.append (hw : Delivers writeToFile written) (hf : f.Buffered) {data : Slice}
    (hsize : data.size ≤ 2 ^ 31 - 1 - maxBufferSize) :
    ∃ f', f.append writeToFile data = .ok (.ok, f') ∧ f'.Buffered := by
  obtain ⟨hbuffer, hnonneg, hle⟩ := hf
  rw [maxBufferSize] at hsize hle
  have hsum : (f.hasBufferSize + data.size).bmod (2 ^ 32) = f.hasBufferSize + data.size :=
    Int.bmod_eq_of_le (by omega) (by omega)
  have hcopied (offset : ℤ) (src : Bytes) {g : WritableFile δ}
      (hg : g.buffer.length = maxBufferSize) (h0 : 0 ≤ offset)
      (hfit : offset + src.length ≤ maxBufferSize) :
      ∃ buffer, memcpy g.buffer offset src = .ok buffer ∧ buffer.length = maxBufferSize := by
    refine ⟨_, memcpy_eq_ok.mpr ⟨h0, by rwa [hg], rfl⟩, ?_⟩
    simp only [List.length_append, List.length_take, List.length_drop, hg]
    omega
  rw [WritableFile.append, hsum]
  split
  · rename_i hfit
    obtain ⟨buffer, hcopy, hlength⟩ := hcopied f.hasBufferSize data.data hbuffer hnonneg
      (Int.le_of_lt hfit)
    rw [hcopy]
    exact ⟨_, rfl, hlength, by simp only; omega, Int.le_of_lt hfit⟩
  · obtain ⟨s', g, hflush, hg, hempty⟩ := Buffered.flushBuffer hw ⟨hbuffer, hnonneg, hle⟩
    rw [hflush, ok_bind]
    simp only
    split
    · obtain ⟨fd, hfd, -⟩ := hw g.fd data.data data.size_lt
      rw [hfd]
      exact ⟨_, rfl, hg.length_buffer, hg.nonneg, hg.le⟩
    · rename_i hfit
      obtain ⟨buffer, hcopy, hlength⟩ := hcopied 0 data.data hg.length_buffer (Int.le_refl 0)
        (by rw [Slice.size] at hfit; omega)
      rw [hcopy]
      exact ⟨_, rfl, hlength, by simp only; omega, by simp only; omega⟩

/-! ### Sequences of calls -/

/-- A call of `Append` or `FlushBUffer`. -/
inductive FileCall
  | append (data : Slice)
  | flushBuffer

/-- One call. The client drops the status. -/
def step (writeToFile : δ → Bytes → Except Fault (Status × δ)) (f : WritableFile δ) :
    FileCall → Except Fault (WritableFile δ)
  | .append data => do
      let (_, f) ← f.append writeToFile data
      .ok f
  | .flushBuffer => do
      let (_, f) ← f.flushBuffer writeToFile
      .ok f

/-- The bytes a call appends. -/
def FileCall.bytes : FileCall → Bytes
  | .append data => data.data
  | .flushBuffer => []

/-- The sum of the two `int`s in `Append` does not overflow. -/
def FileCall.Small : FileCall → Prop
  | .append data => data.size ≤ 2 ^ 31 - 1 - maxBufferSize
  | .flushBuffer => True

theorem stream_step (hw : Delivers writeToFile written)
    (hbuffer : f.buffer.length = maxBufferSize) {c : FileCall} (h : f.step writeToFile c = .ok f') :
    f'.stream written = f.stream written ++ c.bytes ∧ f'.buffer.length = maxBufferSize := by
  rcases c with data | _
  · obtain ⟨⟨s, g⟩, happend, h⟩ := bind_eq_ok.mp h
    cases h
    exact stream_append hw hbuffer happend
  · obtain ⟨⟨s, g⟩, hflush, h⟩ := bind_eq_ok.mp h
    cases h
    obtain ⟨hstream, hlength, -⟩ := stream_flushBuffer hw hbuffer hflush
    exact ⟨by rw [hstream, FileCall.bytes, List.append_nil], hlength⟩

theorem Buffered.step (hw : Delivers writeToFile written) (hf : f.Buffered) {c : FileCall}
    (hc : c.Small) :
    ∃ f', f.step writeToFile c = .ok f' ∧ f'.Buffered ∧
      (c = .flushBuffer → f'.hasBufferSize = 0) := by
  rcases c with data | _
  · obtain ⟨f', happend, hf'⟩ := hf.append hw hc
    exact ⟨f', by rw [WritableFile.step, happend]; rfl, hf', by simp⟩
  · obtain ⟨s, f', hflush, hf', hempty⟩ := hf.flushBuffer hw
    exact ⟨f', by rw [WritableFile.step, hflush]; rfl, hf', fun _ => hempty⟩

/-- **The file is a stream.** With an empty buffer at the start and under arbitrary short
writes, every sequence of calls completes, the buffer stays within its bounds, and what is in
the file and the buffer is what was appended. -/
theorem run_stream {write : δ → Bytes → ℤ × δ} (hwrite : ShortWrites write written) {fuel : ℕ}
    (hfuel : 2 ^ 31 ≤ fuel) (hbuffer : f.buffer.length = maxBufferSize)
    (hstart : f.hasBufferSize = 0) {calls : List FileCall} (hcalls : ∀ c ∈ calls, c.Small) :
    ∃ f', runAll (step (WritableFile.writeToFile write fuel)) f calls = .ok f' ∧
      f'.stream written = written f.fd ++ calls.flatMap FileCall.bytes ∧ f'.Buffered ∧
      ∀ pre, calls = pre ++ [.flushBuffer] → f'.hasBufferSize = 0 := by
  have hw : Delivers (WritableFile.writeToFile write fuel) written := hwrite.delivers hfuel
  have hf : f.Buffered := ⟨hbuffer, by omega, by omega⟩
  have hempty : f.stream written = written f.fd := by simp [stream, hstart]
  let P (pre : List FileCall) (g : WritableFile δ) : Prop :=
    g.stream written = written f.fd ++ pre.flatMap FileCall.bytes ∧ g.Buffered ∧
      ∀ pre', pre = pre' ++ [.flushBuffer] → g.hasBufferSize = 0
  have hok : ∀ pre c g, P pre g → c.Small →
      ∃ g', step (WritableFile.writeToFile write fuel) g c = .ok g' ∧ P (pre ++ [c]) g' := by
    rintro pre c g ⟨hg, hbuffered, -⟩ hc
    obtain ⟨g', hstep, hbuffered', hflush⟩ := hbuffered.step hw hc
    refine ⟨g', hstep, ?_, hbuffered', ?_⟩
    · rw [(stream_step hw hbuffered.length_buffer hstep).1, hg, List.flatMap_append,
        List.append_assoc, List.flatMap_singleton]
    · intro pre' hpre'
      exact hflush (by simpa using (List.append_inj' hpre' rfl).2)
  have hsmall : AllSteps (fun _ c => FileCall.Small c) calls := by
    rintro pre c post rfl
    exact hcalls c (by simp)
  exact runAll_ok_of_allSteps hok ⟨by simpa using hempty, hf, by simp⟩ hsmall

/-- A `write` that writes half of what it is given. -/
def halfWrite (fd p : Bytes) : ℤ × Bytes :=
  (((p.length + 1) / 2 : ℕ), fd ++ p.take ((p.length + 1) / 2))

theorem shortWrites_halfWrite : ShortWrites halfWrite id := by
  intro fd p hp
  have hpos : 0 < p.length := List.length_pos_iff.mpr hp
  exact ⟨(p.length + 1) / 2, by omega, by omega, rfl, rfl⟩

/-- Three bytes, and a flush that takes two `write`s. -/
def appendAndFlush : List FileCall := [.append ⟨[1, 2, 3], [], by decide⟩, .flushBuffer]

theorem run_stream_appendAndFlush :
    ∃ f', runAll (step (WritableFile.writeToFile halfWrite (2 ^ 31))) zeroed appendAndFlush =
        .ok f' ∧
      f'.stream id = [1, 2, 3] ∧ f'.Buffered ∧
      ∀ pre, appendAndFlush = pre ++ [.flushBuffer] → f'.hasBufferSize = 0 :=
  run_stream shortWrites_halfWrite (Nat.le_refl _) List.length_replicate rfl
    (by simp [appendAndFlush, FileCall.Small, Slice.size, maxBufferSize])

end WritableFile

end TinyLeveldb
