import TinyLeveldb.Env.Stream

/-!
# What the buffered file reports

`Append` and `FlushBUffer` over a `WriteToFile` that may fail, but says so. `Append` drops the
status of the `FlushBUffer` that makes room for its slice, and the buffer is empty afterwards
whether or not it was written: what the failed write left behind is lost, and `Append` returns
`OK` all the same. `FlushBUffer` itself returns an error when there is nothing to write.

`Reported` is what a caller relies on in one call. A run has it at every call exactly when every
call meets `Carries` (`everyStep_reported_iff`).
-/

namespace TinyLeveldb

open Library

namespace WritableFile

variable {δ : Type} {writeToFile : δ → Bytes → Except Fault (Status × δ)} {written : δ → Bytes}

/-- `WriteToFile` returns `OK` when all of its bytes were written, and only then. -/
def Honest (writeToFile : δ → Bytes → Except Fault (Status × δ)) (written : δ → Bytes) : Prop :=
  ∀ fd p s fd', p.length < 2 ^ 31 → writeToFile fd p = .ok (s, fd') →
    ∃ q, written fd' = written fd ++ q ∧ (s = .ok → q = p) ∧ (s ≠ .ok → q.length < p.length)

/-- `WriteToFile`, with a record of what it returned. -/
def recorded (writeToFile : δ → Bytes → Except Fault (Status × δ)) (fd : δ × List Status)
    (p : Bytes) : Except Fault (Status × δ × List Status) := do
  let (s, fd') ← writeToFile fd.1 p
  .ok (s, fd', fd.2 ++ [s])

/-- The bytes in the file behind the record. -/
def writtenBehind (written : δ → Bytes) (fd : δ × List Status) : Bytes := written fd.1

/-- One call, with the status it returns. -/
def perform (writeToFile : δ → Bytes → Except Fault (Status × δ)) (f : WritableFile δ) :
    FileCall → Except Fault (Status × WritableFile δ)
  | .append data => f.append writeToFile data
  | .flushBuffer => f.flushBuffer writeToFile

/-- What a caller relies on: `c` takes the file from `f` to `f'` and returns `s`. -/
structure Reported (written : δ → Bytes) (f : WritableFile (δ × List Status)) (c : FileCall)
    (s : Status) (f' : WritableFile (δ × List Status)) : Prop where
  /-- Bytes are discarded, neither written nor in the buffer, only with an error. -/
  discarded : f'.stream (writtenBehind written) ≠ f.stream (writtenBehind written) ++ c.bytes →
    s ≠ .ok
  /-- An error comes from a `WriteToFile` that failed. -/
  failed : s ≠ .ok → ∃ results, f'.fd.2 = f.fd.2 ++ results ∧ ∃ t ∈ results, t ≠ .ok

/-- `Append` has room for its slice, as far as the sum of two `int`s shows. An `Append` whose sum
wraps around copies beyond the buffer: it never completes, and is no step of a run. -/
def Fits (f : WritableFile δ) (data : Slice) : Prop :=
  (f.hasBufferSize + data.size).bmod (2 ^ 32) < maxBufferSize

instance (f : WritableFile δ) (data : Slice) : Decidable (f.Fits data) :=
  inferInstanceAs (Decidable (_ < _))

/-- What keeps the error of a call. `FlushBUffer` has something to write; where `Append` writes the
buffer, either that succeeds, or the slice is too large for the buffer and writing it fails too. -/
def Carries (writeToFile : δ → Bytes → Except Fault (Status × δ)) (f : WritableFile δ) :
    FileCall → Prop
  | .append data =>
      f.Fits data ∨ f.hasBufferSize = 0 ∨
        ∀ t fd, writeToFile f.fd (f.buffer.take f.hasBufferSize.toNat) = .ok (t, fd) →
          t = .ok ∨ (maxBufferSize < data.size ∧
            ∀ s fd', writeToFile fd data.data = .ok (s, fd') → s ≠ .ok)
  | .flushBuffer => 0 < f.hasBufferSize

/-! ### Completed calls -/

section Calls

variable {f f' : WritableFile δ} {s : Status} {data : Slice}

theorem buffered_flushBuffer (hf : f.Buffered) (h : f.flushBuffer writeToFile = .ok (s, f')) :
    f'.Buffered ∧ f'.hasBufferSize = 0 := by
  rcases flushBuffer_cases h with ⟨hempty, -, rfl⟩ | ⟨-, fd, -, rfl⟩
  · exact ⟨hf, Int.le_antisymm hempty hf.nonneg⟩
  · exact ⟨⟨List.length_replicate, Int.le_refl 0, by simp⟩, rfl⟩

/-- A completed call leaves the buffer within its bounds. -/
theorem Buffered.perform (hf : f.Buffered) {c : FileCall}
    (h : f.perform writeToFile c = .ok (s, f')) : f'.Buffered := by
  rcases c with data | _
  · by_cases hfits : f.Fits data
    · exact (append_fits (fun _ => []) hf.length_buffer hfits h).2.2.2
    · obtain ⟨t, g, hflush, hrest⟩ := append_cases hfits h
      obtain ⟨hg, -⟩ := buffered_flushBuffer hf hflush
      rcases hrest with ⟨-, fd, -, rfl⟩ | ⟨-, -, buffer, hcopy, rfl⟩
      · exact ⟨hg.length_buffer, hg.nonneg, hg.le⟩
      · exact (stream_memcpy (fun _ => []) hg.length_buffer hcopy).2
  · exact (buffered_flushBuffer hf h).1

end Calls

/-! ### The error of a call -/

section Recorded

variable {f f' g : WritableFile (δ × List Status)} {s t : Status} {data : Slice}
  {fd fd' : δ × List Status} {p : Bytes}

theorem recorded_eq_ok (h : recorded writeToFile fd p = .ok (s, fd')) :
    writeToFile fd.1 p = .ok (s, fd'.1) ∧ fd'.2 = fd.2 ++ [s] := by
  obtain ⟨⟨t, d⟩, hd, h⟩ := bind_eq_ok.mp h
  cases h
  exact ⟨hd, rfl⟩

/-- The record keeps `WriteToFile` honest. -/
theorem Honest.recorded (hw : Honest writeToFile written) :
    Honest (recorded writeToFile) (writtenBehind written) := fun fd p s fd' hp h =>
  hw fd.1 p s fd'.1 hp (recorded_eq_ok h).1

/-- The `FlushBUffer` of an `Append` keeps the stream when there is nothing to write or writing it
succeeds, and cuts it short otherwise. -/
theorem stream_flush (hw : Honest writeToFile written) (hf : f.Buffered)
    (h : f.flushBuffer (recorded writeToFile) = .ok (t, g)) :
    (f.hasBufferSize = 0 ∨ t = .ok → written g.fd.1 = f.stream (writtenBehind written)) ∧
    (¬ (f.hasBufferSize = 0 ∨ t = .ok) →
      (written g.fd.1).length < (f.stream (writtenBehind written)).length) ∧
    ∃ results, g.fd.2 = f.fd.2 ++ results := by
  rcases flushBuffer_cases h with ⟨hempty, -, rfl⟩ | ⟨hpos, fd, hfd, rfl⟩
  · have hzero : g.hasBufferSize = 0 := Int.le_antisymm hempty hf.nonneg
    refine ⟨fun _ => ?_, fun hnot => absurd (.inl hzero) hnot, [], by simp⟩
    simp [stream, hzero, writtenBehind]
  · have hlength := hf.length_buffer
    obtain ⟨q, hq, hall, hpart⟩ := hw.recorded f.fd _ t fd (by
      rw [List.length_take, hlength, maxBufferSize]
      omega) hfd
    refine ⟨fun hor => ?_, fun hnot => ?_, [t], (recorded_eq_ok hfd).2⟩
    · have ht : t = .ok := hor.resolve_left (by omega)
      rw [stream, ← hall ht]
      exact hq
    · have hlt := hpart fun ht => hnot (.inr ht)
      have hsum : (written fd.1).length = (written f.fd.1).length + q.length := by
        rw [← List.length_append]
        exact congrArg List.length hq
      rw [stream, List.length_append, writtenBehind]
      simp only
      omega

/-- Behind its `FlushBUffer`, `Append` adds its slice, or part of it and the error of a failed
`WriteToFile`. -/
theorem stream_append_rest (hw : Honest writeToFile written) (hf : f.Buffered)
    (hfits : ¬ f.Fits data) (h : f.append (recorded writeToFile) data = .ok (s, f'))
    (hflush : f.flushBuffer (recorded writeToFile) = .ok (t, g)) :
    ∃ q, f'.stream (writtenBehind written) = written g.fd.1 ++ q ∧ (s = .ok → q = data.data) ∧
      q.length ≤ data.data.length ∧ (s ≠ .ok → f'.fd.2 = g.fd.2 ++ [s]) := by
  obtain ⟨t', g', hflush', hrest⟩ := append_cases hfits h
  cases hflush.symm.trans hflush'
  obtain ⟨hg, hempty⟩ := buffered_flushBuffer hf hflush
  rcases hrest with ⟨-, fd, hfd, rfl⟩ | ⟨-, rfl, buffer, hcopy, rfl⟩
  · obtain ⟨q, hq, hall, hpart⟩ := hw.recorded g.fd data.data s fd data.size_lt hfd
    refine ⟨q, ?_, hall, ?_, fun _ => (recorded_eq_ok hfd).2⟩
    · simp only [stream, hempty, Int.toNat_zero, List.take_zero, List.append_nil]
      exact hq
    · by_cases hs : s = .ok
      · exact Nat.le_of_eq (congrArg List.length (hall hs))
      · exact Nat.le_of_lt (hpart hs)
  · obtain ⟨hstream, -⟩ := stream_memcpy (writtenBehind written) hg.length_buffer hcopy
    exact ⟨data.data, hstream, fun _ => rfl, Nat.le_refl _, fun hs => absurd rfl hs⟩

/-- An `Append` that flushed the buffer reports what it lost, unless nothing was lost. -/
theorem reported_append_iff (hw : Honest writeToFile written) (hf : f.Buffered)
    (hfits : ¬ f.Fits data) (h : f.append (recorded writeToFile) data = .ok (s, f'))
    (hflush : f.flushBuffer (recorded writeToFile) = .ok (t, g)) :
    Reported written f (.append data) s f' ↔ (f.hasBufferSize = 0 ∨ t = .ok) ∨ s ≠ .ok := by
  obtain ⟨hkept, hcut, results, hresults⟩ := stream_flush hw hf hflush
  obtain ⟨q, hstream, hall, hle, herror⟩ := stream_append_rest hw hf hfits h hflush
  have hfailed (hs : s ≠ .ok) :
      ∃ results, f'.fd.2 = f.fd.2 ++ results ∧ ∃ t ∈ results, t ≠ .ok :=
    ⟨results ++ [s], by rw [herror hs, hresults, List.append_assoc], s, by simp, hs⟩
  constructor
  · intro hreported
    by_contra hnot
    rw [not_or] at hnot
    refine hreported.discarded (fun hkeeps => ?_) (not_not.mp hnot.2)
    have hlt := hcut hnot.1
    have hlength := congrArg List.length hkeeps
    rw [hstream, FileCall.bytes, List.length_append, List.length_append] at hlength
    omega
  · rintro (hkeeps | hs)
    · refine ⟨fun hdiscarded hs => hdiscarded ?_, hfailed⟩
      rw [hstream, hkept hkeeps, hall hs, FileCall.bytes]
    · exact ⟨fun _ => hs, hfailed⟩

/-- A call reports its errors exactly when it carries them. -/
theorem reported_iff (hw : Honest writeToFile written) (hf : f.Buffered) {c : FileCall}
    (h : f.perform (recorded writeToFile) c = .ok (s, f')) :
    Reported written f c s f' ↔ f.Carries (recorded writeToFile) c := by
  rcases c with data | _
  · by_cases hfits : f.Fits data
    · obtain ⟨rfl, hfd, hstream, -⟩ :=
        append_fits (writtenBehind written) hf.length_buffer hfits h
      exact iff_of_true ⟨fun hdiscarded => absurd hstream hdiscarded, fun hs => absurd rfl hs⟩
        (.inl hfits)
    · obtain ⟨t, g, hflush, hrest⟩ := append_cases hfits h
      rw [reported_append_iff hw hf hfits h hflush, Carries, or_iff_right hfits, or_assoc]
      rcases flushBuffer_cases hflush with ⟨hempty, -, -⟩ | ⟨hpos, fd, hfd, rfl⟩
      · have hzero : f.hasBufferSize = 0 := Int.le_antisymm hempty hf.nonneg
        exact iff_of_true (.inl hzero) (.inl hzero)
      · refine or_congr_right ⟨?_, fun hcarries => ?_⟩
        · rintro hor t' fd' hfd'
          cases hfd.symm.trans hfd'
          refine hor.imp_right fun hs => ?_
          obtain ⟨hlarge, fd', hs', -⟩ | ⟨-, rfl, -⟩ := hrest
          · refine ⟨hlarge, fun s' fd'' hs'' => ?_⟩
            cases hs'.symm.trans hs''
            exact hs
          · exact absurd rfl hs
        · refine (hcarries t fd hfd).imp_right fun ⟨hlarge, hfails⟩ => ?_
          obtain ⟨-, fd', hs', -⟩ | ⟨hsmall, -⟩ := hrest
          · exact hfails s fd' hs'
          · omega
  · rcases flushBuffer_cases h with ⟨hempty, rfl, rfl⟩ | ⟨hpos, fd, hfd, rfl⟩
    · refine iff_of_false (fun hreported => ?_) (by rw [Carries]; omega)
      obtain ⟨results, hresults, t, ht, -⟩ := hreported.failed (by decide)
      rw [List.self_eq_append_right.mp hresults] at ht
      cases ht
    · refine iff_of_true ⟨?_, fun hs => ⟨[s], (recorded_eq_ok hfd).2, s, by simp, hs⟩⟩ hpos
      rintro hdiscarded rfl
      refine hdiscarded ?_
      obtain ⟨hkept, -, -⟩ := stream_flush hw hf h
      rw [FileCall.bytes, List.append_nil, ← hkept (.inr rfl)]
      simp [stream, writtenBehind]

end Recorded

/-- **When no error is lost.** Whatever `WriteToFile` returns, every call of a run reports the bytes
it discards, and returns no error of its own, exactly when every call carries the errors. -/
theorem everyStep_reported_iff (hw : Honest writeToFile written)
    {f : WritableFile (δ × List Status)} (hf : f.Buffered) (calls : List FileCall) :
    EveryStep (perform (recorded writeToFile)) (Reported written) f calls ↔
      EveryStep (perform (recorded writeToFile))
        (fun f c _ _ => f.Carries (recorded writeToFile) c) f calls :=
  everyStep_iff (P := Reported written) (fun _ _ _ _ hf h => reported_iff hw hf h)
    (fun _ _ _ _ hf h _ => hf.perform h) hf

/-- A disk that has no room left. -/
def writeNothing (fd p : Bytes) : Except Fault (Status × Bytes) :=
  .ok (if p = [] then .ok else .ioError, fd)

theorem honest_writeNothing : Honest writeNothing id := by
  rintro fd p s fd' - ⟨⟩
  refine ⟨[], (List.append_nil fd).symm, fun hs => ?_, fun hs => ?_⟩
  · by_contra hp
    rw [if_neg (Ne.symm hp)] at hs
    cases hs
  · rw [List.length_nil, List.length_pos_iff]
    rintro rfl
    exact hs rfl

/-- A file whose buffer is full, and the record of its writes. -/
def fullFile : WritableFile (Bytes × List Status) where
  fd := ([], [])
  buffer := List.replicate maxBufferSize 7
  hasBufferSize := maxBufferSize

theorem buffered_fullFile : fullFile.Buffered :=
  ⟨List.length_replicate, by decide, Int.le_refl _⟩

/-- `FlushBUffer` reports the lost buffer, and the `Append` after it finds an empty one. -/
theorem reported_flushThenAppend :
    (∃ f, fullFile.perform (recorded writeNothing) .flushBuffer = .ok (.ioError, f)) ∧
      EveryStep (perform (recorded writeNothing)) (Reported id) fullFile
        [.flushBuffer, .append (.single 1)] := by
  have hpos : fullFile.hasBufferSize > 0 := Int.natCast_pos.mpr (Nat.succ_pos _)
  have hle : fullFile.hasBufferSize ≤ fullFile.buffer.length := by
    rw [buffered_fullFile.length_buffer]
    exact buffered_fullFile.le
  have hwrite {p : Bytes} (hp : p ≠ []) :
      recorded writeNothing fullFile.fd p = .ok (.ioError, ([], [.ioError])) := by
    rw [recorded, writeNothing, if_neg hp, ok_bind]
    rfl
  have hnonempty : fullFile.buffer.take fullFile.hasBufferSize.toNat ≠ [] := by
    rw [ne_eq, List.take_eq_nil_iff, not_or, ← List.length_eq_zero_iff,
      buffered_fullFile.length_buffer]
    exact ⟨by omega, Nat.succ_ne_zero _⟩
  constructor
  · rw [perform, flushBuffer, if_pos hpos, if_pos hle, hwrite hnonempty]
    exact ⟨_, rfl⟩
  · refine (everyStep_reported_iff honest_writeNothing buffered_fullFile _).mpr
      fun s f hflush => ⟨hpos, fun _ _ _ => ⟨.inr (.inl ?_), trivial⟩⟩
    exact (buffered_flushBuffer buffered_fullFile hflush).2

/-- Another byte. -/
def appendByte : List FileCall := [.append ⟨[1], [], by decide⟩]

/-- The buffer is lost, and `Append` returns `OK`. -/
theorem not_reported_appendByte :
    Honest writeNothing id ∧ fullFile.Buffered ∧
      ¬ EveryStep (perform (recorded writeNothing)) (Reported id) fullFile appendByte := by
  refine ⟨honest_writeNothing, buffered_fullFile, fun hreported => ?_⟩
  have hok : (fullFile.perform (recorded writeNothing)
      (.append ⟨[1], [], by decide⟩)).toOption.any (fun r => r.1 = .ok) = true := by
    decide +kernel
  obtain ⟨⟨s, f⟩, happend, -⟩ := exists_of_any hok
  have hcarries := (reported_iff honest_writeNothing buffered_fullFile happend).mp
    (hreported s f happend).1
  obtain hfits | hzero | hflush := hcarries
  · exact absurd hfits (by decide)
  · exact absurd hzero (by decide)
  · obtain ht | ⟨hlarge, -⟩ := hflush .ioError ([], [.ioError]) (by decide +kernel)
    · cases ht
    · exact absurd hlarge (by decide)

end WritableFile

end TinyLeveldb
