import TinyLeveldb.Env.Stream
import TinyLeveldb.Table.FileOps

/-!
# What is in the file when a finished table is closed

`~WritableFile` closes the descriptor and drops the buffer, and `Finish` does not flush: its
last `Append` is the footer. Every other byte of the table can still be in the buffer with it.
So the table is durable exactly when the footer does not fit into the buffer at all, which takes
more than 1008 bytes in the string it is appended to (`durable_iff`).
-/

namespace TinyLeveldb

open Library

/-- `~WritableFile`: the descriptor as it is closed. -/
def WritableFile.destroy {δ : Type} (f : WritableFile δ) : δ := f.fd

theorem BlockHandle.length_encodeTo_append (h : BlockHandle) (dst : Bytes) :
    (h.encodeTo dst).length = dst.length + 16 := by
  simp [encodeTo, putFixed64]

namespace TableBuilder

variable {δ : Type} {written : δ → Bytes}

/-- Once the file of the builder is destroyed, everything the builder appended is behind what the
file held before. -/
def Durable (written : δ → Bytes) (file : WritableFile δ) (r : TableBuilder δ) : Prop :=
  written r.file.destroy = file.stream written ++ r.history.appended

/-- What was appended is in the stream of the file. -/
def InStream (written : δ → Bytes) (file f : WritableFile δ) (appended : Bytes) : Prop :=
  f.stream written = file.stream written ++ appended ∧ f.buffer.length = maxBufferSize

variable {writeToFile : δ → Bytes → Except Fault (Status × δ)} {file : WritableFile δ}
  {r r' : TableBuilder δ}

theorem keeps_inStream (hw : WritableFile.Delivers writeToFile written) :
    Keeps (.ofWriteToFile writeToFile) (InStream written file) := by
  constructor
  · rintro f f' data s appended h ⟨hstream, hbuffer⟩
    obtain ⟨hstream', hbuffer'⟩ := WritableFile.stream_append hw hbuffer h
    exact ⟨by rw [hstream', hstream, List.append_assoc], hbuffer'⟩
  · rintro f f' s appended h ⟨hstream, hbuffer⟩
    obtain ⟨hstream', hbuffer', -⟩ := WritableFile.stream_flushBuffer hw hbuffer h
    exact ⟨by rw [hstream', hstream], hbuffer'⟩

theorem inStream_step (hw : WritableFile.Delivers writeToFile written) {c : Ambient × Call}
    (h : r.step writeToFile c = .ok r') (hr : InStream written file r.file r.history.appended) :
    InStream written file r'.file r'.history.appended := by
  obtain ⟨m, ⟨key, value⟩ | _⟩ := c
  · obtain ⟨⟨s, r₁⟩, hadd, h⟩ := bind_eq_ok.mp h
    cases h
    exact keep_addVia (keeps_inStream hw) hadd hr
  · obtain ⟨⟨s, r₁⟩, hflush, h⟩ := bind_eq_ok.mp h
    cases h
    exact keep_flushVia (keeps_inStream hw) hflush hr

theorem inStream_run (hw : WritableFile.Delivers writeToFile written)
    (hbuffer : file.buffer.length = maxBufferSize) {policy : BloomFilterPolicy} {unset : Unset}
    (hnew : new file policy unset = .ok r) {calls : List (Ambient × Call)}
    (hrun : runAll (step writeToFile) r calls = .ok r') :
    InStream written file r'.file r'.history.appended := by
  obtain ⟨filterBlock, -, hnew⟩ := bind_eq_ok.mp hnew
  cases hnew
  refine runAll_inv (P := fun _ r => InStream written file r.file r.history.appended) ?_ ?_ hrun
  · intro pre c r r' hr hstep
    exact inStream_step hw hstep hr
  · exact ⟨(List.append_nil _).symm, hbuffer⟩

/-- After a completed `Finish` the table is durable exactly when the footer was larger than the
buffer. -/
theorem durable_finish_iff (hw : WritableFile.Delivers writeToFile written) {m m' : Ambient}
    {locals : FinishLocals} (h : r.finish writeToFile m m' locals = .ok r')
    (hr : InStream written file r.file r.history.appended) :
    Durable written file r' ↔
      ∃ coding, locals.indexCoding = some coding ∧ 1008 < coding.length := by
  obtain ⟨s₁, r₁, handle, r₂, coding, footer, s₂, f, hflush, hindex, hcoding, hfooter, happend,
    rfl⟩ := finishVia_eq_ok h
  have hr₂ := keep_writeIndexVia (keeps_inStream hw) hindex
    (keep_flushVia (keeps_inStream hw) hflush hr)
  have hsize : footer.size = coding.length + 16 := by
    rw [Slice.size, hfooter, handle.length_encodeTo_append]
  have hf := (keeps_inStream hw).append happend hr₂
  calc Durable written file (r₂.appendedTo f footer.data)
      ↔ written f.fd = f.stream written := by rw [hf.1]; rfl
    _ ↔ f.hasBufferSize ≤ 0 := WritableFile.written_eq_stream_iff hf.2
    _ ↔ maxBufferSize < footer.size :=
        WritableFile.hasBufferSize_append hw hr₂.2 (by omega) happend
    _ ↔ 1008 < coding.length := by
        rw [hsize, maxBufferSize]
        omega
    _ ↔ _ := by simp [hcoding]

/-- **When a finished table is durable.** Under any short writes, a table is in the file when the
file is destroyed exactly when the string that `Finish` appends the footer to, through a pointer
it never sets, holds more than 1008 bytes. -/
theorem durable_iff {write : δ → Bytes → ℤ × δ} (hwrite : WritableFile.ShortWrites write written)
    {fuel : ℕ} (hfuel : 2 ^ 31 ≤ fuel) (hbuffer : file.buffer.length = maxBufferSize)
    {policy : BloomFilterPolicy} {unset : Unset} {r₀ : TableBuilder δ}
    (hnew : new file policy unset = .ok r₀) {adds : List (Ambient × Slice × Slice)}
    (hrun : runAll (step (WritableFile.writeToFile write fuel)) r₀
      (adds.map fun a => (a.1, .add a.2.1 a.2.2)) = .ok r)
    {m m' : Ambient} {locals : FinishLocals}
    (hfinish : r.finish (WritableFile.writeToFile write fuel) m m' locals = .ok r') :
    Durable written file r' ↔ ∃ coding, locals.indexCoding = some coding ∧ 1008 < coding.length :=
  durable_finish_iff (hwrite.delivers hfuel) hfinish
    (inStream_run (hwrite.delivers hfuel) hbuffer hnew hrun)

/-- A `write` that writes everything it is given. -/
def wholeWrite (fd p : Bytes) : ℤ × Bytes := (p.length, fd ++ p)

theorem shortWrites_wholeWrite : WritableFile.ShortWrites wholeWrite id := by
  intro fd p hp
  refine ⟨p.length, List.length_pos_iff.mpr hp, le_rfl, rfl, ?_⟩
  rw [List.take_length]
  rfl

/-- The pair `("a", "b")`. -/
def onePair : List (Ambient × Slice × Slice) :=
  [(.zeroed, .single 97, .single 98)]

/-- Local pointers of `Finish` to zeroed storage, but for a string of 1009 bytes. -/
def longCoding : FinishLocals :=
  { FinishLocals.zeroed with indexCoding := some (List.replicate 1009 0) }

/-- The bytes in the file and the bytes appended, after the table of one pair was built and
finished. -/
def finishOnePair (locals : FinishLocals) : Except Fault (ℕ × ℕ) := do
  let r ← runAll (step (WritableFile.writeToFile wholeWrite (2 ^ 31))) zeroed
    (onePair.map fun a => (a.1, .add a.2.1 a.2.2))
  let r ← r.finish (WritableFile.writeToFile wholeWrite (2 ^ 31)) .zeroed .zeroed locals
  .ok (r.file.destroy.length, r.history.appended.length)

theorem exists_finish_onePair {locals : FinishLocals} {n k : ℕ}
    (h : finishOnePair locals = .ok (n, k)) : ∃ r r',
    runAll (step (WritableFile.writeToFile wholeWrite (2 ^ 31))) zeroed
      (onePair.map fun a => (a.1, .add a.2.1 a.2.2)) = .ok r ∧
    r.finish (WritableFile.writeToFile wholeWrite (2 ^ 31)) .zeroed .zeroed locals = .ok r' ∧
    r'.file.destroy.length = n ∧ r'.history.appended.length = k := by
  obtain ⟨r, hrun, h⟩ := bind_eq_ok.mp h
  obtain ⟨r', hfinish, h⟩ := bind_eq_ok.mp h
  obtain ⟨hfile, happended⟩ := Prod.mk.inj (Except.ok.inj h)
  exact ⟨r, r', hrun, hfinish, hfile, happended⟩

/-- 9 of 49 bytes are in the file behind an empty string, and all of 1058 behind 1009 bytes. -/
theorem finishOnePair_eq : finishOnePair .zeroed = .ok (9, 49) ∧
    finishOnePair longCoding = .ok (1058, 1058) := by decide +kernel

theorem durable_onePair : ∃ r r',
    runAll (step (WritableFile.writeToFile wholeWrite (2 ^ 31))) zeroed
      (onePair.map fun a => (a.1, .add a.2.1 a.2.2)) = .ok r ∧
    r.finish (WritableFile.writeToFile wholeWrite (2 ^ 31)) .zeroed .zeroed longCoding = .ok r' ∧
    Durable id WritableFile.zeroed r' := by
  obtain ⟨r, r', hrun, hfinish, -⟩ := exists_finish_onePair finishOnePair_eq.2
  refine ⟨r, r', hrun, hfinish, (durable_iff shortWrites_wholeWrite le_rfl List.length_replicate
    new_zeroed hrun hfinish).mpr ⟨_, rfl, ?_⟩⟩
  rw [List.length_replicate]
  exact Nat.lt_succ_self 1008

/-- The index block and the footer of that table are lost. -/
theorem not_durable_onePair : ∃ r r',
    runAll (step (WritableFile.writeToFile wholeWrite (2 ^ 31))) zeroed
      (onePair.map fun a => (a.1, .add a.2.1 a.2.2)) = .ok r ∧
    r.finish (WritableFile.writeToFile wholeWrite (2 ^ 31)) .zeroed .zeroed .zeroed = .ok r' ∧
    ¬ Durable id WritableFile.zeroed r' := by
  obtain ⟨r, r', hrun, hfinish, hfile, happended⟩ := exists_finish_onePair finishOnePair_eq.1
  refine ⟨r, r', hrun, hfinish, fun hdurable => ?_⟩
  have hlength := congrArg List.length hdurable
  rw [List.length_append, happended] at hlength
  change r'.file.destroy.length = 0 + 49 at hlength
  omega

end TableBuilder

end TinyLeveldb
