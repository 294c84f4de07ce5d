import TinyLeveldb.Env.Stream
import Mathlib.Data.List.Nodup

/-!
# `WriteToFile` under failing writes

The loop of `WriteToFile` compares what `write` returned with zero as a `size_t`, so it never sees
that a call failed. It adds the result to its offset instead: a failed call at the first byte ends
the loop, which returns `OK`, and a failed call further on moves it back by one byte, which is then
written twice.

What the operating system does is a script: the result of the `k`-th call for as many bytes as it is
given. `Reports` is what a caller of `WriteToFile` relies on, after every number of rounds of the
loop, and it holds exactly as long as no call fails (`reports_iff`).
-/

namespace TinyLeveldb

open Library

/-- What a call of `write` for `len` bytes comes back with. -/
inductive WriteResult (len : ℕ)
  /-- The first bytes are written. -/
  | wrote (n : ℕ) (hpos : 1 ≤ n) (hle : n ≤ len)
  /-- It returns -1, with `EINTR`. -/
  | interrupted
  /-- It returns -1, with another `errno`. -/
  | failed

/-- The returned count. -/
def WriteResult.count {len : ℕ} : WriteResult len → ℤ
  | .wrote n _ _ => n
  | .interrupted => -1
  | .failed => -1

/-- How many bytes reach the file. -/
def WriteResult.size {len : ℕ} : WriteResult len → ℕ
  | .wrote n _ _ => n
  | .interrupted => 0
  | .failed => 0

/-- A call of `write` for the given bytes. -/
structure WriteCall where
  bytes : Bytes
  result : WriteResult bytes.length

/-- The call returned -1. -/
def WriteCall.Failed (c : WriteCall) : Prop := c.result.count = -1

/-- The results of the calls of `write`, for any number of bytes they may be made with. -/
abbrev WriteScript := (k len : ℕ) → WriteResult len

/-- A `write` that follows the script, and remembers its calls. -/
def scriptedWrite (script : WriteScript) (calls : List WriteCall) (p : Bytes) :
    ℤ × List WriteCall :=
  let result := script calls.length p.length
  (result.count, calls ++ [⟨p, result⟩])

namespace WritableFile

/-! ### What a caller relies on -/

/-- The positions in `data` of the bytes that reached the file, in the order in which they did. -/
def positions (data : Bytes) (calls : List WriteCall) : List ℕ :=
  calls.flatMap fun c => List.range' (data.length - c.bytes.length) c.result.size

/-- The bytes that reached the file. -/
def writtenBytes (calls : List WriteCall) : Bytes :=
  calls.flatMap fun c => c.bytes.take c.result.size

/-- What some rounds of `WriteToFile` should have done. -/
structure Reports (data : Bytes) (status : Option Status) (calls : List WriteCall) : Prop where
  /-- A prefix of the data was written, each byte of it once and in order. -/
  inOrder : ∃ n, positions data calls = List.range n ∧ writtenBytes calls = data.take n
  /-- All of the data was written, if `OK` was returned. -/
  complete : status = some .ok →
    positions data calls = List.range data.length ∧ writtenBytes calls = data
  /-- A call that failed was the last one, unless it was interrupted. -/
  failed : ∀ pre c post, calls = pre ++ c :: post → c.result = .failed →
    post = [] ∧ status = some .ioError
  /-- An error is returned only then. -/
  retried : status = some .ioError → ∃ c ∈ calls, c.result = .failed

/-! ### What the rounds do -/

section Proof

variable {script : WriteScript} {data : Bytes} {offset o rounds : ℕ} {calls : List WriteCall}
  {c : WriteCall} {status : Option Status}

/-- The call that the loop makes at an offset. -/
def callAt (script : WriteScript) (data : Bytes) (offset : ℕ) (calls : List WriteCall) :
    WriteCall :=
  ⟨data.drop offset, script calls.length (data.drop offset).length⟩

theorem size_of_failed (hc : c.Failed) : c.result.size = 0 := by
  rw [WriteCall.Failed] at hc
  rcases hr : c.result with ⟨n, hpos, hle⟩ | _ | _
  · rw [hr, WriteResult.count] at hc
    omega
  · rfl
  · rfl

/-- A call that did not fail wrote what it returned. -/
theorem count_of_not_failed (hc : ¬ c.Failed) :
    c.result.count = c.result.size ∧ 1 ≤ c.result.size ∧ c.result.size ≤ c.bytes.length := by
  rw [WriteCall.Failed] at hc
  rcases hr : c.result with ⟨n, hpos, hle⟩ | _ | _
  · exact ⟨rfl, hpos, hle⟩
  · exact absurd (by rw [hr]; rfl) hc
  · exact absurd (by rw [hr]; rfl) hc

/-- A failed call at the first byte ends the loop, one further on moves it back. -/
theorem writeRounds_failed (rounds : ℕ) (hdata : data.length < 2 ^ 31) (hlt : offset < data.length)
    (hc : (callAt script data offset calls).Failed) :
    writeRounds (scriptedWrite script) data (rounds + 1) offset calls =
      if offset = 0 then (some .ok, calls ++ [callAt script data offset calls])
      else writeRounds (scriptedWrite script) data rounds (offset - 1)
        (calls ++ [callAt script data offset calls]) := by
  have hcount : (script calls.length (data.drop offset).length).count = -1 := hc
  rw [writeRounds, if_pos hlt]
  simp only [scriptedWrite, hcount]
  have hnext : (offset + (-1 % 2 ^ 64 : ℤ).toNat) % 2 ^ 64 =
      if offset = 0 then 2 ^ 64 - 1 else offset - 1 := by
    split <;> omega
  rw [hnext]
  by_cases hzero : offset = 0
  · rw [if_pos hzero, if_pos hzero, if_pos (by omega)]
    rfl
  · rw [if_neg hzero, if_neg hzero, if_neg (by omega)]
    rfl

/-- Another call moves the loop on by what it wrote. -/
theorem writeRounds_wrote (rounds : ℕ) (hdata : data.length < 2 ^ 31) (hlt : offset < data.length)
    (hc : ¬ (callAt script data offset calls).Failed) :
    writeRounds (scriptedWrite script) data (rounds + 1) offset calls =
      if offset + (callAt script data offset calls).result.size = data.length then
        (some .ok, calls ++ [callAt script data offset calls])
      else writeRounds (scriptedWrite script) data rounds
        (offset + (callAt script data offset calls).result.size)
        (calls ++ [callAt script data offset calls]) := by
  obtain ⟨hcount, -, hle⟩ := count_of_not_failed hc
  obtain ⟨n, hn⟩ : ∃ n, n = (callAt script data offset calls).result.size := ⟨_, rfl⟩
  rw [← hn] at hcount hle ⊢
  have hle : n ≤ data.length - offset := by rwa [callAt, List.length_drop] at hle
  have hcount : (script calls.length (data.drop offset).length).count = n := hcount
  have hnext : (offset + ((n : ℤ) % 2 ^ 64).toNat) % 2 ^ 64 = offset + n := by omega
  rw [writeRounds, if_pos hlt]
  simp only [scriptedWrite, hcount, hnext]
  by_cases hend : offset + n = data.length
  · rw [if_pos hend, if_pos (by omega)]
    rfl
  · rw [if_neg hend, if_neg (by omega)]
    rfl

/-- The loop never returns an error. -/
theorem status_writeRounds :
    (writeRounds (scriptedWrite script) data rounds offset calls).1 ≠ some .ioError := by
  induction rounds generalizing offset calls with
  | zero => simp [writeRounds]
  | succ rounds ih =>
    rw [writeRounds]
    split
    · simp only
      split
      · simp
      · exact ih
    · simp

theorem positions_concat (data : Bytes) (calls : List WriteCall) (c : WriteCall) :
    positions data (calls ++ [c]) =
      positions data calls ++ List.range' (data.length - c.bytes.length) c.result.size := by
  simp [positions]

/-- The calls wrote the data up to the offset, and none of them failed. -/
structure WroteUpTo (data : Bytes) (offset : ℕ) (calls : List WriteCall) : Prop where
  le : offset ≤ data.length
  positions : positions data calls = List.range offset
  bytes : writtenBytes calls = data.take offset
  wrote : ∀ c ∈ calls, ¬ c.Failed

theorem WroteUpTo.concat (h : WroteUpTo data offset calls)
    (hc : ¬ (callAt script data offset calls).Failed) :
    WroteUpTo data (offset + (callAt script data offset calls).result.size)
      (calls ++ [callAt script data offset calls]) := by
  obtain ⟨-, -, hle⟩ := count_of_not_failed hc
  have hoffset := h.le
  have hdrop : (callAt script data offset calls).bytes.length = data.length - offset :=
    List.length_drop
  have hlength : data.length - (callAt script data offset calls).bytes.length = offset := by
    omega
  refine ⟨by omega, ?_, ?_, fun c hmem => ?_⟩
  · rw [positions_concat, h.positions, hlength, List.range_eq_range', List.range_eq_range',
      ← List.range'_append_1, Nat.zero_add]
  · rw [writtenBytes, List.flatMap_append, List.flatMap_singleton, ← writtenBytes, h.bytes,
      List.take_add]
    rfl
  · rcases List.mem_append.mp hmem with hmem | hmem
    · exact h.wrote c hmem
    · rwa [List.mem_singleton.mp hmem]

theorem WroteUpTo.reports (h : WroteUpTo data offset calls)
    (hend : status = some .ok → offset = data.length) (hstatus : status ≠ some .ioError) :
    Reports data status calls where
  inOrder := ⟨offset, h.positions, h.bytes⟩
  complete hok := by rw [h.positions, h.bytes, hend hok, List.take_length]; exact ⟨rfl, rfl⟩
  failed := by
    rintro pre c post rfl hc
    exact absurd (show c.result.count = -1 by rw [hc]; rfl) (h.wrote c (by simp))
  retried herror := absurd herror hstatus

/-- One round makes one call. -/
theorem calls_one (hlt : offset < data.length) :
    (writeRounds (scriptedWrite script) data 1 offset calls).2 =
      calls ++ [callAt script data offset calls] := by
  rw [writeRounds, if_pos hlt]
  simp only [writeRounds]
  split <;> rfl

/-- The loop only adds calls. -/
theorem subset_writeRounds :
    calls ⊆ (writeRounds (scriptedWrite script) data rounds offset calls).2 := by
  induction rounds generalizing offset calls with
  | zero => exact List.Subset.refl _
  | succ rounds ih =>
    rw [writeRounds]
    split
    · simp only
      split
      · exact List.subset_append_left _ _
      · exact fun c hmem => ih (List.mem_append_left _ hmem)
    · exact List.Subset.refl _

/-! ### After a failed call -/

/-- A byte that is written again is written twice. -/
theorem not_reports_of_behind (hlt : offset < o) (ho : o < data.length)
    (hpositions : positions data calls = List.range o)
    (hc : ¬ (callAt script data offset calls).Failed) :
    ¬ Reports data status (writeRounds (scriptedWrite script) data 1 offset calls).2 := by
  rw [calls_one (hlt.trans ho)]
  intro hreports
  obtain ⟨-, hpos, -⟩ := count_of_not_failed hc
  obtain ⟨n, hn, -⟩ := hreports.inOrder
  have hdrop : (callAt script data offset calls).bytes.length = data.length - offset :=
    List.length_drop
  rw [positions_concat, hpositions] at hn
  have hnodup : (List.range o ++ List.range'
      (data.length - (callAt script data offset calls).bytes.length)
      (callAt script data offset calls).result.size).Nodup := hn ▸ List.nodup_range
  have hdisjoint := List.disjoint_of_nodup_append hnodup
  refine hdisjoint (List.mem_range.mpr hlt) ?_
  rw [List.mem_range'_1]
  omega

/-- A call that failed for good does not end the loop with an error. -/
theorem not_reports_of_failed (hlt : offset < data.length)
    (hc : (callAt script data offset calls).result = .failed) :
    ¬ Reports data (writeRounds (scriptedWrite script) data 1 offset calls).1
      (writeRounds (scriptedWrite script) data 1 offset calls).2 := fun hreports =>
  status_writeRounds (hreports.failed calls _ [] (calls_one hlt) hc).2

/-- Nor does one that fails at the first byte, but it ends the loop. -/
theorem not_reports_of_zero (hdata : data.length < 2 ^ 31) (ho : o < data.length)
    (hpositions : positions data calls = List.range o)
    (hc : (callAt script data 0 calls).Failed) :
    ¬ Reports data (writeRounds (scriptedWrite script) data 1 0 calls).1
      (writeRounds (scriptedWrite script) data 1 0 calls).2 := by
  rw [writeRounds_failed 0 hdata (Nat.zero_lt_of_lt ho) hc, if_pos rfl]
  intro hreports
  have hcomplete := (hreports.complete rfl).1
  rw [positions_concat, hpositions, size_of_failed hc, List.range'_zero,
    List.append_nil] at hcomplete
  have hlength := congrArg List.length hcomplete
  rw [List.length_range, List.length_range] at hlength
  omega

/-- Once a call failed, or the loop was moved back, the caller is misled sooner or later. -/
theorem exists_not_reports (hdata : data.length < 2 ^ 31) (ho : o < data.length)
    (hle : offset ≤ o) (hpositions : positions data calls = List.range o)
    (hbehind : offset = o → (callAt script data offset calls).Failed) :
    ∃ rounds, ¬ Reports data
      (writeRounds (scriptedWrite script) data rounds offset calls).1
      (writeRounds (scriptedWrite script) data rounds offset calls).2 := by
  induction offset generalizing calls with
  | zero =>
    by_cases hc : (callAt script data 0 calls).Failed
    · exact ⟨1, not_reports_of_zero hdata ho hpositions hc⟩
    · have hlt : 0 < o := hle.lt_of_ne fun heq => hc (hbehind heq)
      exact ⟨1, not_reports_of_behind hlt ho hpositions hc⟩
  | succ offset ih =>
    by_cases hc : (callAt script data (offset + 1) calls).Failed
    · rcases hr : (callAt script data (offset + 1) calls).result with ⟨n, hpos, hle⟩ | _ | _
      · rw [WriteCall.Failed, hr, WriteResult.count] at hc
        omega
      · -- the byte before is next
        have hnext := positions_concat data calls (callAt script data (offset + 1) calls)
        rw [size_of_failed hc, List.range'_zero, List.append_nil, hpositions] at hnext
        obtain ⟨rounds, hrounds⟩ := ih (by omega) hnext (by omega)
        refine ⟨rounds + 1, ?_⟩
        rwa [writeRounds_failed rounds hdata (by omega) hc, if_neg (by omega)]
      · exact ⟨1, not_reports_of_failed (by omega) hr⟩
    · have hlt : offset + 1 < o := hle.lt_of_ne fun heq => hc (hbehind heq)
      exact ⟨1, not_reports_of_behind hlt ho hpositions hc⟩

/-! ### As long as no call fails -/

theorem WroteUpTo.reports_writeRounds (hdata : data.length < 2 ^ 31)
    (h : WroteUpTo data offset calls)
    (hwrote : ∀ c ∈ (writeRounds (scriptedWrite script) data rounds offset calls).2, ¬ c.Failed) :
    Reports data (writeRounds (scriptedWrite script) data rounds offset calls).1
      (writeRounds (scriptedWrite script) data rounds offset calls).2 := by
  induction rounds generalizing offset calls with
  | zero => exact h.reports (fun hok => by cases hok) (fun herror => by cases herror)
  | succ rounds ih =>
    by_cases hlt : offset < data.length
    · have hc : ¬ (callAt script data offset calls).Failed := by
        refine hwrote _ ?_
        rw [writeRounds, if_pos hlt]
        simp only
        split
        · exact List.mem_append_right _ (List.mem_singleton_self _)
        · exact subset_writeRounds (List.mem_append_right _ (List.mem_singleton_self _))
      rw [writeRounds_wrote rounds hdata hlt hc] at hwrote ⊢
      split at hwrote
      · rename_i hend
        rw [if_pos hend]
        exact (h.concat hc).reports (fun _ => hend) (by simp)
      · rename_i hend
        rw [if_neg hend]
        exact ih (h.concat hc) hwrote
    · rw [writeRounds, if_neg hlt]
      have hle := h.le
      exact h.reports (fun _ => by omega) (by simp)

theorem WroteUpTo.not_failed (hdata : data.length < 2 ^ 31) (h : WroteUpTo data offset calls)
    (hreports : ∀ rounds, Reports data
      (writeRounds (scriptedWrite script) data rounds offset calls).1
      (writeRounds (scriptedWrite script) data rounds offset calls).2) :
    ∀ c ∈ (writeRounds (scriptedWrite script) data rounds offset calls).2, ¬ c.Failed := by
  induction rounds generalizing offset calls with
  | zero => exact h.wrote
  | succ rounds ih =>
    by_cases hlt : offset < data.length
    · by_cases hc : (callAt script data offset calls).Failed
      · obtain ⟨rounds, hrounds⟩ :=
          exists_not_reports hdata hlt (Nat.le_refl offset) h.positions fun _ => hc
        exact absurd (hreports rounds) hrounds
      · have hstep (rounds : ℕ) := writeRounds_wrote rounds hdata hlt hc
        rw [hstep]
        by_cases hend : offset + (callAt script data offset calls).result.size = data.length
        · rw [if_pos hend]
          exact (h.concat hc).wrote
        · rw [if_neg hend]
          refine ih (h.concat hc) fun rounds => ?_
          have hrounds := hreports (rounds + 1)
          rwa [hstep, if_neg hend] at hrounds
    · rw [writeRounds, if_neg hlt]
      exact h.wrote

end Proof

/-- **What `WriteToFile` reports.** Whatever `write` does, every round of the loop leaves the
caller with what it relies on exactly when no call of `write` fails. -/
theorem reports_iff (script : WriteScript) (data : Slice) :
    (∀ rounds, Reports data.data
        (writeRounds (scriptedWrite script) data.data rounds 0 []).1
        (writeRounds (scriptedWrite script) data.data rounds 0 []).2) ↔
      ∀ rounds, ∀ c ∈ (writeRounds (scriptedWrite script) data.data rounds 0 []).2,
        ¬ c.Failed := by
  have h : WroteUpTo data.data 0 [] := ⟨Nat.zero_le _, rfl, rfl, by simp⟩
  exact ⟨fun hreports _ => h.not_failed data.size_lt hreports,
    fun hwrote rounds => h.reports_writeRounds data.size_lt (hwrote rounds)⟩

/-- A disk on which every `write` fails. -/
def fullDisk : WriteScript := fun _ _ => .failed

/-- `WriteToFile` returns `OK` for a byte that was not written. -/
theorem not_reports_fullDisk :
    writeToFile (scriptedWrite fullDisk) 1 [] [1] = .ok (.ok, [⟨[1], .failed⟩]) ∧
      ¬ Reports [1] (writeRounds (scriptedWrite fullDisk) [1] 1 0 []).1
        (writeRounds (scriptedWrite fullDisk) [1] 1 0 []).2 := by
  refine ⟨rfl, fun hreports => ?_⟩
  have hcomplete := (hreports.complete rfl).2
  exact absurd hcomplete (by decide)

end WritableFile

end TinyLeveldb
