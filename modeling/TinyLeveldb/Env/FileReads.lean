import TinyLeveldb.Basic

/-!
# What a file read reports

`SequentialFile::Read` and `RandomAccessFile::Read` are one loop around a system call. It keeps what
the call returned in a `size_t` and compares that with zero, so it never sees that a call failed: it
always ends with the first call and returns `OK`, with a slice of `2 ^ 64 - 1` bytes if the call
failed. `SequentialFile::Read` moreover takes its `result` by value, and drops the slice it made.

`Faithful` is what a caller relies on, and `reads_faithful_iff` says when a `Read` has it.
-/

namespace TinyLeveldb

/-- What a call of `read` or `pread` for `len` bytes comes back with. -/
inductive ReadResult (len : ℕ)
  /-- So many bytes are read. -/
  | count (n : ℕ) (hle : n ≤ len)
  /-- It returns -1, with `EINTR`. -/
  | interrupted
  /-- It returns -1, with another `errno`. -/
  | failed
  deriving DecidableEq

namespace ReadResult

variable {len : ℕ}

/-- The returned value. -/
def value : ReadResult len → ℤ
  | .count n _ => n
  | .interrupted => -1
  | .failed => -1

end ReadResult

/-- A `slice` of the source with any two fields: an address and a size. -/
structure RawSlice where
  data : ℕ
  size : UInt64

/-- The addresses of the bytes a slice denotes. -/
def RawSlice.addresses (s : RawSlice) : List ℕ := List.range' s.data s.size.toNat

/-- The loop of both `Read`s over the results of its system calls. `store` is what it does to the
caller's slice, given the slice it made of the bytes at `scratch`. It returns the results it has
seen besides its status and the caller's slice. -/
def readLoop {len : ℕ} (results : ℕ → ReadResult len) (scratch : ℕ)
    (store : RawSlice → RawSlice → RawSlice) (result : RawSlice) :
    ℕ → List (ReadResult len) → Except Fault (Status × RawSlice × List (ReadResult len))
  | 0, _ => .error .diverged
  | fuel + 1, seen =>
      let r := results seen.length
      let seen := seen ++ [r]
      let readSize := UInt64.ofInt r.value
      if readSize < 0 then
        if r = .interrupted then readLoop results scratch store result fuel seen
        else .ok (.ioError, result, seen)
      else .ok (.ok, store result { data := scratch, size := readSize }, seen)

/-- `SequentialFile::Read`. Its `result` is a copy of the caller's slice, and the slice it makes is
a temporary. -/
def SequentialFile.read (reads : (len : ℕ) → ℕ → ReadResult len) (fuel : ℕ) (n : UInt64)
    (result : RawSlice) (scratch : ℕ) :
    Except Fault (Status × RawSlice × List (ReadResult n.toNat)) :=
  readLoop (reads n.toNat) scratch (fun result _ => result) result fuel []

/-- `RandomAccessFile::Read`. The `int n` is converted to a `size_t`. -/
def RandomAccessFile.read (preads : UInt32 → (len : ℕ) → ℕ → ReadResult len) (fuel : ℕ)
    (offset : UInt32) (result : RawSlice) (scratch : ℕ) (n : Int32) :
    Except Fault (Status × RawSlice × List (ReadResult n.toInt64.toUInt64.toNat)) :=
  readLoop (preads offset n.toInt64.toUInt64.toNat) scratch (fun _ made => made) result fuel []

/-- What a caller relies on when a `Read` returns `s` and leaves `result` in its slice, having seen
the results `seen`. -/
structure Faithful {len : ℕ} (scratch : ℕ) (s : Status) (result : RawSlice)
    (seen : List (ReadResult len)) : Prop where
  /-- An interrupted call is made again, and no other. -/
  retried : ∃ pre last, seen = pre ++ [last] ∧ (∀ r ∈ pre, r = .interrupted) ∧
    last ≠ .interrupted
  /-- A call that failed for good is reported. -/
  failed : .failed ∈ seen → s = .ioError
  /-- `OK` comes with a slice of the bytes that were read. -/
  ok : s = .ok → ∃ n hle, .count n hle ∈ seen ∧ result.addresses = List.range' scratch n

section Loop

variable {len scratch : ℕ} {results : ℕ → ReadResult len}
  {store : RawSlice → RawSlice → RawSlice} {result : RawSlice} {fuel : ℕ}

/-- The loop returns `OK` after one call, whatever that call returned. -/
theorem readLoop_eq : readLoop results scratch store result (fuel + 1) [] =
    .ok (.ok, store result { data := scratch, size := UInt64.ofInt (results 0).value },
      [results 0]) := by
  rw [readLoop]
  simp only [List.length_nil, List.nil_append, UInt64.not_lt_zero, if_false]

/-- `OK` after one call is faithful when the call read what the slice denotes. -/
theorem faithful_singleton_iff {r : ReadResult len} :
    Faithful scratch .ok result [r] ↔
      ∃ n hle, r = .count n hle ∧ result.addresses = List.range' scratch n := by
  constructor
  · intro h
    obtain ⟨n, hle, hmem, haddresses⟩ := h.ok rfl
    exact ⟨n, hle, (List.mem_singleton.mp hmem).symm, haddresses⟩
  · rintro ⟨n, hle, rfl, haddresses⟩
    exact ⟨⟨[], _, rfl, by simp, by simp⟩, by simp, fun _ => ⟨n, hle, by simp, haddresses⟩⟩

/-- One `Read` is faithful when its first call reads the bytes that the slice then denotes. -/
theorem readLoop_faithful_iff :
    (∃ s result' seen, readLoop results scratch store result (fuel + 1) [] =
        .ok (s, result', seen) ∧ Faithful scratch s result' seen) ↔
      ∃ n hle, results 0 = .count n hle ∧
        (store result { data := scratch, size := UInt64.ofInt n }).addresses =
          List.range' scratch n := by
  rw [readLoop_eq]
  constructor
  · rintro ⟨s, result', seen, ⟨⟩, h⟩
    obtain ⟨n, hle, hn, haddresses⟩ := faithful_singleton_iff.mp h
    rw [hn] at haddresses
    exact ⟨n, hle, hn, haddresses⟩
  · rintro ⟨n, hle, hn, haddresses⟩
    refine ⟨_, _, _, rfl, faithful_singleton_iff.mpr ⟨n, hle, hn, ?_⟩⟩
    rw [hn]
    exact haddresses

end Loop

/-- The slice of the bytes that were read denotes them. -/
theorem addresses_made {n len : ℕ} (scratch : ℕ) (hlt : len < 2 ^ 64) (hle : n ≤ len) :
    (RawSlice.mk scratch (UInt64.ofInt n)).addresses = List.range' scratch n := by
  have hsize : (UInt64.ofInt n).toNat = n := by
    rw [UInt64.ofInt, UInt64.toNat_ofNat']
    omega
  rw [RawSlice.addresses, hsize]

/-- **When a read is faithful.** `SequentialFile::Read` is when its first call of `read` does not
fail and reads what the caller's slice denoted before; `RandomAccessFile::Read` is when its first
call of `pread` does not fail. -/
theorem reads_faithful_iff (reads : (len : ℕ) → ℕ → ReadResult len)
    (preads : UInt32 → (len : ℕ) → ℕ → ReadResult len) (fuel : ℕ) (result : RawSlice)
    (scratch : ℕ) :
    (∀ n : UInt64,
      (∃ s result' seen, SequentialFile.read reads (fuel + 1) n result scratch =
          .ok (s, result', seen) ∧ Faithful scratch s result' seen) ↔
        ∃ c hle, reads n.toNat 0 = .count c hle ∧
          result.addresses = List.range' scratch c) ∧
    ∀ (offset : UInt32) (n : Int32),
      (∃ s result' seen, RandomAccessFile.read preads (fuel + 1) offset result scratch n =
          .ok (s, result', seen) ∧ Faithful scratch s result' seen) ↔
        ∃ c hle, preads offset n.toInt64.toUInt64.toNat 0 = .count c hle := by
  refine ⟨fun n => readLoop_faithful_iff, fun offset n => readLoop_faithful_iff.trans ?_⟩
  constructor
  · rintro ⟨c, hle, hc, -⟩
    exact ⟨c, hle, hc⟩
  · rintro ⟨c, hle, hc⟩
    exact ⟨c, hle, hc, addresses_made scratch (UInt64.toNat_lt _) hle⟩

/-- A file that cannot be read. -/
def badSector (len : ℕ) : ℕ → ReadResult len := fun _ => .failed

/-- Both `Read`s return `OK`, and `RandomAccessFile::Read` a slice of `2 ^ 64 - 1` bytes. -/
theorem not_faithful_badSector :
    let null : RawSlice := ⟨0, 0⟩
    SequentialFile.read badSector 1 4 null 64 = .ok (.ok, null, [.failed]) ∧
    RandomAccessFile.read (fun _ => badSector) 1 0 null 64 4 =
      .ok (.ok, ⟨64, 0xffffffffffffffff⟩, [.failed]) ∧
    ¬ Faithful 64 .ok null [(.failed : ReadResult 4)] ∧
    ¬ Faithful 64 .ok ⟨64, 0xffffffffffffffff⟩ [(.failed : ReadResult 4)] := by
  have hreported {result : RawSlice} : ¬ Faithful 64 .ok result [(.failed : ReadResult 4)] :=
    fun h => absurd (h.failed (by simp)) (by decide)
  exact ⟨readLoop_eq, readLoop_eq, hreported, hreported⟩

end TinyLeveldb
