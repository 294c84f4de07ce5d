import TinyLeveldb.Block.Builder

/-!
# Iterating over a block

`class blockIter`, and the round trip from `BlockBuilder` through it. The pointers of the
iterator are offsets into the block; a read that leaves the block is a fault.

The constructor locates the restart array with the member `size`, which nothing in the class
ever sets, so `size` is a parameter here, and a list of entries makes the round trip when it does
so whatever `size` holds. With `size = 0` the first read is before the block, so no list does
(`not_roundTrip`). Most lists also fail when `size` happens to be the length of the block: the
constructor stores the first restart offset where the class expects the position of the restart
array, and the words of the block lost their zero bytes when the builder appended them
(`not_roundTrip_single`). Not all of them do: of pairs with an empty key and a value of 256 bytes
every header word is lost, and for 41 pairs with one and the same suitable value what is read in
place of the headers is right by coincidence.
-/

namespace TinyLeveldb

open Library

/-- `coding::DecodeFixed32(data + offset)`. -/
def readFixed32 (data : Bytes) (offset : ℤ) : Except Fault UInt32 :=
  if 0 ≤ offset ∧ offset + 4 ≤ data.length then .ok (decodeFixed32 (data.drop offset.toNat))
  else .error .outOfBounds

theorem readFixed32_of_neg {data : Bytes} {offset : ℤ} (h : offset < 0) :
    readFixed32 data offset = .error .outOfBounds :=
  if_neg fun hin => absurd hin.1 (Int.not_le.mpr h)

/-- `string(data + offset, n)`. Where there is nothing to copy, nothing is read. -/
def readString (data : Bytes) (offset n : ℕ) : Except Fault Bytes :=
  if n = 0 ∨ offset + n ≤ data.length then .ok ((data.drop offset).take n)
  else .error .outOfBounds

/-- `string::resize`. -/
def resize (str : Bytes) (n : ℕ) : Bytes := str.take n ++ List.replicate (n - str.length) 0

theorem length_of_readString {data str : Bytes} {offset n : ℕ}
    (h : readString data offset n = .ok str) : str.length = n := by
  unfold readString at h
  split at h
  · rename_i hin
    cases h
    rw [List.length_take, List.length_drop]
    omega
  · cases h

@[simp]
theorem length_resize (str : Bytes) (n : ℕ) : (resize str n).length = n := by
  rw [resize, List.length_append, List.length_take, List.length_replicate]
  omega

@[simp]
theorem resize_zero (str : Bytes) : resize str 0 = [] := by
  rw [← List.length_eq_zero_iff, length_resize]

/-- `class blockIter`. -/
structure BlockIter where
  data : Bytes
  current : UInt32
  restartsNum : UInt32
  restartIndex : UInt32
  restarts : UInt32
  key : Bytes
  value : Bytes
  size : ℤ

namespace BlockIter

/-- The loop of `parseNext`. Every round but the last advances `restart_index`, which wraps at
most once, so `restarts_num + 1` rounds suffice. -/
def advanceRestart (it : BlockIter) : ℕ → UInt32 → Except Fault UInt32
  | 0, _ => .error .diverged
  | fuel + 1, restartIndex =>
      if restartIndex + 1 < it.restartsNum then do
        let restart ← readFixed32 it.data (it.restarts.toNat + (restartIndex + 1).toNat * 4)
        if restart < it.current then it.advanceRestart fuel (restartIndex + 1)
        else .ok restartIndex
      else .ok restartIndex

/-- `parseNext`. -/
def parseNext (it : BlockIter) : Except Fault BlockIter :=
  if it.current ≥ it.restarts then .ok it
  else do
    let ptr := it.current.toNat
    let shared ← readFixed32 it.data ptr
    let nonShared ← readFixed32 it.data (ptr + 4)
    let valueSize ← readFixed32 it.data (ptr + 8)
    let ptr := ptr + 12
    let suffix ← readString it.data (ptr + shared.toNat) nonShared.toNat
    let value ← readString it.data (ptr + nonShared.toNat) valueSize.toNat
    let restartIndex ← it.advanceRestart (it.restartsNum.toNat + 1) it.restartIndex
    .ok { it with key := resize it.key shared.toNat ++ suffix, value, restartIndex }

/-- `Next`. -/
def next (it : BlockIter) : Except Fault BlockIter := do
  let it ← it.parseNext
  .ok { it with current := it.current + UInt32.ofNat (it.key.length + it.value.length + 12) }

/-- `SeekToFirst`. -/
def seekToFirst (it : BlockIter) : Except Fault BlockIter := do
  let current ← readFixed32 it.data it.restarts.toNat
  { it with current }.next

/-- `blockIter::blockIter(data, restarts_num)`, where the member `size` holds the given value. -/
def new (data : Bytes) (restartsNum : UInt32) (size : ℤ) : Except Fault BlockIter := do
  let restarts ← readFixed32 data (size - restartsNum.toNat * 4 - 4)
  let it : BlockIter :=
    { data, current := 0, restartsNum, restartIndex := restartsNum - 1, restarts,
      key := [], value := [], size }
  it.seekToFirst

/-- The pair the iterator stands on, and the pairs after each of `n` calls of `Next`. -/
def seen : ℕ → BlockIter → Except Fault (List (Bytes × Bytes))
  | 0, it => .ok [(it.key, it.value)]
  | n + 1, it => do
      let next ← it.next
      let rest ← seen n next
      .ok ((it.key, it.value) :: rest)

/-- Construct an iterator over a block, seek to its first entry and read `n + 1` pairs. -/
def readBack (data : Bytes) (restartsNum : UInt32) (size : ℤ) (n : ℕ) :
    Except Fault (List (Bytes × Bytes)) := do
  let it ← BlockIter.new data restartsNum size
  let it ← it.seekToFirst
  it.seen n

end BlockIter

namespace BlockBuilder

/-- The block built from the entries reads back as the entries, whatever the uninitialised
member `size` of the iterator and the memory behind the local buffers hold. -/
def RoundTrip (entries : List (Bytes × Bytes)) : Prop :=
  ∀ (b : BlockBuilder) (stack : ℕ → Bytes) (size : ℤ), Built reset entries b →
    BlockIter.readBack (b.finishBuffer stack).buffer (UInt32.ofNat b.restarts.length) size
      (entries.length - 1) = .ok entries

/-- An iterator whose `size` is no larger than the restart array reads before the block. -/
theorem readBack_of_size_le {data : Bytes} {restartsNum : UInt32} {size : ℤ} (n : ℕ)
    (h : size < restartsNum.toNat * 4 + 4) :
    BlockIter.readBack data restartsNum size n = .error .outOfBounds := by
  have hread : readFixed32 data (size - restartsNum.toNat * 4 - 4) = .error .outOfBounds :=
    readFixed32_of_neg (by omega)
  rw [BlockIter.readBack, BlockIter.new, hread]
  rfl

/-- **No block makes the round trip**, as `size` may be zero. With other values of `size` a list may
read back by coincidence. -/
theorem not_roundTrip (first : Bytes × Bytes) (rest : List (Bytes × Bytes)) :
    ¬ RoundTrip (first :: rest) := by
  intro h
  obtain ⟨b, hb⟩ := exists_built reset (first :: rest)
  have hread := h b (fun _ => []) 0 hb
  rw [readBack_of_size_le _ (by omega)] at hread
  cases hread

/-- Adding `("a", "b")` gives a block of five bytes, in which an iterator that knows the length
of the block looks for a restart array of eight bytes. -/
theorem not_roundTrip_single : ¬ RoundTrip [([97], [98])] := by
  intro h
  have hb : Built reset [([97], [98])] (reset.add (fun _ => []) [97] [98]) := Built.start.add _ _ _
  have hread := h _ (fun _ => [])
    ((reset.add (fun _ => []) [97] [98]).finishBuffer fun _ => []).buffer.length hb
  rw [readBack_of_size_le _ (by decide)] at hread
  cases hread

end BlockBuilder

end TinyLeveldb
