import TinyLeveldb.Filter.Bloom
import TinyLeveldb.Library.Fallible

/-!
# The filter block

`class FilterBlockBuilder` and `class FilterBlockReader`. A filter block holds one Bloom filter
for every 2 KB of file offsets, the offset of each filter, the offset of that array, and the
binary logarithm of the 2 KB.
-/

namespace TinyLeveldb

open Library

/-- `kFilterBaseLg`. -/
def filterBaseLg : ℕ := 11

/-- `kFilterBase`. -/
def filterBase : UInt64 := 2048

/-- `class FilterBlockBuilder`. Its `tmp_keys_` is only used inside `GenerateFilter`. -/
structure FilterBlockBuilder where
  policy : BloomFilterPolicy
  keys : Bytes := []
  start : List ℕ := []
  result : Bytes := []
  filterOffsets : List UInt32 := []

namespace FilterBlockBuilder

/-- The loop of `GenerateFilter`: the keys as slices of the flattened keys. -/
def tmpKeys (keys : Bytes) (start : List ℕ) (numKeys : ℕ) : Except Fault (List Slice) :=
  (List.range numKeys).mapM fun i =>
    Slice.ofString ((keys.drop (start.getD i 0)).take (start.getD (i + 1) 0 - start.getD i 0))

/-- `GenerateFilter`. The number of keys is cast to an `int`. -/
def generateFilter (b : FilterBlockBuilder) : Except Fault FilterBlockBuilder :=
  let numKeys := b.start.length
  if numKeys = 0 then
    .ok { b with filterOffsets := b.filterOffsets ++ [UInt32.ofNat b.result.length] }
  else do
    let tmpKeys ← tmpKeys b.keys (b.start ++ [b.keys.length]) numKeys
    let n := (numKeys : ℤ).bmod (2 ^ 32)
    .ok { b with
      filterOffsets := b.filterOffsets ++ [UInt32.ofNat b.result.length]
      result := b.policy.createFilter tmpKeys n b.result
      keys := []
      start := [] }

/-- The loop of `StartBlock`. Every round adds an offset, so `filter_index` rounds suffice. -/
def generateTo (filterIndex : ℕ) : ℕ → FilterBlockBuilder → Except Fault FilterBlockBuilder
  | 0, _ => .error .diverged
  | fuel + 1, b =>
      if filterIndex > b.filterOffsets.length then do
        let b ← b.generateFilter
        generateTo filterIndex fuel b
      else .ok b

/-- `StartBlock`. -/
def startBlock (b : FilterBlockBuilder) (blockOffset : UInt64) :
    Except Fault FilterBlockBuilder := do
  let filterIndex := (blockOffset / filterBase).toNat
  assert (filterIndex ≥ b.filterOffsets.length)
  generateTo filterIndex (filterIndex + 1) b

/-- Every completed `GenerateFilter` adds one offset. -/
theorem length_generateFilter {b b' : FilterBlockBuilder} (h : b.generateFilter = .ok b') :
    b'.filterOffsets.length = b.filterOffsets.length + 1 := by
  simp only [generateFilter] at h
  split at h
  · cases h
    simp
  · obtain ⟨tmpKeys, -, h⟩ := bind_eq_ok.mp h
    cases h
    simp

theorem length_generateTo {filterIndex fuel : ℕ} {b b' : FilterBlockBuilder}
    (h : b.generateTo filterIndex fuel = .ok b') (hb : b.filterOffsets.length ≤ filterIndex) :
    b'.filterOffsets.length = filterIndex := by
  induction fuel generalizing b with
  | zero => cases h
  | succ fuel ih =>
    rw [generateTo] at h
    split at h
    · obtain ⟨b₁, h₁, h⟩ := bind_eq_ok.mp h
      have hlen := length_generateFilter h₁
      exact ih h (by omega)
    · cases h
      omega

/-- A completed `StartBlock` passed its assertion and leaves one offset for every 2 KB before
the block. -/
theorem length_startBlock {b b' : FilterBlockBuilder} {blockOffset : UInt64}
    (h : b.startBlock blockOffset = .ok b') :
    b.filterOffsets.length ≤ blockOffset.toNat / 2048 ∧
      b'.filterOffsets.length = blockOffset.toNat / 2048 := by
  have hindex : (blockOffset / filterBase).toNat = blockOffset.toNat / 2048 := by
    rw [UInt64.toNat_div]
    rfl
  obtain ⟨_, hassert, h⟩ := bind_eq_ok.mp h
  rw [hindex] at h hassert
  have hle : b.filterOffsets.length ≤ blockOffset.toNat / 2048 := by
    simpa using of_assert hassert
  exact ⟨hle, length_generateTo h hle⟩

/-- The statements of `AddKey`, for the bytes that they append. -/
def appendKey (b : FilterBlockBuilder) (key : Bytes) : FilterBlockBuilder :=
  { b with start := b.start ++ [b.keys.length], keys := b.keys ++ key }

/-- `AddKey`. -/
def addKey (b : FilterBlockBuilder) (key : Slice) : FilterBlockBuilder := b.appendKey key.data

/-- The first statement of `Finish`: generate the filter of the last keys. -/
def generateLast (b : FilterBlockBuilder) : Except Fault FilterBlockBuilder :=
  if b.start ≠ [] then b.generateFilter else .ok b

/-- `Finish` up to its `return`: append the offsets, their own offset and the base. -/
def finishResult (b : FilterBlockBuilder) : Except Fault FilterBlockBuilder := do
  let b ← b.generateLast
  let arrayOffset := UInt32.ofNat b.result.length
  .ok { b with
    result := b.result ++ (b.filterOffsets.map encodeFixed32).flatten ++
      encodeFixed32 arrayOffset ++ [UInt8.ofNat filterBaseLg] }

/-- `Finish`: the slice it returns, and the builder afterwards. -/
def finish (b : FilterBlockBuilder) : Except Fault (Slice × FilterBlockBuilder) := do
  let b ← b.finishResult
  let contents ← Slice.ofString b.result
  .ok (contents, b)

end FilterBlockBuilder

/-- `class FilterBlockReader`; `offset_` is kept as its distance from `data_`. -/
structure FilterBlockReader where
  policy : BloomFilterPolicy
  data : Slice
  offset : ℕ
  num : ℕ
  baseLg : UInt64

namespace FilterBlockReader

/-- The empty slice, for the null `data_`. -/
def nullSlice : Slice := { data := [], size_lt := by decide }

/-- `slice(data + start, length)`. -/
def subslice (contents : Slice) (start length : ℕ) : Slice where
  data := (contents.data.drop start).take length
  size_lt := by
    have := contents.size_lt
    rw [List.length_take, List.length_drop]
    omega

section Checks

variable {μ : Type → Type} [Monad μ] (require : Bool → Violation → μ Unit)

/-- `DecodeFixed32` at a position of the memory. -/
def decodeFixed32With (memory : Bytes) (i : ℕ) : μ UInt32 := do
  require (i + 4 ≤ memory.length) .outside
  return decodeFixed32 (memory.drop i)

/-- `FilterBlockReader::FilterBlockReader`. The base is read through a `char`. -/
def newWith (policy : BloomFilterPolicy) (contents : Slice) : μ FilterBlockReader :=
  let n := contents.size
  if n < 5 then pure { policy, data := nullSlice, offset := 0, num := 0, baseLg := 0 }
  else do
    let last ← readByteWith require contents.data (n - 1)
    let baseLg := last.toInt8.toInt64.toUInt64
    let word ← decodeFixed32With require contents.data (n - 5)
    let lastWord := word.toNat
    if lastWord > n - 5 then pure { policy, data := nullSlice, offset := 0, num := 0, baseLg }
    else
      pure { policy, data := contents, offset := lastWord, num := (n - 5 - lastWord) / 4, baseLg }

/-- `KeyMayMatch`. The filter is the slice of `limit - start` bytes at `data_ + start`. -/
def keyMayMatchWith (r : FilterBlockReader) (blockOffset : UInt64) (key : Slice) : μ Bool := do
  require (r.baseLg < 64) .undefinedShift
  let index := (blockOffset >>> r.baseLg).toNat
  if index < r.num then do
    let word ← decodeFixed32With require r.data.data (r.offset + index * 4)
    let start := word.toNat
    let word ← decodeFixed32With require r.data.data (r.offset + index * 4 + 4)
    let limit := word.toNat
    if start ≤ limit ∧ limit ≤ r.offset then
      r.policy.keyMayMatchWith require key r.data.data start (limit - start)
    else if start = limit then pure false
    else pure true
  else pure true

end Checks

/-- `FilterBlockReader::FilterBlockReader`, without checks. -/
def new (policy : BloomFilterPolicy) (contents : Slice) : FilterBlockReader :=
  (newWith unchecked policy contents).run

/-- `KeyMayMatch`, without checks. -/
def keyMayMatch (r : FilterBlockReader) (blockOffset : UInt64) (key : Slice) : Bool :=
  (r.keyMayMatchWith unchecked blockOffset key).run

/-- The position of the offset array that the contents state. -/
def arrayPosition (contents : Slice) : ℕ :=
  (decodeFixed32 (contents.data.drop (contents.size - 5))).toNat

/-- The base that the contents state. -/
def statedBase (contents : Slice) : UInt64 :=
  (contents.data.getD (contents.size - 1) 0).toInt8.toInt64.toUInt64

theorem new_eq (policy : BloomFilterPolicy) (contents : Slice) :
    new policy contents =
      if contents.size < 5 then { policy, data := nullSlice, offset := 0, num := 0, baseLg := 0 }
      else if arrayPosition contents > contents.size - 5 then
        { policy, data := nullSlice, offset := 0, num := 0, baseLg := statedBase contents }
      else
        { policy, data := contents, offset := arrayPosition contents,
          num := (contents.size - 5 - arrayPosition contents) / 4,
          baseLg := statedBase contents } := rfl

/-- The reader of contents whose offset array lies inside them. -/
theorem new_of_position {policy : BloomFilterPolicy} {contents : Slice} (hsize : 5 ≤ contents.size)
    (hposition : arrayPosition contents ≤ contents.size - 5) :
    new policy contents =
      { policy, data := contents, offset := arrayPosition contents,
        num := (contents.size - 5 - arrayPosition contents) / 4,
        baseLg := statedBase contents } := by
  rw [new_eq, if_neg (Nat.not_lt.mpr hsize), if_neg (Nat.not_lt.mpr hposition)]

/-- Other contents have no entries. -/
theorem num_new_eq_zero {policy : BloomFilterPolicy} {contents : Slice}
    (h : ¬ (5 ≤ contents.size ∧ arrayPosition contents ≤ contents.size - 5)) :
    (new policy contents).num = 0 := by
  rw [new_eq]
  by_cases hshort : contents.size < 5
  · rw [if_pos hshort]
  · rw [if_neg hshort, if_pos (by omega)]

/-- Behind the offset array every key matches. -/
theorem keyMayMatch_of_num_le {r : FilterBlockReader} {blockOffset : UInt64}
    (h : r.num ≤ (blockOffset >>> r.baseLg).toNat) (key : Slice) :
    r.keyMayMatch blockOffset key = true := by
  change (if (blockOffset >>> r.baseLg).toNat < r.num then _ else true) = true
  exact if_neg (not_lt.mpr h)

/-- The filter of a reader whose offset array does not begin behind its data is a slice of
them. -/
theorem keyMayMatch_eq {r : FilterBlockReader} (hoffset : r.offset ≤ r.data.size)
    (blockOffset : UInt64) (key : Slice) :
    r.keyMayMatch blockOffset key =
      let index := (blockOffset >>> r.baseLg).toNat
      if index < r.num then
        let start := (decodeFixed32 (r.data.data.drop (r.offset + index * 4))).toNat
        let limit := (decodeFixed32 (r.data.data.drop (r.offset + index * 4 + 4))).toNat
        if start ≤ limit ∧ limit ≤ r.offset then
          r.policy.keyMayMatch key (subslice r.data start (limit - start))
        else if start = limit then false
        else true
      else true := by
  change (if (blockOffset >>> r.baseLg).toNat < r.num then _ else true) = _
  refine if_congr Iff.rfl (if_ctx_congr Iff.rfl (fun hrange => ?_) fun _ => rfl) rfl
  -- the slice ends at `limit`
  exact BloomFilterPolicy.keyMayMatchWith_eq (fun _ => rfl) r.policy key rfl
    ((Nat.add_sub_cancel' hrange.1).trans_le (hrange.2.trans hoffset))

end FilterBlockReader

end TinyLeveldb
