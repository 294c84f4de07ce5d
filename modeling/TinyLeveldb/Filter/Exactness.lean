import TinyLeveldb.Filter.Block
import TinyLeveldb.Library.Segments

/-!
# What a filter block answers

The filters of a block are the segments of `result_`, one for every 2 KB bucket of file
offsets, and `filter_offsets_` are their starts. `At b policy blocks c` says so for a builder
that has reached bucket `c` after `blocks`: the filters of the buckets below `c` are made and
the keys of bucket `c` are pending. The reader cuts the filter of a bucket out of the finished
bytes again, because the word behind the last offset is the end of the last filter.
-/

namespace TinyLeveldb

open Library

namespace FilterBlockBuilder

/-- A `StartBlock` and the `AddKey`s up to the next one. -/
abbrev BlockCalls := UInt64 × List Slice

/-- Execute a `StartBlock` and its `AddKey`s. -/
def addBlock (b : FilterBlockBuilder) (block : BlockCalls) : Except Fault FilterBlockBuilder := do
  let b ← b.startBlock block.1
  .ok (block.2.foldl addKey b)

/-- The 2 KB bucket of a file offset. -/
def bucket (offset : UInt64) : ℕ := (offset / filterBase).toNat

/-- The keys added while the current block offset lay in bucket `i`. -/
def bucketKeys (blocks : List BlockCalls) (i : ℕ) : List Slice :=
  (blocks.filter fun block => bucket block.1 = i).flatMap Prod.snd

/-- The filter `GenerateFilter` appends for pending keys, none for no keys. -/
def filterOf (policy : BloomFilterPolicy) (keys : List Slice) : Bytes :=
  if keys = [] then [] else policy.createFilter keys ((keys.length : ℤ).bmod (2 ^ 32)) []

/-! ### The state of a builder -/

/-- The builder has made `filters` and has `pending` keys. -/
structure Holds (b : FilterBlockBuilder) (policy : BloomFilterPolicy) (filters : List Bytes)
    (pending : List Slice) : Prop where
  policy : b.policy = policy
  keys : b.keys = (pending.map Slice.data).flatten
  start : b.start = starts (pending.map Slice.data)
  result : b.result = filters.flatten
  filterOffsets : b.filterOffsets = (starts filters).map UInt32.ofNat

section Holds

variable {b : FilterBlockBuilder} {policy : BloomFilterPolicy} {filters : List Bytes}
  {pending : List Slice}

theorem Holds.length_filterOffsets (h : Holds b policy filters pending) :
    b.filterOffsets.length = filters.length := by
  rw [h.filterOffsets, List.length_map, length_starts]

theorem Holds.addKey (h : Holds b policy filters pending) (key : Slice) :
    Holds (b.addKey key) policy filters (pending ++ [key]) where
  policy := h.policy
  keys := by simp [FilterBlockBuilder.addKey, FilterBlockBuilder.appendKey, h.keys]
  start := by
    simp [FilterBlockBuilder.addKey, FilterBlockBuilder.appendKey, h.keys, h.start, starts_concat]
  result := h.result
  filterOffsets := h.filterOffsets

theorem Holds.addKeys (h : Holds b policy filters pending) (keys : List Slice) :
    Holds (keys.foldl FilterBlockBuilder.addKey b) policy filters (pending ++ keys) := by
  induction keys generalizing b pending with
  | nil => simpa using h
  | cons key keys ih => simpa using ih (h.addKey key)

/-- The flattened keys are cut into the keys that were added. -/
theorem Holds.tmpKeys (h : Holds b policy filters pending) :
    ∃ keys, FilterBlockBuilder.tmpKeys b.keys (b.start ++ [b.keys.length]) b.start.length =
      .ok keys ∧ keys.map Slice.data = pending.map Slice.data := by
  set segs := pending.map Slice.data with hsegs
  have hlen : b.start.length = segs.length := by rw [h.start, length_starts]
  have hcut : ∀ i ∈ List.range b.start.length, ∃ key,
      Slice.ofString ((b.keys.drop ((b.start ++ [b.keys.length]).getD i 0)).take
        ((b.start ++ [b.keys.length]).getD (i + 1) 0 -
          (b.start ++ [b.keys.length]).getD i 0)) = .ok key ∧ key.data = segs.getD i [] := by
    intro i hi
    rw [List.mem_range, hlen] at hi
    have hcutseg := take_drop_flatten hi []
    rw [List.append_nil] at hcutseg
    rw [h.start, h.keys, getD_starts_append hi.le, getD_starts_append hi, hcutseg]
    have hsize : segs[i].length < 2 ^ 31 := by
      simp only [hsegs, List.getElem_map]
      exact (pending.get ⟨i, by simpa [hsegs] using hi⟩).size_lt
    exact ⟨_, Slice.ofString_of_lt hsize, by simp [List.getD_eq_getElem?_getD, hi]⟩
  obtain ⟨keys, hok, hmap⟩ := mapM_eq_ok hcut
  refine ⟨keys, hok, ?_⟩
  rw [hmap, hlen]
  refine List.ext_getElem (by simp) fun i h₁ h₂ => ?_
  simp [List.getD_eq_getElem?_getD, h₂]

/-- `GenerateFilter` turns the pending keys into one more filter. -/
theorem Holds.generateFilter (h : Holds b policy filters pending) :
    ∃ b', b.generateFilter = .ok b' ∧
      Holds b' policy (filters ++ [filterOf policy pending]) [] := by
  have hoffsets : b.filterOffsets ++ [UInt32.ofNat b.result.length] =
      (starts (filters ++ [filterOf policy pending])).map UInt32.ofNat := by
    rw [starts_concat, List.map_append, ← h.filterOffsets, h.result]
    rfl
  by_cases hnil : pending = []
  · subst hnil
    have hstart : b.start = [] := by simp [h.start, starts]
    refine ⟨{ b with filterOffsets := b.filterOffsets ++ [UInt32.ofNat b.result.length] },
      by simp [FilterBlockBuilder.generateFilter, hstart], h.policy, h.keys, h.start, ?_, hoffsets⟩
    simp [h.result, filterOf]
  · have hlen : b.start.length = pending.length := by simp [h.start]
    have hzero : b.start.length ≠ 0 := by simpa [hlen] using hnil
    obtain ⟨keys, hok, hmap⟩ := h.tmpKeys
    refine ⟨{ b with
        filterOffsets := b.filterOffsets ++ [UInt32.ofNat b.result.length]
        result := b.policy.createFilter keys ((b.start.length : ℤ).bmod (2 ^ 32)) b.result
        keys := []
        start := [] }, ?_, h.policy, rfl, rfl, ?_, hoffsets⟩
    · simp only [FilterBlockBuilder.generateFilter, if_neg hzero, hok, ok_bind]
    · simp only [h.policy, hlen, h.result, List.flatten_append, List.flatten_singleton, filterOf,
        if_neg hnil]
      rw [BloomFilterPolicy.createFilter_eq_append, policy.createFilter_congr hmap]

end Holds

/-! ### Buckets -/

/-- The builder has reached bucket `c`. -/
structure At (b : FilterBlockBuilder) (policy : BloomFilterPolicy) (blocks : List BlockCalls)
    (c : ℕ) : Prop where
  holds : Holds b policy ((List.range c).map fun i => filterOf policy (bucketKeys blocks i))
    (bucketKeys blocks c)
  bucket_le : ∀ block ∈ blocks, bucket block.1 ≤ c

section At

variable {b : FilterBlockBuilder} {policy : BloomFilterPolicy} {blocks : List BlockCalls} {c : ℕ}

theorem At.length_filterOffsets (h : At b policy blocks c) : b.filterOffsets.length = c := by
  rw [h.holds.length_filterOffsets, List.length_map, List.length_range]

theorem bucketKeys_eq_nil {i : ℕ} (h : ∀ block ∈ blocks, bucket block.1 ≠ i) :
    bucketKeys blocks i = [] := by
  rw [bucketKeys, List.filter_eq_nil_iff.mpr (by simpa using h)]
  rfl

theorem bucketKeys_concat (block : BlockCalls) (i : ℕ) :
    bucketKeys (blocks ++ [block]) i =
      bucketKeys blocks i ++ if bucket block.1 = i then block.2 else [] := by
  rw [bucketKeys, bucketKeys, List.filter_append, List.flatMap_append]
  by_cases h : bucket block.1 = i <;> simp [h]

/-- `GenerateFilter` goes to the next bucket. -/
theorem At.generateFilter (h : At b policy blocks c) :
    ∃ b', b.generateFilter = .ok b' ∧ At b' policy blocks (c + 1) := by
  obtain ⟨b', hok, hb'⟩ := h.holds.generateFilter
  refine ⟨b', hok, ?_, fun block hblock => (h.bucket_le block hblock).trans (Nat.le_succ c)⟩
  have hnil : bucketKeys blocks (c + 1) = [] :=
    bucketKeys_eq_nil fun block hblock => (Nat.lt_succ_of_le (h.bucket_le block hblock)).ne
  rw [hnil, List.range_succ, List.map_append]
  exact hb'

/-- The loop of `StartBlock` ends at the bucket it goes to. -/
theorem At.generateTo {i : ℕ} (h : At b policy blocks c) (hci : c ≤ i) {fuel : ℕ}
    (hfuel : i < c + fuel) :
    ∃ b', b.generateTo i fuel = .ok b' ∧ At b' policy blocks i := by
  induction fuel generalizing b c with
  | zero => omega
  | succ fuel ih =>
    rw [FilterBlockBuilder.generateTo, h.length_filterOffsets]
    rcases hci.eq_or_lt with rfl | hlt
    · exact ⟨b, by simp, h⟩
    · obtain ⟨b₁, hok₁, h₁⟩ := h.generateFilter
      obtain ⟨b₂, hok₂, h₂⟩ := ih h₁ hlt (by omega)
      exact ⟨b₂, by rw [if_pos hlt, hok₁, ok_bind, hok₂], h₂⟩

/-- `StartBlock` at an offset that is not behind. -/
theorem At.startBlock (h : At b policy blocks c) {offset : UInt64} (hc : c ≤ bucket offset) :
    ∃ b', b.startBlock offset = .ok b' ∧ At b' policy blocks (bucket offset) := by
  have hfuel : bucket offset < c + (bucket offset + 1) := by omega
  obtain ⟨b', hok, hb'⟩ := h.generateTo hc hfuel
  refine ⟨b', ?_, hb'⟩
  have hassert : (offset / filterBase).toNat ≥ b.filterOffsets.length := by
    rw [h.length_filterOffsets]
    exact hc
  rw [FilterBlockBuilder.startBlock, assert_of hassert]
  exact hok

/-- **Step lemma.** A block of calls leaves the builder at the bucket of its offset. -/
theorem At.addBlock (h : At b policy blocks c) {block : BlockCalls} (hc : c ≤ bucket block.1) :
    ∃ b', b.addBlock block = .ok b' ∧ At b' policy (blocks ++ [block]) (bucket block.1) := by
  obtain ⟨b₁, hok, h₁⟩ := h.startBlock hc
  refine ⟨block.2.foldl FilterBlockBuilder.addKey b₁,
    by rw [FilterBlockBuilder.addBlock, hok, ok_bind], ?_, ?_⟩
  · have hfilters : ((List.range (bucket block.1)).map fun i =>
        filterOf policy (bucketKeys (blocks ++ [block]) i)) =
        (List.range (bucket block.1)).map fun i => filterOf policy (bucketKeys blocks i) := by
      refine List.map_congr_left fun i hi => ?_
      rw [bucketKeys_concat, if_neg (List.mem_range.mp hi).ne', List.append_nil]
    rw [hfilters, bucketKeys_concat, if_pos rfl]
    exact h₁.holds.addKeys block.2
  · intro x hx
    rcases List.mem_append.mp hx with hx | hx
    · exact h₁.bucket_le x hx
    · rw [List.mem_singleton.mp hx]

end At

/-! ### Runs -/

section Run

variable {policy : BloomFilterPolicy} {blocks : List BlockCalls}

/-- What holds after the calls of `blocks`. -/
def AfterBlocks (policy : BloomFilterPolicy) (blocks : List BlockCalls)
    (b : FilterBlockBuilder) : Prop :=
  ∃ c, At b policy blocks c ∧ (c = 0 ∨ ∃ block ∈ blocks, c = bucket block.1)

theorem bucket_mono {offset offset' : UInt64} (h : offset ≤ offset') :
    bucket offset ≤ bucket offset' := by
  rw [bucket, bucket, UInt64.toNat_div, UInt64.toNat_div]
  exact Nat.div_le_div_right (UInt64.le_iff_toNat_le.mp h)

/-- **Run lemma.** With offsets that do not decrease all calls complete. -/
theorem runAll_addBlock (policy : BloomFilterPolicy)
    (hsorted : blocks.Pairwise fun x y => x.1 ≤ y.1) :
    ∃ b, runAll addBlock { policy } blocks = .ok b ∧ AfterBlocks policy blocks b := by
  have hok : ∀ pre block b, AfterBlocks policy pre b → (∀ x ∈ pre, x.1 ≤ block.1) →
      ∃ b', addBlock b block = .ok b' ∧ AfterBlocks policy (pre ++ [block]) b' := by
    rintro pre block b ⟨c, hb, hc⟩ hle
    have hcb : c ≤ bucket block.1 := by
      rcases hc with rfl | ⟨x, hx, rfl⟩
      · exact Nat.zero_le _
      · exact bucket_mono (hle x hx)
    obtain ⟨b', hok, hb'⟩ := hb.addBlock hcb
    exact ⟨b', hok, _, hb', .inr ⟨block, by simp, rfl⟩⟩
  refine runAll_ok_of_allSteps hok ⟨0, ⟨⟨rfl, rfl, rfl, rfl, rfl⟩, by simp⟩, .inl rfl⟩
    fun pre block post hblocks x hx => ?_
  rw [hblocks] at hsorted
  exact (List.pairwise_append.mp hsorted).2.2 x hx block (by simp)

/-- The bytes of a finished filter block with the given filters. -/
def blockBytes (filters : List Bytes) : Bytes :=
  filters.flatten ++
    (((starts filters ++ [filters.flatten.length]).map UInt32.ofNat).map encodeFixed32).flatten ++
      [UInt8.ofNat filterBaseLg]

/-- `Finish` makes the last filter and appends the offsets. Every bucket with keys has a
filter. -/
theorem At.finishResult {b : FilterBlockBuilder} {c : ℕ} (hb : At b policy blocks c) :
    ∃ b' m, b.finishResult = .ok b' ∧ m ≤ c + 1 ∧ b'.filterOffsets.length = m ∧
      b'.result =
        blockBytes ((List.range m).map fun i => filterOf policy (bucketKeys blocks i)) ∧
      ∀ i, m ≤ i → bucketKeys blocks i = [] := by
  obtain ⟨b₁, m, hlast, hmc, h₁, hm⟩ : ∃ b₁ m, b.generateLast = .ok b₁ ∧ m ≤ c + 1 ∧
      At b₁ policy blocks m ∧ bucketKeys blocks m = [] := by
    by_cases hstart : b.start = []
    · refine ⟨b, c, by simp [generateLast, hstart], Nat.le_succ c, hb, ?_⟩
      have hlen := congrArg List.length hb.holds.start
      exact List.length_eq_zero_iff.mp (by simpa [hstart] using hlen.symm)
    · obtain ⟨b₁, hok, h₁⟩ := hb.generateFilter
      refine ⟨b₁, c + 1, by simp [generateLast, hstart, hok], le_rfl, h₁, ?_⟩
      exact bucketKeys_eq_nil fun block hblock =>
        (Nat.lt_succ_of_le (hb.bucket_le block hblock)).ne
  refine ⟨{ b₁ with
      result := b₁.result ++ (b₁.filterOffsets.map encodeFixed32).flatten ++
        encodeFixed32 (UInt32.ofNat b₁.result.length) ++ [UInt8.ofNat filterBaseLg] }, m,
    by rw [FilterBlockBuilder.finishResult, hlast, ok_bind], hmc, h₁.length_filterOffsets, ?_,
    fun i hmi => ?_⟩
  · simp [blockBytes, h₁.holds.result, h₁.holds.filterOffsets]
  · rcases hmi.eq_or_lt with rfl | hlt
    · exact hm
    · exact bucketKeys_eq_nil fun block hblock =>
        ((h₁.bucket_le block hblock).trans_lt hlt).ne

end Run

end FilterBlockBuilder

namespace FilterBlockReader

open FilterBlockBuilder

section Reader

variable {contents : Slice} {filters : List Bytes}

theorem length_blockBytes (filters : List Bytes) :
    (blockBytes filters).length = filters.flatten.length + 4 * (filters.length + 1) + 1 := by
  simp only [blockBytes, List.length_append, length_flatten_encodeFixed32, List.length_map,
    length_starts, List.length_singleton]

/-- Every word of the offset array is read back: the start of a filter, or the end of the
last. -/
theorem decodeFixed32_blockBytes {i : ℕ} (hi : i ≤ filters.length)
    (hlt : filters.flatten.length < 2 ^ 31) :
    (decodeFixed32 ((blockBytes filters).drop (filters.flatten.length + i * 4))).toNat =
      startOf filters i := by
  have hstart : startOf filters i < 2 ^ 32 := (startOf_le hi).trans_lt (by omega)
  rw [blockBytes, List.append_assoc, ← List.drop_drop, List.drop_left, Nat.mul_comm,
    decodeFixed32_drop_words _ _ (by simpa using Nat.lt_succ_of_le hi)]
  have hget : ((starts filters ++ [filters.flatten.length]).map UInt32.ofNat).getD i 0 =
      UInt32.ofNat ((starts filters ++ [filters.flatten.length]).getD i 0) := by
    have hlen : i < (starts filters ++ [filters.flatten.length]).length := by
      simpa using Nat.lt_succ_of_le hi
    rw [List.getD_eq_getElem _ _ (by simpa using hlen), List.getD_eq_getElem _ _ hlen,
      List.getElem_map]
  rw [hget, getD_starts_append hi, UInt32.toNat_ofNat_of_lt' hstart]

/-- The reader finds the offset array and the base. -/
theorem new_blockBytes (policy : BloomFilterPolicy) (h : contents.data = blockBytes filters) :
    new policy contents =
      { policy, data := contents, offset := filters.flatten.length, num := filters.length,
        baseLg := 11 } := by
  have hlen := length_blockBytes filters
  have hsize : contents.size = filters.flatten.length + 4 * (filters.length + 1) + 1 := by
    rw [Slice.size, h, hlen]
  have hlt : filters.flatten.length < 2 ^ 31 := by
    have := contents.size_lt
    have : contents.data.length = filters.flatten.length + 4 * (filters.length + 1) + 1 := hsize
    omega
  -- the last byte is the base, the word before it the length of the filters
  have hbase : statedBase contents = 11 := by
    have hlast : (blockBytes filters).getD (contents.size - 1) 0 = UInt8.ofNat filterBaseLg := by
      rw [blockBytes, List.getD_append_right _ _ _ _ ?_]
      · rw [hsize]
        simp only [List.length_append, length_flatten_encodeFixed32, List.length_map,
          length_starts, List.length_singleton, Nat.add_sub_cancel]
        rw [Nat.sub_self]
        rfl
      · rw [hsize]
        simp only [List.length_append, length_flatten_encodeFixed32, List.length_map,
          length_starts, List.length_singleton, Nat.add_sub_cancel]
        exact le_rfl
    rw [statedBase, h, hlast]
    rfl
  have hword : arrayPosition contents = filters.flatten.length := by
    have hpos : contents.size - 5 = filters.flatten.length + filters.length * 4 := by omega
    rw [arrayPosition, hpos, h, decodeFixed32_blockBytes le_rfl hlt, startOf_of_length_le le_rfl]
  have hfive : ¬ contents.size < 5 := by omega
  have hfits : ¬ filters.flatten.length > contents.size - 5 := by omega
  have hnum : (contents.size - 5 - filters.flatten.length) / 4 = filters.length := by omega
  simp only [new_eq, if_neg hfive, hword, if_neg hfits, hnum, hbase]

/-- **What the reader answers**: whether the key matches the filter of the bucket, and `true`
behind the last bucket. -/
theorem keyMayMatch_blockBytes (policy : BloomFilterPolicy)
    (h : contents.data = blockBytes filters) (offset : UInt64) (key : Slice) :
    (filters.length ≤ bucket offset → (new policy contents).keyMayMatch offset key = true) ∧
      ∀ hi : bucket offset < filters.length, ∃ filter : Slice,
        filter.data = filters[bucket offset] ∧
          (new policy contents).keyMayMatch offset key = policy.keyMayMatch key filter := by
  have hshift : (offset >>> (11 : UInt64)).toNat = bucket offset := by
    rw [UInt64.toNat_shiftRight, bucket, UInt64.toNat_div]
    exact Nat.shiftRight_eq_div_pow _ _
  have hlt : filters.flatten.length < 2 ^ 31 := by
    have := contents.size_lt
    rw [h, length_blockBytes] at this
    omega
  have hoffset : filters.flatten.length ≤ contents.size := by
    rw [Slice.size, h, length_blockBytes]
    omega
  rw [new_blockBytes policy h, keyMayMatch_eq hoffset]
  refine ⟨fun hle => ?_, fun hi => ?_⟩
  · simp only [hshift, if_neg (not_lt.mpr hle)]
  · -- the filter lies between two neighbouring words of the offset array
    have hstart := decodeFixed32_blockBytes hi.le hlt
    have hlimit := decodeFixed32_blockBytes (Nat.succ_le_of_lt hi) hlt
    rw [Nat.succ_mul, ← Nat.add_assoc] at hlimit
    have hmono : startOf filters (bucket offset) ≤ startOf filters (bucket offset + 1) :=
      startOf_mono (Nat.le_succ _)
    have hle : startOf filters (bucket offset + 1) ≤ filters.flatten.length :=
      startOf_le (Nat.succ_le_of_lt hi)
    refine ⟨subslice contents (startOf filters (bucket offset))
      (startOf filters (bucket offset + 1) - startOf filters (bucket offset)), ?_, ?_⟩
    · simp only [subslice, h, blockBytes, List.append_assoc]
      exact take_drop_flatten hi _
    · simp only [hshift, if_pos hi, h, hstart, hlimit, hmono, hle, and_self, if_true]

end Reader

end FilterBlockReader

namespace FilterBlockBuilder

/-- What a reader should answer about a key at a file offset: `true` from the `num`-th bucket
on, `false` in a bucket without keys, and elsewhere what the Bloom filter of exactly the keys of
the bucket answers. -/
structure AnswersAt (policy : BloomFilterPolicy) (blocks : List BlockCalls) (num : ℕ)
    (offset : UInt64) (key : Slice) (answer : Bool) : Prop where
  behind : num ≤ bucket offset → answer = true
  noKeys : bucket offset < num → bucketKeys blocks (bucket offset) = [] → answer = false
  keys : bucket offset < num → bucketKeys blocks (bucket offset) ≠ [] →
    ∃ filter : Slice,
      filter.data = policy.createFilter (bucketKeys blocks (bucket offset))
        (bucketKeys blocks (bucket offset)).length [] ∧
      answer = policy.keyMayMatch key filter

/-- The filter block of a run is exact: all calls complete, and if the finished bytes are fewer
than `2 ^ 31`, a reader over them answers as it should about every key at every offset, and
`true` about every key that was added at its offset. -/
def Exact (policy : BloomFilterPolicy) (blocks : List BlockCalls) : Prop :=
  ∃ b₀ b, runAll addBlock { policy } blocks = .ok b₀ ∧ b₀.finishResult = .ok b ∧
    (b.result.length < 2 ^ 31 → ∃ contents, b₀.finish = .ok (contents, b) ∧
      (∀ offset key, AnswersAt policy blocks b.filterOffsets.length offset key
        ((FilterBlockReader.new policy contents).keyMayMatch offset key)) ∧
      ∀ block ∈ blocks, ∀ key ∈ block.2,
        (FilterBlockReader.new policy contents).keyMayMatch block.1 key = true)

/-- The cast to `int` keeps a number of keys below `2 ^ 31`. -/
theorem filterOf_of_lt (policy : BloomFilterPolicy) {keys : List Slice} (hne : keys ≠ [])
    (hlt : keys.length < 2 ^ 31) :
    filterOf policy keys = policy.createFilter keys keys.length [] := by
  have hbmod : (keys.length : ℤ).bmod (2 ^ 32) = keys.length := by
    rw [Int.bmod_def]
    split_ifs <;> omega
  rw [filterOf, if_neg hne, hbmod]

/-- The empty filter matches nothing. -/
theorem keyMayMatch_of_data_nil (policy : BloomFilterPolicy) {filter : Slice}
    (h : filter.data = []) (key : Slice) : policy.keyMayMatch key filter = false := by
  simp [BloomFilterPolicy.keyMayMatch_eq, Slice.size, h]

/-- Finishing a builder that has reached a bucket: the filter block is exact. -/
theorem At.exact {policy : BloomFilterPolicy} {blocks : List BlockCalls} {b₀ : FilterBlockBuilder}
    {c : ℕ} (hat : At b₀ policy blocks c) (hkeys : ∀ i, (bucketKeys blocks i).length < 2 ^ 31) :
    ∃ b, b₀.finishResult = .ok b ∧
      (b.result.length < 2 ^ 31 → ∃ contents, b₀.finish = .ok (contents, b) ∧
        (∀ offset key, AnswersAt policy blocks b.filterOffsets.length offset key
          ((FilterBlockReader.new policy contents).keyMayMatch offset key)) ∧
        ∀ block ∈ blocks, ∀ key ∈ block.2,
          (FilterBlockReader.new policy contents).keyMayMatch block.1 key = true) := by
  obtain ⟨b, m, hfinish, -, hlen, hresult, hnone⟩ := hat.finishResult
  refine ⟨b, hfinish, fun hsize => ?_⟩
  obtain ⟨contents, hcontents, hof⟩ : ∃ contents : Slice, contents.data = b.result ∧
      Slice.ofString b.result = .ok contents := ⟨_, rfl, Slice.ofString_of_lt hsize⟩
  have hread := fun offset key =>
    FilterBlockReader.keyMayMatch_blockBytes policy (hcontents.trans hresult) offset key
  simp only [List.length_map, List.length_range, List.getElem_map, List.getElem_range] at hread
  refine ⟨contents, ?_, ?_, ?_⟩
  · rw [finish, hfinish, ok_bind, hof, ok_bind]
  · intro offset key
    rw [hlen]
    refine ⟨(hread offset key).1, fun hi hnil => ?_, fun hi hne => ?_⟩
    · obtain ⟨filter, hfilter, hanswer⟩ := (hread offset key).2 hi
      rw [hanswer]
      -- a skipped bucket has the empty filter
      refine keyMayMatch_of_data_nil policy ?_ key
      simp [hfilter, filterOf, hnil]
    · obtain ⟨filter, hfilter, hanswer⟩ := (hread offset key).2 hi
      exact ⟨filter, by rw [hfilter, filterOf_of_lt policy hne (hkeys _)], hanswer⟩
  · intro block hblock key hkey
    have hmem : key ∈ bucketKeys blocks (bucket block.1) :=
      List.mem_flatMap.mpr ⟨block, by simp [hblock], hkey⟩
    have hne := List.ne_nil_of_mem hmem
    have hi : bucket block.1 < m := by
      by_contra hge
      exact hne (hnone _ (not_lt.mp hge))
    obtain ⟨filter, hfilter, hanswer⟩ := (hread block.1 key).2 hi
    rw [hanswer]
    refine policy.keyMayMatch_of_mem policy (hkeys (bucket block.1)) [] ?_ hmem
    rw [hfilter, filterOf_of_lt policy hne (hkeys _)]
    rfl

/-- **Exactness of the filter block**, for offsets that do not decrease and fewer than
`2 ^ 31` keys in a bucket. -/
theorem exact_of_sorted (policy : BloomFilterPolicy) (blocks : List BlockCalls)
    (hsorted : blocks.Pairwise fun x y => x.1 ≤ y.1)
    (hkeys : ∀ i, (bucketKeys blocks i).length < 2 ^ 31) : Exact policy blocks := by
  obtain ⟨b₀, hrun, c, hat, -⟩ := runAll_addBlock policy hsorted
  obtain ⟨b, hfinish, hexact⟩ := hat.exact hkeys
  exact ⟨b₀, b, hrun, hfinish, hexact⟩

/-- Two blocks in two buckets. -/
theorem exact_two : Exact ⟨10, by decide⟩
    [(0, [⟨[97], [], by decide⟩]), (4096, [⟨[98], [], by decide⟩, ⟨[], [], by decide⟩])] := by
  refine exact_of_sorted _ _ (by simp) fun i => ?_
  simp only [bucketKeys, List.filter_cons, List.filter_nil]
  split <;> split <;> decide

/-! ### Too many keys -/

/-- The filter of 64 bits, none of them set, with one probe. -/
def blankFilter : Bytes := [0, 0, 0, 0, 0, 0, 0, 0, 1]

/-- With `2 ^ 31` keys the cast to `int` is negative, and `CreateFilter` sets no bit at all. -/
theorem filterOf_manyKeys {policy : BloomFilterPolicy} (hpolicy : policy.bitsPerKey = 0)
    {keys : List Slice} (hlen : keys.length = 2 ^ 31) : filterOf policy keys = blankFilter := by
  have hn : ((2 ^ 31 : ℕ) : ℤ).bmod (2 ^ 32) = -2147483648 := by decide
  have htoNat : (-2147483648 : ℤ).toNat = 0 := rfl
  have hne : keys ≠ [] := by
    rintro rfl
    simp at hlen
  have hbytes : policy.filterBytes (-2147483648) = 8 := by
    rw [BloomFilterPolicy.filterBytes, hpolicy]
    decide
  have hk : policy.k = 1 := by
    rw [BloomFilterPolicy.k, hpolicy]
    rfl
  rw [filterOf, if_neg hne, hlen, hn, BloomFilterPolicy.createFilter, hbytes, hk, htoNat,
    List.take_zero]
  rfl

/-- No key matches the blank filter. -/
theorem keyMayMatch_blankFilter (policy : BloomFilterPolicy) {filter : Slice}
    (h : filter.data = blankFilter) (key : Slice) : policy.keyMayMatch key filter = false := by
  have hclear : ∀ i < 64, testBit blankFilter 0 i = false := by decide
  have hpos : bitPos (bloomHash key) 64 < 64 := BloomFilterPolicy.bitPos_lt _ (by decide)
  have hbits : UInt64.ofNat ((blankFilter.length - 1) * 8) = 64 := rfl
  have hk : (blankFilter.getD (blankFilter.length - 1) 0).toInt8.toInt64.toUInt64 = 1 := rfl
  have hlen : ¬ blankFilter.length < 2 := by decide
  have honce : ¬ (1 : UInt64) > 30 := by decide
  have hone : (1 : UInt64).toNat = 1 := rfl
  simp only [BloomFilterPolicy.keyMayMatch_eq, Slice.size, h, hbits, hk, if_neg hlen,
    if_neg honce, hone, BloomFilterPolicy.testProbes_succ, hclear _ hpos, if_true]

/-- When `2 ^ 31` keys are all the keys there are and lie in bucket 0, no key matches there. -/
theorem At.finish_manyKeys {policy : BloomFilterPolicy} (hpolicy : policy.bitsPerKey = 0)
    {blocks : List BlockCalls} {b₀ : FilterBlockBuilder} {c : ℕ} (hat : At b₀ policy blocks c)
    (hc : c < 2 ^ 28) (hlen : (bucketKeys blocks 0).length = 2 ^ 31)
    (hrest : ∀ i, bucketKeys blocks (i + 1) = []) :
    ∃ contents b, b₀.finish = .ok (contents, b) ∧
      ∀ key, (FilterBlockReader.new policy contents).keyMayMatch 0 key = false := by
  obtain ⟨b, m, hfinish, hm, -, hresult, hnone⟩ := hat.finishResult
  obtain ⟨n, rfl⟩ : ∃ n, m = n + 1 := by
    refine Nat.exists_eq_succ_of_ne_zero fun hzero => ?_
    have hnil := hnone 0 hzero.le
    rw [hnil] at hlen
    simp at hlen
  -- the other buckets have the empty filter
  have hfilters : (List.range (n + 1)).map (fun i => filterOf policy (bucketKeys blocks i)) =
      blankFilter :: List.replicate n [] := by
    rw [List.range_succ_eq_map, List.map_cons, filterOf_manyKeys hpolicy hlen, List.map_map]
    congr 1
    refine List.eq_replicate_iff.mpr ⟨by simp, fun filter hfilter => ?_⟩
    obtain ⟨i, -, rfl⟩ := List.mem_map.mp hfilter
    simp [filterOf, hrest]
  rw [hfilters] at hresult
  have hsize : b.result.length < 2 ^ 31 := by
    rw [hresult, FilterBlockReader.length_blockBytes, List.flatten_cons,
      List.flatten_replicate_nil, List.append_nil, List.length_cons, List.length_replicate]
    have hblank : blankFilter.length = 9 := rfl
    omega
  obtain ⟨contents, hcontents, hof⟩ : ∃ contents : Slice, contents.data = b.result ∧
      Slice.ofString b.result = .ok contents := ⟨_, rfl, Slice.ofString_of_lt hsize⟩
  refine ⟨contents, b, by rw [finish, hfinish, ok_bind, hof, ok_bind], fun key => ?_⟩
  obtain ⟨filter, hfilter, hanswer⟩ :=
    (FilterBlockReader.keyMayMatch_blockBytes policy (hcontents.trans hresult) 0 key).2
      (Nat.succ_pos _)
  rw [hanswer]
  exact keyMayMatch_blankFilter policy hfilter key

/-- A bucket of `2 ^ 31` keys gets the blank filter: the keys do not match. -/
theorem not_exact_of_many_keys :
    ∃ (policy : BloomFilterPolicy) (blocks : List BlockCalls),
      (blocks.Pairwise fun x y => x.1 ≤ y.1) ∧ ¬ Exact policy blocks := by
  obtain ⟨keys, key, hlen, hkey⟩ : ∃ (keys : List Slice) (key : Slice),
      keys.length = 2 ^ 31 ∧ key ∈ keys :=
    ⟨List.replicate (2 ^ 31) ⟨[], [], by decide⟩, _, List.length_replicate,
      List.mem_replicate.mpr ⟨by decide, rfl⟩⟩
  refine ⟨⟨0, by decide⟩, [(0, keys)], by simp, ?_⟩
  rintro ⟨b₀, b, hrun, hfinish, hexact⟩
  have hzero : bucket 0 = 0 := rfl
  have hstart : At { policy := ⟨0, by decide⟩ } ⟨0, by decide⟩ [] 0 :=
    ⟨⟨rfl, rfl, rfl, rfl, rfl⟩, by simp⟩
  have hle : 0 ≤ bucket (0, keys).1 := Nat.zero_le _
  obtain ⟨b₁, hok₁, h₁⟩ := hstart.addBlock hle
  rw [runAll_cons, hok₁, ok_bind, runAll_nil] at hrun
  cases hrun
  obtain ⟨contents, b', hcontents, hnoMatch⟩ := h₁.finish_manyKeys rfl (by rw [hzero]; decide)
    (by simpa [bucketKeys, hzero] using hlen) (fun i => by simp [bucketKeys, hzero])
  obtain ⟨b'', hfinish', hof⟩ := bind_eq_ok.mp hcontents
  obtain rfl : b = b'' := by simpa using hfinish.symm.trans hfinish'
  obtain ⟨slice, hslice, heq⟩ := bind_eq_ok.mp hof
  cases heq
  have hsize : b.result.length < 2 ^ 31 := by
    rw [← Slice.ofString_eq_ok hslice]
    exact contents.size_lt
  obtain ⟨contents', hcontents', -, hmatch⟩ := hexact hsize
  obtain rfl : contents = contents' := by
    have := hcontents.symm.trans hcontents'
    simpa using this
  have htrue := hmatch (0, keys) (by simp) key hkey
  rw [hnoMatch key] at htrue
  cases htrue

end FilterBlockBuilder

end TinyLeveldb
