import TinyLeveldb.Library.Segments
import TinyLeveldb.Table.Builder

/-!
# The layout of the table file

Every completed run of `Add`s and `Flush`es of a new builder has passed to the file the written
blocks, each followed by its trailer of four bytes, and the handles are the positions and sizes
of the blocks among these bytes (`layout_of_run`). A block is what `Finish` returned for the pairs
that were added to it, and the last handle is the one in `pending_handle`.

The invariant is kept in natural numbers although `offset` is a `uint64_t`: when the offset
wraps it becomes smaller than the number of offsets of the filter block accounts for, and the
assertion of `StartBlock` fails.
-/

namespace TinyLeveldb

open Library

/-- What a written block occupies in the file. -/
def WrittenBlock.bytes (b : WrittenBlock) : Bytes := b.contents ++ b.trailer

/-- `handle` is followed by `next` with nothing but a trailer between them. -/
def BlockHandle.Precedes (handle next : BlockHandle) : Prop :=
  next.offset.toNat = handle.offset.toNat + handle.size.toNat + 4

/-- `handle` ends before `next` begins. -/
def BlockHandle.Before (handle next : BlockHandle) : Prop :=
  handle.offset.toNat + handle.size.toNat ≤ next.offset.toNat

namespace TableBuilder

variable {δ : Type} {writeToFile : δ → Bytes → Except Fault (Status × δ)}
  {m : Ambient} {r : TableBuilder δ} {first : BlockBuilder}

/-- The builder that the pairs of data block `i` are added to: `WriteBlock` resets it, but nothing
does so before the first block. -/
def fresh (first : BlockBuilder) : ℕ → BlockBuilder
  | 0 => first
  | _ + 1 => BlockBuilder.reset

/-- The bytes passed to the file are the written blocks, where their handles say. `first` is the
data block of the new builder. -/
structure Layout (first : BlockBuilder) (r : TableBuilder δ) : Prop where
  appended_eq : r.history.appended = (r.history.blocks.map WrittenBlock.bytes).flatten
  offset_eq : r.offset.toNat = r.history.appended.length
  /-- Every block is what `Finish` returned for its pairs. -/
  finished : ∀ i b, r.history.blocks[i]? = some b →
    ∃ (d d' : BlockBuilder) (stack : ℕ → Bytes) (contents : Slice),
      BlockBuilder.Built (fresh first i) (entriesOf b.adds) d ∧
        d.finish stack = .ok (contents, d') ∧ contents.data = b.contents
  /-- The data block holds the pairs added since. -/
  current : BlockBuilder.Built (fresh first r.history.blocks.length) (entriesOf r.history.current)
    r.dataBlock
  pendingHandle_eq : ∀ b, r.history.blocks.getLast? = some b → r.pendingHandle = some b.handle
  trailer_length : ∀ b ∈ r.history.blocks, b.trailer.length = 4
  handle_offset : r.history.blocks.map (fun b => b.handle.offset.toNat) =
    starts (r.history.blocks.map WrittenBlock.bytes)
  handle_size : ∀ b ∈ r.history.blocks, b.handle.size.toNat = b.contents.length

/-- The filter block has an offset for every 2 KB before the next block. -/
def FilterInStep (r : TableBuilder δ) : Prop :=
  r.filterBlock.filterOffsets.length = r.offset.toNat / 2048

/-- The `StartBlock` of a `Flush` completes only when the offset has not wrapped. -/
theorem FilterInStep.toNat_offset (h : r.FilterInStep) {size : ℕ} (hsize : size < 2 ^ 31)
    {filterBlock : FilterBlockBuilder}
    (hstart : r.filterBlock.startBlock (r.offset + (UInt64.ofNat size + blockTrailerSize)) =
      .ok filterBlock) :
    (r.offset + (UInt64.ofNat size + blockTrailerSize)).toNat = r.offset.toNat + size + 4 := by
  have hassert := (FilterBlockBuilder.length_startBlock hstart).1
  have htrailer : blockTrailerSize.toNat = 4 := rfl
  have hlt := r.offset.toNat_lt
  rw [FilterInStep] at h
  rw [h] at hassert
  rw [UInt64.toNat_add, UInt64.toNat_add, UInt64.toNat_ofNat', htrailer] at hassert ⊢
  omega

/-- Indexing a block touches neither the file nor the data block. -/
theorem Layout.emitted (h : r.Layout first) (handle : BlockHandle) :
    (r.emitted m handle).Layout first :=
  ⟨h.appended_eq, h.offset_eq, h.finished, h.current, h.pendingHandle_eq, h.trailer_length,
    h.handle_offset, h.handle_size⟩

/-- A pair goes to the data block. -/
theorem Layout.store (h : r.Layout first) (key value : Slice) :
    (r.store m key value).Layout first where
  appended_eq := h.appended_eq
  offset_eq := h.offset_eq
  finished := h.finished
  current := by
    have hadd := h.current.add m.dataStack key.cString value.cString
    simpa [TableBuilder.store, entriesOf, handed] using hadd
  pendingHandle_eq := h.pendingHandle_eq
  trailer_length := h.trailer_length
  handle_offset := h.handle_offset
  handle_size := h.handle_size

theorem Layout.flushed (h : r.Layout first) (hfilter : r.FilterInStep) {contents : Slice}
    {finished : BlockBuilder} {file : WritableFile δ} {filterBlock : FilterBlockBuilder}
    (hfinish : r.dataBlock.finish m.finishStack = .ok (contents, finished))
    (hstart : r.filterBlock.startBlock
      (r.offset + (UInt64.ofNat contents.size + blockTrailerSize)) = .ok filterBlock) :
    (r.flushed m contents file filterBlock).Layout first := by
  have hsize := contents.size_lt
  have hlen := length_trailer (m := m) contents.data
  have htoNat := hfilter.toNat_offset hsize hstart
  refine ⟨?_, ?_, ?_, ?_, ?_, ?_, ?_, ?_⟩
  · simp [TableBuilder.flushed, WrittenBlock.bytes, h.appended_eq]
  · calc (r.flushed m contents file filterBlock).offset.toNat
        = r.offset.toNat + contents.data.length + 4 := htoNat
      _ = (r.history.appended ++ contents.data ++ (trailer m contents.data).data).length := by
          rw [List.length_append, List.length_append, hlen, h.offset_eq]
  · intro i b hb
    change (r.history.blocks ++ [_])[i]? = some b at hb
    rcases Nat.lt_or_ge i r.history.blocks.length with hi | hi
    · rw [List.getElem?_append_left hi] at hb
      exact h.finished i b hb
    · -- the new block is the last one
      have hlt := (List.getElem?_eq_some_iff.mp hb).1
      rw [List.length_append, List.length_singleton] at hlt
      obtain rfl : i = r.history.blocks.length := by omega
      rw [List.getElem?_concat_length] at hb
      obtain rfl := Option.some.inj hb
      exact ⟨r.dataBlock, finished, m.finishStack, contents, h.current, hfinish, rfl⟩
  · have hlength : (r.flushed m contents file filterBlock).history.blocks.length =
        r.history.blocks.length + 1 := List.length_append
    rw [hlength]
    exact .start
  · intro b hb
    change (r.history.blocks ++ [_]).getLast? = some b at hb
    rw [List.getLast?_concat] at hb
    obtain rfl := Option.some.inj hb
    rfl
  · intro b hb
    rcases List.mem_append.mp hb with hb | hb
    · exact h.trailer_length b hb
    · obtain rfl := List.mem_singleton.mp hb
      exact hlen
  · -- the new handle is at the length of the file so far
    change ((r.history.blocks ++ [_]).map _) = starts ((r.history.blocks ++ [_]).map _)
    rw [List.map_append, List.map_append, List.map_singleton, List.map_singleton, starts_concat,
      h.handle_offset, ← h.appended_eq, ← h.offset_eq]
  · intro b hb
    rcases List.mem_append.mp hb with hb | hb
    · exact h.handle_size b hb
    · obtain rfl := List.mem_singleton.mp hb
      change (UInt64.ofNat contents.data.length).toNat = contents.data.length
      rw [UInt64.toNat_ofNat']
      omega

/-- The handle of block `i` is where the blocks before it end. -/
theorem Layout.getElem_offset (h : r.Layout first) {i : ℕ} (hi : i < r.history.blocks.length) :
    r.history.blocks[i].handle.offset.toNat =
      startOf (r.history.blocks.map WrittenBlock.bytes) i := by
  rw [← getD_starts (by simpa using hi), ← h.handle_offset,
    List.getD_eq_getElem _ _ (by simpa using hi), List.getElem_map]

/-- Block `i` and its trailer end where block `i + 1` begins. -/
theorem Layout.startOf_succ (h : r.Layout first) {i : ℕ} (hi : i < r.history.blocks.length) :
    startOf (r.history.blocks.map WrittenBlock.bytes) (i + 1) =
      r.history.blocks[i].handle.offset.toNat + r.history.blocks[i].handle.size.toNat + 4 := by
  have hmem := List.getElem_mem hi
  rw [Library.startOf_succ (by simpa using hi), List.getElem_map, WrittenBlock.bytes,
    List.length_append, h.trailer_length _ hmem, h.handle_size _ hmem, h.getElem_offset hi,
    Nat.add_assoc]

theorem Layout.isChain (h : r.Layout first) :
    (r.history.blocks.map WrittenBlock.handle).IsChain BlockHandle.Precedes := by
  rw [List.isChain_iff_getElem]
  intro i hi
  have hi' : i + 1 < r.history.blocks.length := by simpa using hi
  rw [List.getElem_map, List.getElem_map, BlockHandle.Precedes, h.getElem_offset hi',
    h.startOf_succ (Nat.lt_of_succ_lt hi')]

theorem Layout.pairwise (h : r.Layout first) :
    (r.history.blocks.map WrittenBlock.handle).Pairwise BlockHandle.Before := by
  rw [List.pairwise_iff_getElem]
  intro i j hi hj hij
  have hi' : i < r.history.blocks.length := by simpa using hi
  have hj' : j < r.history.blocks.length := by simpa using hj
  have hmono : startOf (r.history.blocks.map WrittenBlock.bytes) (i + 1) ≤
      startOf (r.history.blocks.map WrittenBlock.bytes) j := startOf_mono hij
  rw [List.getElem_map, List.getElem_map, BlockHandle.Before, h.getElem_offset hj']
  rw [h.startOf_succ hi'] at hmono
  omega

theorem layout_new {file : WritableFile δ} {policy : BloomFilterPolicy} {unset : Unset}
    (h : new file policy unset = .ok r) : r.Layout unset.dataBlock ∧ r.FilterInStep := by
  obtain ⟨filterBlock, hstart, h⟩ := bind_eq_ok.mp h
  cases h
  refine ⟨⟨rfl, rfl, ?_, .start, ?_, ?_, rfl, ?_⟩, (FilterBlockBuilder.length_startBlock hstart).2⟩
  · intro i b hb
    cases hb
  all_goals
    intro b hb
    cases hb

theorem run_layout {r₀ : TableBuilder δ} {calls : List (Ambient × Call)}
    (h₀ : r₀.Layout first ∧ r₀.FilterInStep) (hrun : runAll (step writeToFile) r₀ calls = .ok r) :
    r.Layout first ∧ r.FilterInStep := by
  refine run_inv (P := fun _ r => r.Layout first ∧ r.FilterInStep) ?_ ?_ ?_ h₀ hrun
  · rintro adds r m handle ⟨h, hfilter⟩ - -
    exact ⟨h.emitted handle, hfilter⟩
  · -- storing a pair keeps the offsets of the filter block
    rintro adds r m key value ⟨h, hfilter⟩ -
    exact ⟨h.store key value, hfilter⟩
  · rintro adds r m contents finished file filterBlock ⟨h, hfilter⟩ - hfinish hstart
    exact ⟨h.flushed hfilter hfinish hstart, (FilterBlockBuilder.length_startBlock hstart).2⟩

/-- **Layout of the file**: after every completed run of a new builder. The handle recorded for a
block is the one that `WriteBlock` stored in `pending_handle`. -/
theorem layout_of_run {file : WritableFile δ} {policy : BloomFilterPolicy} {unset : Unset}
    {r₀ : TableBuilder δ} {calls : List (Ambient × Call)}
    (hnew : new file policy unset = .ok r₀)
    (hrun : runAll (step writeToFile) r₀ calls = .ok r) :
    r.Layout unset.dataBlock ∧
      (r.history.blocks.map WrittenBlock.handle).IsChain BlockHandle.Precedes ∧
      (r.history.blocks.map WrittenBlock.handle).Pairwise BlockHandle.Before := by
  have h : r.Layout unset.dataBlock := (run_layout (layout_new hnew) hrun).1
  exact ⟨h, h.isChain, h.pairwise⟩

theorem layout_twoBlocks : ∃ r, runAll (step WritableFile.writeAll) zeroed twoBlocks = .ok r ∧
    r.Layout BlockBuilder.reset ∧
      (r.history.blocks.map WrittenBlock.handle).IsChain BlockHandle.Precedes ∧
      (r.history.blocks.map WrittenBlock.handle).Pairwise BlockHandle.Before := by
  obtain ⟨r, hrun⟩ :=
    exists_of_isOk (x := runAll (step WritableFile.writeAll) zeroed twoBlocks) (by decide +kernel)
  exact ⟨r, hrun, layout_of_run new_zeroed hrun⟩

end TableBuilder

end TinyLeveldb
