import TinyLeveldb.Library.Segments
import TinyLeveldb.Table.Builder

/-!
# The index covers the written blocks

`Add` indexes a written block one call later, from the one slot `last_key`, `pending_handle`.
After every completed run of `Add`s and `Flush`es the pairs given to the index block, with the
pending one, are one pair per written block, in order, and the pairs added are split over the
written blocks and the current one without loss (`coverage_of_run`). No result of the file's
operations matters. For sorted keys the index keys then separate the blocks.
-/

namespace TinyLeveldb

open Library

namespace WrittenBlock

/-- The keys of the `Add`s that went into the block. -/
def keys (b : WrittenBlock) : List Bytes := b.adds.map fun a => a.1.data

/-- The key of the last `Add` that went into the block. -/
def indexKey (b : WrittenBlock) : Bytes := b.keys.getLastD []

end WrittenBlock

namespace TableBuilder

variable {δ : Type} {writeToFile : δ → Bytes → Except Fault (Status × δ)}
  {m : Ambient} {r : TableBuilder δ} {index : BlockBuilder} {adds : List (Slice × Slice)}

/-- The entries the index block gets for the pairs. -/
def indexEntriesOf (pairs : List (Bytes × BlockHandle)) : List (Bytes × Bytes) :=
  pairs.map fun p => (p.1, p.2.encodeTo [])

/-- The pair the next `Add` will give to the index block. -/
def pendingPair (r : TableBuilder δ) : List (Bytes × BlockHandle) :=
  if r.pendingIndexEntry then r.pendingHandle.toList.map fun handle => (r.lastKey, handle) else []

/-- The pairs given to the index block, and the pending one. -/
def indexPairs (r : TableBuilder δ) : List (Bytes × BlockHandle) :=
  r.history.indexed ++ r.pendingPair

/-- The builder has indexed, or is about to index, every block it wrote, and has kept every pair
of `adds`. `index` is the index block before the run. -/
structure Coverage (index : BlockBuilder) (r : TableBuilder δ) (adds : List (Slice × Slice)) :
    Prop where
  /-- The invariant stated in `Rep`. -/
  empty_of_pending : r.pendingIndexEntry = true → r.dataBlock.empty = true
  indexPairs_eq : r.indexPairs = r.history.blocks.map fun b => (b.indexKey, b.handle)
  nonempty : ∀ b ∈ r.history.blocks, b.adds ≠ []
  adds_eq : adds = r.history.blocks.flatMap WrittenBlock.adds ++ r.history.current
  /-- The contents of a block are its `Add`s, from an empty builder on. -/
  contents_eq : ∀ b ∈ r.history.blocks, ∃ (d₀ d : BlockBuilder) (stack : ℕ → Bytes),
    d₀.empty = true ∧ BlockBuilder.Built d₀ (entriesOf b.adds) d ∧
      b.contents = (d.finishBuffer stack).buffer
  /-- The current data block is the other `Add`s, from an empty builder on. -/
  dataBlock_eq : ∃ d₀ : BlockBuilder, d₀.empty = true ∧
    BlockBuilder.Built d₀ (entriesOf r.history.current) r.dataBlock
  indexBlock_eq : BlockBuilder.Built index (indexEntriesOf r.history.indexed) r.indexBlock

/-- The index keys are strictly increasing, and every key of a block is above the index keys of
the blocks before it and at most its own. -/
structure Separated (r : TableBuilder δ) : Prop where
  increasing : (r.indexPairs.map Prod.fst).Pairwise (· < ·)
  le_own : ∀ (i : ℕ) (hi : i < r.history.blocks.length), ∀ key ∈ r.history.blocks[i].keys,
    key ≤ (r.indexPairs.map Prod.fst).getD i []
  previous_lt : ∀ (i j : ℕ) (hj : j < r.history.blocks.length), i < j →
    ∀ key ∈ r.history.blocks[j].keys, (r.indexPairs.map Prod.fst).getD i [] < key

/-! ### What the run preserves -/

/-- `last_key` is the key of the last `Add`: the last of the current data block, if it has any.
A pending pair has its handle and nothing was added after it. -/
structure SlotInvariant (r : TableBuilder δ) : Prop where
  current_eq_nil : r.pendingIndexEntry = true → r.history.current = []
  lastKey_eq : r.history.current ≠ [] →
    r.lastKey = (r.history.current.map fun a => a.1.data).getLastD []

theorem Coverage.emitted (h : r.Coverage index adds) (hs : r.SlotInvariant) {handle : BlockHandle}
    (hpending : r.pendingIndexEntry = true) (hhandle : r.pendingHandle = some handle) :
    (r.emitted m handle).Coverage index adds ∧ (r.emitted m handle).SlotInvariant := by
  -- the pending pair moves behind the indexed ones
  have hpairs : (r.emitted m handle).indexPairs = r.indexPairs := by
    simp [indexPairs, pendingPair, TableBuilder.emitted, addIndexEntry, hpending, hhandle]
  refine ⟨{ h with
    empty_of_pending := (by simp [TableBuilder.emitted])
    indexPairs_eq := hpairs.trans h.indexPairs_eq
    indexBlock_eq := ?_ }, ⟨by simp [TableBuilder.emitted], hs.lastKey_eq⟩⟩
  simp only [TableBuilder.emitted, addIndexEntry, indexEntriesOf, List.map_append,
    List.map_singleton]
  exact h.indexBlock_eq.add m.indexStack r.lastKey (handle.encodeTo [])

theorem Coverage.store (h : r.Coverage index adds) {key value : Slice}
    (hpending : r.pendingIndexEntry = false) :
    (r.store m key value).Coverage index (adds ++ [(key, value)]) ∧
      (r.store m key value).SlotInvariant := by
  have hpairs : (r.store m key value).indexPairs = r.indexPairs := by
    simp [indexPairs, pendingPair, TableBuilder.store, hpending]
  obtain ⟨d₀, hd₀, hbuilt⟩ := h.dataBlock_eq
  refine ⟨{ h with
    empty_of_pending := fun htrue => absurd (hpending.symm.trans htrue) (by decide)
    indexPairs_eq := hpairs.trans h.indexPairs_eq
    adds_eq := ?_
    dataBlock_eq := ⟨d₀, hd₀, ?_⟩ }, ⟨?_, fun _ => ?_⟩⟩
  · rw [h.adds_eq, List.append_assoc]
    rfl
  · simp only [TableBuilder.store, entriesOf, List.map_append, List.map_singleton]
    exact hbuilt.add m.dataStack key.cString value.cString
  · exact fun htrue => absurd (hpending.symm.trans htrue) (by decide)
  · rw [lastKey_store]
    simp [TableBuilder.store]

theorem Coverage.flushed (h : r.Coverage index adds) (hs : r.SlotInvariant) {contents : Slice}
    {finished : BlockBuilder} {file : WritableFile δ} {filterBlock : FilterBlockBuilder}
    (hempty : r.dataBlock.empty = false)
    (hfinish : r.dataBlock.finish m.finishStack = .ok (contents, finished)) :
    (r.flushed m contents file filterBlock).Coverage index adds ∧
      (r.flushed m contents file filterBlock).SlotInvariant := by
  obtain ⟨d₀, hd₀, hbuilt⟩ := h.dataBlock_eq
  have hcurrent : r.history.current ≠ [] := by
    simpa [entriesOf] using hbuilt.ne_nil hd₀ hempty
  -- the slot was free: a pending pair would mean an empty data block
  have hpending : r.pendingIndexEntry = false := by
    by_contra hp
    have := h.empty_of_pending (by simpa using hp)
    rw [hempty] at this
    cases this
  have hindexed : r.history.indexed = r.history.blocks.map fun b => (b.indexKey, b.handle) := by
    have := h.indexPairs_eq
    rwa [indexPairs, pendingPair, if_neg (by simp [hpending]), List.append_nil] at this
  refine ⟨{
    empty_of_pending := fun _ => BlockBuilder.empty_reset
    indexPairs_eq := ?_
    nonempty := ?_
    adds_eq := ?_
    contents_eq := ?_
    dataBlock_eq := ⟨BlockBuilder.reset, BlockBuilder.empty_reset, .start⟩
    indexBlock_eq := h.indexBlock_eq }, ⟨fun _ => rfl, fun hne => absurd rfl hne⟩⟩
  · simp only [indexPairs, pendingPair, TableBuilder.flushed, if_true, Option.toList_some,
      List.map_singleton, List.map_append, hindexed, hs.lastKey_eq hcurrent,
      WrittenBlock.indexKey, WrittenBlock.keys]
  · intro b hb
    rcases List.mem_append.mp hb with hb | hb
    · exact h.nonempty b hb
    · obtain rfl := List.mem_singleton.mp hb
      exact hcurrent
  · rw [h.adds_eq]
    simp [TableBuilder.flushed]
  · intro b hb
    rcases List.mem_append.mp hb with hb | hb
    · exact h.contents_eq b hb
    · obtain rfl := List.mem_singleton.mp hb
      exact ⟨d₀, r.dataBlock, m.finishStack, hd₀, hbuilt, (BlockBuilder.finish_eq_ok hfinish).1⟩

/-- A block is pending only after something was added. -/
theorem Coverage.ne_nil (h : r.Coverage index adds) {handle : BlockHandle}
    (hpending : r.pendingIndexEntry = true) (hhandle : r.pendingHandle = some handle) :
    adds ≠ [] := by
  have hpairs : r.indexPairs ≠ [] := by
    simp [indexPairs, pendingPair, hpending, hhandle]
  rw [h.indexPairs_eq] at hpairs
  obtain ⟨b, blocks, hblocks⟩ :=
    List.exists_cons_of_ne_nil fun hnil => hpairs (List.map_eq_nil_iff.mpr hnil)
  have hb := h.nonempty b (by simp [hblocks])
  rw [h.adds_eq, hblocks, List.flatMap_cons]
  simp [hb]

/-- Sorted pairs are separated by the index keys. -/
theorem Coverage.separated (h : r.Coverage index adds)
    (hsorted : (adds.map fun a => a.1.data).Pairwise (· < ·)) : r.Separated := by
  have hkeys : (r.history.blocks.map WrittenBlock.keys).flatten.Pairwise (· < ·) := by
    rw [h.adds_eq, List.map_append] at hsorted
    have := (List.pairwise_append.mp hsorted).1
    rwa [List.map_flatMap, List.flatMap_def] at this
  have hne : ∀ keys ∈ r.history.blocks.map WrittenBlock.keys, keys ≠ [] := by
    intro keys hmem
    obtain ⟨b, hb, rfl⟩ := List.mem_map.mp hmem
    simpa [WrittenBlock.keys] using h.nonempty b hb
  have hindexKeys : r.indexPairs.map Prod.fst =
      (r.history.blocks.map WrittenBlock.keys).map (·.getLastD []) := by
    rw [h.indexPairs_eq, List.map_map, List.map_map]
    rfl
  have hgetD : ∀ i (hi : i < r.history.blocks.length),
      (r.indexPairs.map Prod.fst).getD i [] = r.history.blocks[i].indexKey := by
    intro i hi
    rw [h.indexPairs_eq, List.map_map, List.getD_eq_getElem _ _ (by simpa using hi),
      List.getElem_map]
    rfl
  refine ⟨?_, ?_, ?_⟩
  · rw [hindexKeys]
    exact pairwise_getLastD hkeys hne
  · intro i hi key hkey
    rw [hgetD i hi]
    exact le_getLastD hkeys (List.mem_map_of_mem (List.getElem_mem hi)) hkey
  · intro i j hj hij key hkey
    have hi : i < r.history.blocks.length := Nat.lt_trans hij hj
    have hlt := getLastD_lt (d := []) hkeys hne hij (by simpa using hj)
      (by rw [List.getElem_map]; exact hkey)
    rw [List.getElem_map] at hlt
    rw [hgetD i hi]
    exact hlt

theorem coverage_start (hpending : r.pendingIndexEntry = false)
    (hempty : r.dataBlock.empty = true) (hhistory : r.history = {}) :
    r.Coverage r.indexBlock [] ∧ r.SlotInvariant := by
  refine ⟨{
    empty_of_pending := fun _ => hempty
    indexPairs_eq := ?_
    nonempty := ?_
    adds_eq := ?_
    contents_eq := ?_
    dataBlock_eq := ?_
    indexBlock_eq := ?_ }, ⟨?_, ?_⟩⟩
  · simp [indexPairs, pendingPair, hpending, hhistory]
  · simp [hhistory]
  · simp [hhistory]
  · simp [hhistory]
  · rw [hhistory]
    exact ⟨r.dataBlock, hempty, .start⟩
  · rw [hhistory]
    exact .start
  · simp [hhistory]
  · simp [hhistory]

theorem run_coverage {r₀ : TableBuilder δ} {calls : List (Ambient × Call)}
    (h₀ : r₀.Coverage index [] ∧ r₀.SlotInvariant)
    (hrun : runAll (step writeToFile) r₀ calls = .ok r) :
    r.Coverage index (addsOf calls) ∧ r.SlotInvariant := by
  refine run_inv (P := fun adds r => r.Coverage index adds ∧ r.SlotInvariant) ?_ ?_ ?_ h₀ hrun
  · rintro adds r m handle ⟨h, hs⟩ hpending hhandle
    exact h.emitted hs hpending hhandle
  · rintro adds r m key value ⟨h, -⟩ hpending
    exact h.store hpending
  · rintro adds r m contents finished file filterBlock ⟨h, hs⟩ hempty hfinish -
    exact h.flushed hs hempty hfinish

/-- **Index coverage.** A builder with no pending block and an empty data block covers every
sequence of calls that completes, whatever `WriteToFile` answers; sorted pairs are separated by the
index. A run that reaches a block of `2 ^ 31` bytes does not complete: its `Append` would copy a
negative number of bytes. -/
theorem coverage_of_run {r₀ : TableBuilder δ} {calls : List (Ambient × Call)}
    (hpending : r₀.pendingIndexEntry = false) (hempty : r₀.dataBlock.empty = true)
    (hhistory : r₀.history = {}) (hrun : runAll (step writeToFile) r₀ calls = .ok r) :
    r.Coverage r₀.indexBlock (addsOf calls) ∧
      (((addsOf calls).map fun a => a.1.data).Pairwise (· < ·) → r.Separated) := by
  have h := (run_coverage (coverage_start hpending hempty hhistory) hrun).1
  exact ⟨h, h.separated⟩

/-- Two blocks, with a `WriteToFile` that always fails. -/
theorem coverage_twoBlocks :
    ∃ r, runAll (step fun fd _ => .ok (.ioError, fd)) zeroed twoBlocks = .ok r ∧
      r.Coverage zeroed.indexBlock (addsOf twoBlocks) ∧
        (((addsOf twoBlocks).map fun a => a.1.data).Pairwise (· < ·) → r.Separated) := by
  obtain ⟨r, hrun⟩ :=
    exists_of_isOk (x := runAll (step fun fd _ => .ok (.ioError, fd)) zeroed twoBlocks)
      (by decide +kernel)
  exact ⟨r, hrun, coverage_of_run rfl rfl rfl hrun⟩

end TableBuilder

end TinyLeveldb
