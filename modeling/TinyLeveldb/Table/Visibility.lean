import Mathlib.Data.List.Flatten
import TinyLeveldb.Env.Stream
import TinyLeveldb.Filter.Exactness
import TinyLeveldb.Table.Layout

/-!
# The keys of a table are visible through its filter

`Add` gives a key to the filter block before the data block of the key has a handle, and `Flush`
has moved `offset` behind the block when it calls `StartBlock`. The two agree all the same:
`filterCalls` lists a `StartBlock` at the offset of every written block, and one at the current
offset, each with the keys that were added to that block, and after every run of `Add`s and
`Flush`es the filter block is what these calls make of it (`Filtered`). Their offsets are those
of the layout, so they do not decrease, and the answers are those of an exact filter block.
-/

namespace TinyLeveldb

open Library FilterBlockBuilder

/-- The bytes of the filters made so far and of their offsets. -/
def FilterBlockBuilder.dataLength (b : FilterBlockBuilder) : ℕ :=
  b.result.length + 4 * b.filterOffsets.length

namespace TableBuilder

variable {δ : Type} {writeToFile : δ → Bytes → Except Fault (Status × δ)} {m : Ambient}
  {policy : BloomFilterPolicy} {adds : List (Slice × Slice)} {r : TableBuilder δ}

/-- The calls the filter block of the builder got. -/
def filterCalls (r : TableBuilder δ) : List BlockCalls :=
  r.history.blocks.map (fun b => (b.handle.offset, b.adds.map Prod.fst)) ++
    [(r.offset, r.history.current.map Prod.fst)]

/-- What a reader over the finished filter block answers about the keys of `adds`: `true` for
every key of a written block, at the offset of the block. -/
structure Visible (policy : BloomFilterPolicy) (adds : List (Slice × Slice)) (r : TableBuilder δ) :
    Prop where
  adds_eq : adds = r.history.blocks.flatMap WrittenBlock.adds ++ r.history.current
  mayMatch : ∃ b, r.filterBlock.finishResult = .ok b ∧
    (b.result.length < 2 ^ 31 → ∃ contents, r.filterBlock.finish = .ok (contents, b) ∧
      ∀ block ∈ r.history.blocks, ∀ a ∈ block.adds,
        (FilterBlockReader.new policy contents).keyMayMatch block.handle.offset a.1 = true)

/-! ### The filter block follows the file -/

/-- The filter block is what its calls make of a new one, and no pair is lost. -/
structure Filtered (policy : BloomFilterPolicy) (adds : List (Slice × Slice)) (r : TableBuilder δ) :
    Prop where
  layout : ∃ first, r.Layout first
  inStep : r.FilterInStep
  filterBlock_eq : runAll addBlock { policy } r.filterCalls = .ok r.filterBlock
  adds_eq : adds = r.history.blocks.flatMap WrittenBlock.adds ++ r.history.current

theorem Filtered.emitted (h : r.Filtered policy adds) (handle : BlockHandle) :
    (r.emitted m handle).Filtered policy adds :=
  ⟨h.layout.imp fun _ hl => hl.emitted handle, h.inStep, h.filterBlock_eq, h.adds_eq⟩

/-- A key goes to the calls of the current block. -/
theorem Filtered.store (h : r.Filtered policy adds) (key value : Slice) :
    (r.store m key value).Filtered policy (adds ++ [(key, value)]) := by
  refine ⟨h.layout.imp fun _ hl => hl.store key value, h.inStep, ?_, ?_⟩
  · have hcalls := h.filterBlock_eq
    rw [filterCalls, runAll_concat] at hcalls
    obtain ⟨b, hblocks, hlast⟩ := bind_eq_ok.mp hcalls
    obtain ⟨b₁, hstart, hkeys⟩ := bind_eq_ok.mp hlast
    have hkeys : (r.history.current.map Prod.fst).foldl addKey b₁ = r.filterBlock := by
      simpa using hkeys
    rw [filterCalls, runAll_concat]
    simp only [TableBuilder.store, hblocks, ok_bind, addBlock, hstart, List.map_append,
      List.foldl_append, hkeys, List.map_singleton, List.foldl_cons, List.foldl_nil]
    rfl
  · rw [h.adds_eq, List.append_assoc]
    rfl

/-- Writing the data block gives the calls of the current block the offset of the written one,
and starts a block behind it. -/
theorem Filtered.flushed (h : r.Filtered policy adds) {contents : Slice} {finished : BlockBuilder}
    {file : WritableFile δ} {filterBlock : FilterBlockBuilder}
    (hfinish : r.dataBlock.finish m.finishStack = .ok (contents, finished))
    (hstart : r.filterBlock.startBlock
      (r.offset + (UInt64.ofNat contents.size + blockTrailerSize)) = .ok filterBlock) :
    (r.flushed m contents file filterBlock).Filtered policy adds := by
  refine ⟨h.layout.imp fun _ hl => hl.flushed h.inStep hfinish hstart,
    (length_startBlock hstart).2, ?_, ?_⟩
  · have hcalls : (r.flushed m contents file filterBlock).filterCalls =
        r.filterCalls ++ [(r.offset + (UInt64.ofNat contents.size + blockTrailerSize), [])] := by
      simp [filterCalls, TableBuilder.flushed]
    rw [hcalls, runAll_concat, h.filterBlock_eq, ok_bind, addBlock, hstart]
    rfl
  · rw [h.adds_eq]
    simp [TableBuilder.flushed]

/-- A new builder has called `StartBlock(0)`. -/
theorem exists_new (file : WritableFile δ) (policy : BloomFilterPolicy) (unset : Unset) :
    ∃ r₀, new file policy unset = .ok r₀ ∧ r₀.Filtered policy [] := by
  obtain ⟨r₀, hnew⟩ : ∃ r₀, new file policy unset = .ok r₀ := ⟨_, rfl⟩
  obtain ⟨hlayout, hinStep⟩ := layout_new hnew
  refine ⟨r₀, hnew, ⟨_, hlayout⟩, hinStep, ?_, ?_⟩
  · cases hnew
    have hstart : ({ policy } : FilterBlockBuilder).startBlock 0 = .ok { policy } := rfl
    simp [filterCalls, runAll_cons, addBlock, hstart]
  · cases hnew
    rfl

/-- **Run lemma.** The filter block follows the file through every completed run. -/
theorem run_filtered {r₀ : TableBuilder δ} {calls : List (Ambient × Call)}
    (h₀ : r₀.Filtered policy []) (hrun : runAll (step writeToFile) r₀ calls = .ok r) :
    r.Filtered policy (addsOf calls) := by
  refine run_inv (P := Filtered policy) ?_ ?_ ?_ h₀ hrun
  · intro adds r m handle h _ _
    exact h.emitted handle
  · intro adds r m key value h _
    exact h.store key value
  · intro adds r m contents finished file filterBlock h _ hfinish hstart
    exact h.flushed hfinish hstart

/-- The offsets of the calls do not decrease. -/
theorem Filtered.sorted (h : r.Filtered policy adds) :
    r.filterCalls.Pairwise fun x y => x.1 ≤ y.1 := by
  obtain ⟨first, hlayout⟩ := h.layout
  have hhandles := hlayout.pairwise
  rw [List.pairwise_map] at hhandles
  refine List.pairwise_append.mpr ⟨?_, List.pairwise_singleton _ _, ?_⟩
  · rw [List.pairwise_map]
    refine hhandles.imp fun {b b'} hbefore => ?_
    exact UInt64.le_iff_toNat_le.mpr ((Nat.le_add_right _ _).trans hbefore)
  · intro x hx y hy
    obtain ⟨b, hb, rfl⟩ := List.mem_map.mp hx
    obtain rfl := List.mem_singleton.mp hy
    -- a handle lies in the file, and the current offset is the length of the file
    obtain ⟨i, hi, rfl⟩ := List.mem_iff_getElem.mp hb
    rw [UInt64.le_iff_toNat_le, hlayout.offset_eq, hlayout.appended_eq,
      hlayout.getElem_offset hi]
    exact startOf_le (by simpa using hi.le)

/-- The filter block has reached a bucket that is not behind the current offset. -/
theorem Filtered.exists_at (h : r.Filtered policy adds) :
    ∃ c, At r.filterBlock policy r.filterCalls c ∧ c ≤ bucket r.offset := by
  obtain ⟨b, hrun, c, hat, hc⟩ := runAll_addBlock policy h.sorted
  obtain rfl : r.filterBlock = b := by simpa using h.filterBlock_eq.symm.trans hrun
  refine ⟨c, hat, ?_⟩
  rcases hc with rfl | ⟨block, hblock, rfl⟩
  · exact Nat.zero_le _
  · rw [filterCalls] at hblock
    rcases List.mem_append.mp hblock with hmem | hmem
    · exact bucket_mono
        ((List.pairwise_append.mp h.sorted).2.2 _ hmem _ (List.mem_singleton_self _))
    · rw [List.mem_singleton.mp hmem]

/-- Every key of a written block matches, unless a bucket has too many keys. -/
theorem Filtered.visible (h : r.Filtered policy adds)
    (hkeys : ∀ i, (bucketKeys r.filterCalls i).length < 2 ^ 31) : r.Visible policy adds := by
  obtain ⟨c, hat, -⟩ := h.exists_at
  obtain ⟨b, hfinish, hexact⟩ := hat.exact hkeys
  refine ⟨h.adds_eq, b, hfinish, fun hsize => ?_⟩
  obtain ⟨contents, hcontents, -, hmatch⟩ := hexact hsize
  refine ⟨contents, hcontents, fun block hblock a ha => ?_⟩
  have hmem : (block.handle.offset, block.adds.map Prod.fst) ∈ r.filterCalls :=
    List.mem_append_left _ (List.mem_map_of_mem hblock)
  exact hmatch _ hmem a.1 (List.mem_map_of_mem ha)

/-! ### The assertion of `StartBlock` -/

/-- With little filter data the offset does not wrap, and `StartBlock` completes behind the next
block. -/
theorem Filtered.startBlock (h : r.Filtered policy adds)
    (hdata : r.filterBlock.dataLength < 2 ^ 31) {size : ℕ} (hsize : size < 2 ^ 31) :
    ∃ filterBlock, r.filterBlock.startBlock
      (r.offset + (UInt64.ofNat size + blockTrailerSize)) = .ok filterBlock := by
  obtain ⟨c, hat, hc⟩ := h.exists_at
  have hinStep := h.inStep
  rw [FilterInStep] at hinStep
  rw [dataLength, hinStep] at hdata
  have htrailer : blockTrailerSize.toNat = 4 := rfl
  have hle : r.offset ≤ r.offset + (UInt64.ofNat size + blockTrailerSize) := by
    rw [UInt64.le_iff_toNat_le, UInt64.toNat_add, UInt64.toNat_add, UInt64.toNat_ofNat', htrailer]
    omega
  obtain ⟨filterBlock, hstart, -⟩ := hat.startBlock (hc.trans (bucket_mono hle))
  exact ⟨filterBlock, hstart⟩

section AssertFailed

theorem deref_ne_assertFailed {α : Type} (p : Pointer α) : deref p ≠ .error .assertFailed := by
  rcases p with _ | a <;> simp [deref]

theorem memcpy_ne_assertFailed (buffer : Bytes) (offset : ℤ) (src : Bytes) :
    memcpy buffer offset src ≠ .error .assertFailed := by
  rw [memcpy]
  split <;> simp

theorem finish_ne_assertFailed (stack : ℕ → Bytes) (b : BlockBuilder) :
    b.finish stack ≠ .error .assertFailed := by
  refine bind_ne_error ?_ (by simp)
  rw [Slice.ofString]
  split <;> simp

variable (hwrite : ∀ fd data, writeToFile fd data ≠ .error .assertFailed)
include hwrite

theorem flushBuffer_ne_assertFailed (f : WritableFile δ) :
    f.flushBuffer writeToFile ≠ .error .assertFailed := by
  rw [WritableFile.flushBuffer]
  split
  · split
    · exact bind_ne_error (hwrite _ _) (by simp)
    · simp
  · simp

theorem append_ne_assertFailed (f : WritableFile δ) (data : Slice) :
    f.append writeToFile data ≠ .error .assertFailed := by
  rw [WritableFile.append]
  split
  · exact bind_ne_error (memcpy_ne_assertFailed _ _ _) (by simp)
  · refine bind_ne_error (flushBuffer_ne_assertFailed hwrite f) fun a _ => ?_
    simp only
    split
    · exact bind_ne_error (hwrite _ _) (by simp)
    · exact bind_ne_error (memcpy_ne_assertFailed _ _ _) (by simp)

/-- `WriteBlock` itself has no assertion. -/
theorem writeBlock_ne_assertFailed (r : TableBuilder δ) (block : BlockRef)
    (handle : Pointer BlockHandle) :
    r.writeBlock writeToFile m block handle ≠ .error .assertFailed := by
  refine bind_ne_error (finish_ne_assertFailed _ _) fun a _ => ?_
  refine bind_ne_error (bind_ne_error (append_ne_assertFailed hwrite _ _) (by simp)) fun b _ => ?_
  refine bind_ne_error (deref_ne_assertFailed _) fun _ _ => ?_
  refine bind_ne_error (bind_ne_error (append_ne_assertFailed hwrite _ _) (by simp)) fun c _ => ?_
  simp only
  split <;> simp

theorem Filtered.flush_ne_assertFailed (h : r.Filtered policy adds)
    (hdata : r.filterBlock.dataLength < 2 ^ 31) :
    r.flush writeToFile m ≠ .error .assertFailed := by
  rw [flush, flushVia]
  split
  · simp
  · refine bind_ne_error (writeBlock_ne_assertFailed hwrite _ _ _) fun a ha => ?_
    obtain ⟨s, handle, r₁⟩ := a
    refine bind_ne_error (flushBuffer_ne_assertFailed hwrite _) fun b _ => ?_
    obtain ⟨-, contents, finished, file, -, -, -, rfl⟩ := writeBlock_eq_ok ha
    obtain ⟨filterBlock, hstart⟩ := h.startBlock hdata contents.size_lt
    exact bind_ne_error (fun herror => by cases hstart.symm.trans herror) (by simp)

/-- **Step lemma.** With little filter data no call of `Add` or `Flush` fails the assertion. -/
theorem Filtered.step_ne_assertFailed (h : r.Filtered policy adds)
    (hdata : r.filterBlock.dataLength < 2 ^ 31) (c : Ambient × Call) :
    step writeToFile r c ≠ .error .assertFailed := by
  obtain ⟨m, ⟨key, value⟩ | _⟩ := c
  · refine bind_ne_error (bind_ne_error ?_ fun r₁ hr₁ => ?_) (by simp)
    · rw [emitPending]
      split
      · exact bind_ne_error (deref_ne_assertFailed _) (by simp)
      · simp
    · have h₁ : r₁.Filtered policy adds ∧ r₁.filterBlock = r.filterBlock := by
        rcases emitPending_eq_ok hr₁ with ⟨-, rfl⟩ | ⟨handle, -, -, rfl⟩
        · exact ⟨h, rfl⟩
        · exact ⟨h.emitted handle, rfl⟩
      simp only
      split
      · refine (h₁.1.store key value).flush_ne_assertFailed hwrite ?_
        -- a key adds nothing to the filters made so far
        rw [← h₁.2] at hdata
        exact hdata
      · simp
  · exact bind_ne_error (h.flush_ne_assertFailed hwrite hdata) (by simp)

end AssertFailed

/-- A bucket has no more keys than were added. -/
theorem Filtered.length_bucketKeys_le (h : r.Filtered policy adds) (i : ℕ) :
    (bucketKeys r.filterCalls i).length ≤ adds.length := by
  have hall : r.filterCalls.flatMap Prod.snd = adds.map Prod.fst := by
    rw [h.adds_eq, filterCalls, List.flatMap_append, List.map_append, List.map_flatMap,
      List.flatMap_map]
    simp
  calc (bucketKeys r.filterCalls i).length
      ≤ (r.filterCalls.flatMap Prod.snd).length :=
        (List.filter_sublist.flatMap Prod.snd).length_le
    _ = adds.length := by rw [hall, List.length_map]

/-- **Keys stay visible.** On a new builder no call of `Add` or `Flush` fails the assertion of
`StartBlock` while there are fewer than `2 ^ 31` bytes of filter data; and after every completed
run the keys of the written blocks match, if no bucket got `2 ^ 31` keys. -/
theorem visible_of_run (hwrite : ∀ fd data, writeToFile fd data ≠ .error .assertFailed)
    (file : WritableFile δ) (policy : BloomFilterPolicy) (unset : Unset) :
    ∃ r₀, new file policy unset = .ok r₀ ∧ ∀ calls : List (Ambient × Call),
      AllSteps (fun pre c => ∀ r, runAll (step writeToFile) r₀ pre = .ok r →
        r.filterBlock.dataLength < 2 ^ 31 → step writeToFile r c ≠ .error .assertFailed) calls ∧
      ∀ r, runAll (step writeToFile) r₀ calls = .ok r →
        (∀ i, (bucketKeys r.filterCalls i).length < 2 ^ 31) → r.Visible policy (addsOf calls) := by
  obtain ⟨r₀, hnew, h₀⟩ := exists_new file policy unset
  refine ⟨r₀, hnew, fun calls => ⟨?_, ?_⟩⟩
  · intro pre c post _ r hrun hdata
    exact (run_filtered h₀ hrun).step_ne_assertFailed hwrite hdata c
  · intro r hrun hkeys
    exact (run_filtered h₀ hrun).visible hkeys

/-- Two blocks of one key each. -/
theorem visible_twoBlocks : ∃ r, runAll (step WritableFile.writeAll) zeroed twoBlocks = .ok r ∧
    step WritableFile.writeAll zeroed (.zeroed, .flush) ≠ .error .assertFailed ∧
    r.Visible ⟨10, by decide⟩ (addsOf twoBlocks) := by
  obtain ⟨r, hrun⟩ :=
    exists_of_isOk (x := runAll (step WritableFile.writeAll) zeroed twoBlocks) (by decide +kernel)
  have hwrite : ∀ fd data, WritableFile.writeAll fd data ≠ .error .assertFailed := by
    simp [WritableFile.writeAll]
  obtain ⟨r₀, hnew, hvisible⟩ :=
    visible_of_run hwrite WritableFile.zeroed ⟨10, by decide⟩ Unset.zeroed
  obtain rfl : zeroed = r₀ := by simpa using new_zeroed.symm.trans hnew
  refine ⟨r, hrun, ?_, (hvisible twoBlocks).2 r hrun fun i => ?_⟩
  · exact (hvisible [(.zeroed, .flush)]).1 [] _ [] rfl zeroed rfl (by decide)
  · obtain ⟨r₀, hnew, h₀⟩ := exists_new WritableFile.zeroed ⟨10, by decide⟩ Unset.zeroed
    obtain rfl : zeroed = r₀ := by simpa using new_zeroed.symm.trans hnew
    exact ((run_filtered h₀ hrun).length_bucketKeys_le i).trans_lt (by decide)

/-! ### Too many keys in one block -/

section ManyKeys

open FilterBlockReader

theorem mem_restarts_add {stack : ℕ → Bytes} {b : BlockBuilder} {key value : Bytes} {w : UInt32}
    (h : w ∈ (b.add stack key value).restarts) :
    w ∈ b.restarts ∨ w = UInt32.ofNat b.buffer.length := by
  rw [BlockBuilder.add] at h
  split at h
  · simpa [BlockBuilder.addRestart] using h
  · exact .inl h

/-- Restart offsets of zero leave nothing behind the entries, and the number of restarts at most
four bytes. -/
theorem length_finishBuffer_le {b : BlockBuilder} (h : ∀ w ∈ b.restarts, w = 0) :
    (b.finishBuffer fun _ => []).buffer.length ≤ b.buffer.length + 4 := by
  have hnil : b.restarts.zipIdx.flatMap (fun w => cString (encodeFixed32 w.1)) = [] := by
    refine List.flatMap_eq_nil_iff.mpr fun w hw => ?_
    rw [h w.1 (List.fst_mem_of_mem_zipIdx hw)]
    rfl
  simp only [BlockBuilder.finishBuffer, BlockBuilder.appendRestarts_eq, appendWord, List.append_nil,
    hnil, List.length_append]
  exact Nat.add_le_add_left (List.takeWhile_sublist _).length_le _

/-- A `Flush` of a small block to a file within its bounds completes. -/
theorem Filtered.exists_flush {written : δ → Bytes}
    (hw : WritableFile.Delivers writeToFile written) (h : r.Filtered policy adds)
    (hdata : r.filterBlock.dataLength < 2 ^ 31) (hfile : r.file.Buffered) {handle : BlockHandle}
    (hhandle : r.pendingHandle = some handle)
    (hsize : (r.dataBlock.finishBuffer m.finishStack).buffer.length ≤ 2 ^ 31 - 1 - maxBufferSize) :
    ∃ r', r.flush writeToFile m = .ok (.ok, r') := by
  by_cases hempty : r.dataBlock.empty = true
  · exact ⟨r, flush_of_empty hempty⟩
  rw [maxBufferSize] at hsize
  obtain ⟨contents, hcontents, hof⟩ : ∃ contents : Slice,
      contents.data = (r.dataBlock.finishBuffer m.finishStack).buffer ∧
        Slice.ofString (r.dataBlock.finishBuffer m.finishStack).buffer = .ok contents :=
    ⟨_, rfl, Slice.ofString_of_lt (by omega)⟩
  have hfinish : r.dataBlock.finish m.finishStack =
      .ok (contents, r.dataBlock.finishBuffer m.finishStack) := by
    rw [BlockBuilder.finish, hof, ok_bind]
  have hcontentsSize : contents.size ≤ 2 ^ 31 - 1 - maxBufferSize := by
    rw [Slice.size, hcontents, maxBufferSize]
    exact hsize
  have htrailerSize : (trailer m contents.data).size ≤ 2 ^ 31 - 1 - maxBufferSize := by
    rw [Slice.size, length_trailer]
    decide
  obtain ⟨file₁, hfile₁, hbuffered₁⟩ := hfile.append hw hcontentsSize
  obtain ⟨file₂, hfile₂, hbuffered₂⟩ := hbuffered₁.append hw htrailerSize
  obtain ⟨s, file₃, hfile₃, -⟩ := hbuffered₂.flushBuffer hw
  obtain ⟨filterBlock, hstart⟩ : ∃ filterBlock, r.filterBlock.startBlock
      (r.offset + (UInt64.ofNat contents.size + blockTrailerSize)) = .ok filterBlock :=
    h.startBlock hdata contents.size_lt
  have hwrite : r.writeBlock writeToFile m .dataBlock r.pendingHandle =
      .ok (.ok, { offset := r.offset, size := UInt64.ofNat contents.size },
        { r with
          file := file₂
          history :=
            { r.history with
              appended := r.history.appended ++ contents.data ++ (trailer m contents.data).data }
        }.blockWritten contents (trailer m contents.data)
          { offset := r.offset, size := UInt64.ofNat contents.size }) := by
    simp only [writeBlock, writeBlockVia, block, setBlock, hfinish, ok_bind, appendVia,
      FileOps.ofWriteToFile, hfile₁, hhandle, deref, hfile₂, ne_eq, not_true_eq_false, if_false]
    rfl
  rw [writeBlock] at hwrite
  rw [flush, flushVia, if_neg hempty, hwrite, ok_bind]
  simp only [FileOps.ofWriteToFile, blockWritten, hfile₃, hstart, ok_bind]
  exact ⟨_, rfl⟩

/-- The builder has added `n` pairs of no bytes. -/
structure Quiet (n : ℕ) (r : TableBuilder Bytes) : Prop where
  file_eq : r.file = WritableFile.zeroed
  offset_eq : r.offset = 0
  pending_eq : r.pendingIndexEntry = false
  handle_eq : r.pendingHandle = some { offset := 0, size := 0 }
  blocks_eq : r.history.blocks = []
  current_eq : r.history.current = List.replicate n (nullSlice, nullSlice)
  buffer_eq : r.dataBlock.buffer = []
  lastKey_eq : r.dataBlock.lastKey = []
  restarts_eq : ∀ w ∈ r.dataBlock.restarts, w = 0

/-- `Add` on a quiet builder stores the pair and may call `Flush`. -/
theorem Quiet.add {n : ℕ} {r : TableBuilder Bytes} (h : Quiet n r) (key value : Slice) :
    r.add WritableFile.writeAll .zeroed key value =
      if (r.store .zeroed key value).dataBlock.currentSizeEstimate ≥ 1000 then
        (r.store .zeroed key value).flush WritableFile.writeAll .zeroed
      else .ok (.ok, r.store .zeroed key value) := by
  rw [TableBuilder.add, addVia, emitPending, h.pending_eq]
  rfl

/-- A pair of no bytes leaves the data block empty, so the `Flush` of a block that has grown to
1000 bytes by its restarts does nothing. -/
theorem Quiet.step {n : ℕ} {r : TableBuilder Bytes} (h : Quiet n r) :
    ∃ r', step WritableFile.writeAll r (.zeroed, .add nullSlice nullSlice) = .ok r' ∧
      Quiet (n + 1) r' := by
  have hbuffer : (r.store .zeroed nullSlice nullSlice).dataBlock.buffer = [] := by
    have hadd := BlockBuilder.buffer_add_of_lastKey_nil Ambient.zeroed.dataStack h.lastKey_eq
      nullSlice.cString nullSlice.cString
    rw [h.buffer_eq] at hadd
    exact hadd
  have hempty : (r.store .zeroed nullSlice nullSlice).dataBlock.empty = true := by
    rw [BlockBuilder.empty, hbuffer]
    rfl
  refine ⟨r.store .zeroed nullSlice nullSlice, ?_, ?_⟩
  · simp only [TableBuilder.step, h.add, flush_of_empty hempty, ite_self, ok_bind]
  · refine { h with current_eq := ?_, buffer_eq := hbuffer, lastKey_eq := rfl, restarts_eq := ?_ }
    · rw [List.replicate_succ', ← h.current_eq]
      rfl
    · intro w hw
      rcases mem_restarts_add hw with hw | rfl
      · exact h.restarts_eq w hw
      · rw [h.buffer_eq]
        rfl

theorem exists_quiet {r₀ : TableBuilder Bytes} (h₀ : Quiet 0 r₀) (n : ℕ) :
    ∃ r, runAll (TableBuilder.step WritableFile.writeAll) r₀
      (List.replicate n (.zeroed, .add nullSlice nullSlice)) = .ok r ∧ Quiet n r := by
  induction n with
  | zero => exact ⟨r₀, rfl, h₀⟩
  | succ n ih =>
    obtain ⟨r, hrun, hr⟩ := ih
    obtain ⟨r', hstep, hr'⟩ := hr.step
    exact ⟨r', by rw [List.replicate_succ', runAll_concat, hrun, ok_bind, hstep], hr'⟩

/-- A `Flush` behind a `Flush` does nothing. -/
theorem flush_flush {r' : TableBuilder δ} {m' : Ambient} {s : Status}
    (h : r.flush writeToFile m = .ok (s, r')) : r'.flush writeToFile m' = .ok (.ok, r') := by
  rcases flush_eq_ok h with ⟨hempty, rfl⟩ | ⟨contents, finished, file, filterBlock, -, -, -, rfl⟩
  · exact flush_of_empty hempty
  · exact flush_of_empty BlockBuilder.empty_reset

/-- With no filter made yet there is no filter data. -/
theorem Filtered.dataLength_eq_zero (h : r.Filtered policy adds) (hoffset : r.offset = 0) :
    r.filterBlock.dataLength = 0 := by
  obtain ⟨c, hat, hc⟩ := h.exists_at
  have hzero : bucket 0 = 0 := rfl
  rw [hoffset, hzero] at hc
  obtain rfl : c = 0 := Nat.le_zero.mp hc
  rw [dataLength, hat.length_filterOffsets, hat.holds.result]
  rfl

/-- A pair of two letters makes the block of a quiet builder one that is written, all its pairs
under the handle at offset zero. -/
theorem Quiet.lastPair {n : ℕ} {r : TableBuilder Bytes} (h : Quiet n r)
    (hfiltered : r.Filtered policy adds) {key value : Slice} (hkey : key.cString = [97])
    (hvalue : value.cString = [98]) :
    ∃ r₁, (r.store .zeroed key value).flush WritableFile.writeAll .zeroed = .ok (.ok, r₁) ∧
      r₁.Filtered policy (adds ++ [(key, value)]) ∧ r₁.offset.toNat < 2 ^ 32 ∧
      r₁.history.current = [] ∧ ∃ block, r₁.history.blocks = [block] ∧ block.handle.offset = 0 ∧
        block.adds = List.replicate n (nullSlice, nullSlice) ++ [(key, value)] := by
  obtain ⟨r', hr'⟩ : ∃ r', r' = r.store .zeroed key value := ⟨_, rfl⟩
  have h' : r'.Filtered policy (adds ++ [(key, value)]) := hr' ▸ hfiltered.store key value
  have hoffset : r'.offset = 0 := by rw [hr', ← h.offset_eq]; rfl
  have hbuffer : r'.dataBlock.buffer = [1, 1, 97, 98] := by
    have hadd := BlockBuilder.buffer_add_of_lastKey_nil Ambient.zeroed.dataStack h.lastKey_eq
      key.cString value.cString
    rw [h.buffer_eq, hkey, hvalue] at hadd
    rw [hr', dataBlock_store, hkey, hvalue]
    exact hadd
  have hsize := length_finishBuffer_le (b := r'.dataBlock) fun w hw => by
    rw [hr'] at hw
    rcases mem_restarts_add hw with hw | rfl
    · exact h.restarts_eq w hw
    · rw [h.buffer_eq]
      rfl
  rw [hbuffer] at hsize
  have hfile : r'.file.Buffered := by
    rw [hr', TableBuilder.store, h.file_eq]
    exact ⟨List.length_replicate, le_rfl, by decide⟩
  have hhandle : r'.pendingHandle = some { offset := 0, size := 0 } := by
    rw [hr', ← h.handle_eq]
    rfl
  have hdata : r'.filterBlock.dataLength < 2 ^ 31 := by
    rw [h'.dataLength_eq_zero hoffset]
    decide
  obtain ⟨r₁, hflush⟩ := h'.exists_flush (m := .zeroed) WritableFile.delivers_writeAll hdata hfile
    hhandle (hsize.trans (by decide))
  rw [← hr']
  rcases flush_eq_ok hflush with
    ⟨hempty, -⟩ | ⟨contents, finished, file, filterBlock, -, hfin, hst, rfl⟩
  · rw [BlockBuilder.empty, hbuffer] at hempty
    cases hempty
  refine ⟨_, hflush, h'.flushed hfin hst, ?_, rfl,
    ⟨contents.data, (trailer .zeroed contents.data).data,
      { offset := r'.offset, size := UInt64.ofNat contents.size }, r'.history.current⟩,
    ?_, hoffset, ?_⟩
  · have hwrap := h'.inStep.toNat_offset contents.size_lt hst
    have hcontents := contents.size_lt
    rw [hoffset] at hwrap
    rw [TableBuilder.flushed, hoffset]
    refine (Nat.le_of_eq hwrap).trans_lt ?_
    rw [UInt64.toNat_zero]
    omega
  · rw [TableBuilder.flushed, hr', TableBuilder.store, h.blocks_eq, List.nil_append]
  · rw [← h.current_eq, hr']
    rfl

/-- When the one written block has `2 ^ 31` keys, none of them matches. -/
theorem Filtered.finish_manyKeys (h : r.Filtered policy adds) (hpolicy : policy.bitsPerKey = 0)
    (hoffset : r.offset.toNat < 2 ^ 32) (hcurrent : r.history.current = []) {block : WrittenBlock}
    (hblocks : r.history.blocks = [block]) (hzero : block.handle.offset = 0)
    (hadds : block.adds.length = 2 ^ 31) :
    ∃ contents b, r.filterBlock.finish = .ok (contents, b) ∧
      ∀ key, (FilterBlockReader.new policy contents).keyMayMatch 0 key = false := by
  have hcalls : r.filterCalls = [(0, block.adds.map Prod.fst), (r.offset, [])] := by
    rw [filterCalls, hblocks, hcurrent, ← hzero]
    rfl
  have hkeys : ∀ i, bucketKeys r.filterCalls i = if 0 = i then block.adds.map Prod.fst else [] := by
    intro i
    have hbucket : bucket 0 = 0 := rfl
    rw [hcalls, bucketKeys, List.filter_cons, List.filter_singleton]
    by_cases hi : 0 = i <;> by_cases hlast : bucket r.offset = i <;> simp [hbucket, hi, hlast]
  obtain ⟨c, hat, hc⟩ := h.exists_at
  refine hat.finish_manyKeys hpolicy ?_ ?_ fun i => ?_
  · rw [bucket, UInt64.toNat_div] at hc
    have hbase : filterBase.toNat = 2048 := rfl
    rw [hbase] at hc
    omega
  · rw [hkeys, if_pos rfl, List.length_map, hadds]
  · rw [hkeys, if_neg (by omega)]

/-- `2 ^ 31 - 1` pairs of no bytes and one more pair, which alone lets the block be written: the
one filter has all the keys, and with `bits_per_key` zero none of them matches. -/
theorem not_visible_of_manyKeys :
    ∃ (policy : BloomFilterPolicy) (calls : List (Ambient × Call)) (r₀ r : TableBuilder Bytes),
      new WritableFile.zeroed policy Unset.zeroed = .ok r₀ ∧
      runAll (step WritableFile.writeAll) r₀ (calls ++ [(.zeroed, .flush)]) = .ok r ∧
      ∃ contents b, r.filterBlock.finish = .ok (contents, b) ∧
        ∃ block ∈ r.history.blocks, ∃ a ∈ block.adds,
          (FilterBlockReader.new policy contents).keyMayMatch block.handle.offset a.1 = false := by
  obtain ⟨n, hn⟩ : ∃ n, n + 1 = 2 ^ 31 := ⟨2 ^ 31 - 1, by norm_num⟩
  obtain ⟨policy, hpolicy⟩ : ∃ policy : BloomFilterPolicy, policy.bitsPerKey = 0 :=
    ⟨⟨0, by decide⟩, rfl⟩
  obtain ⟨key, value, hkey, hvalue⟩ : ∃ key value : Slice,
      key.cString = [97] ∧ value.cString = [98] :=
    ⟨⟨[97], [], by decide⟩, ⟨[98], [], by decide⟩, by decide, by decide⟩
  obtain ⟨r₀, hnew, h₀⟩ := exists_new WritableFile.zeroed policy Unset.zeroed
  have hquiet₀ : Quiet 0 r₀ := by
    cases hnew
    exact ⟨rfl, rfl, rfl, rfl, rfl, rfl, rfl, rfl, by simp [Unset.zeroed, BlockBuilder.reset]⟩
  obtain ⟨r, hrun, hquiet⟩ := exists_quiet hquiet₀ n
  obtain ⟨r₁, hflush, h₁, hoffset, hcurrent, block, hblocks, hzero, hadds⟩ :=
    hquiet.lastPair (run_filtered h₀ hrun) hkey hvalue
  obtain ⟨contents, b, hcontents, hnoMatch⟩ := h₁.finish_manyKeys hpolicy hoffset hcurrent hblocks
    hzero (by rw [hadds, List.length_append, List.length_replicate, List.length_singleton, hn])
  refine ⟨policy, List.replicate n (.zeroed, .add nullSlice nullSlice) ++
    [(.zeroed, .add key value)], r₀, r₁, hnew, ?_, contents, b, hcontents, block,
    by rw [hblocks]; exact List.mem_singleton_self _, (key, value), by rw [hadds]; simp, ?_⟩
  · rw [runAll_concat, runAll_concat, hrun, ok_bind]
    simp only [TableBuilder.step, hquiet.add]
    -- whether or not the last `Add` flushes, the `Flush` behind it leaves the same builder
    split
    · simp only [hflush, flush_flush hflush, ok_bind]
    · simp only [hflush, ok_bind]
  · rw [hzero]
    exact hnoMatch key

end ManyKeys

end TableBuilder

end TinyLeveldb
