import TinyLeveldb.Block.Format
import TinyLeveldb.Table.FileOps
import TinyLeveldb.Table.Index
import TinyLeveldb.Table.Layout

/-!
# The table does not read back

`ReadsBack` says that the bytes a table builder hands to its file parse back to the pairs that
were added, whatever the memory holds that the constructor, `Finish` and the block builder read
without writing it. It fails for every sequence of pairs (`not_readsBack`).

`Finish` reads local pointers it never sets, so it does not even complete when one of them is
no address (`finish_of_badPointer`). But the round trip does not depend on that: also on zeroed
memory, with all pointers to valid storage, no sequence of pairs reads back
(`not_parsesTo_zeroed`). With no pairs, and whenever nothing is pending at the end, no index
block is written and the footer is what the storage held. Otherwise the first byte of the index
block is not zero, since the four zero bytes of its first header word were never appended.
-/

namespace TinyLeveldb

open Library

/-- `BlockHandle::DecodeFrom`. -/
def BlockHandle.decodeFrom (input : Bytes) : BlockHandle where
  offset := decodeFixed64 input
  size := decodeFixed64 (input.drop 8)

theorem BlockHandle.length_encodeTo (h : BlockHandle) : (h.encodeTo []).length = 16 := rfl

theorem BlockHandle.decodeFrom_encodeTo (h : BlockHandle) : decodeFrom (h.encodeTo []) = h := by
  have hsize : (encodeFixed64 h.offset ++ encodeFixed64 h.size).drop 8 = encodeFixed64 h.size :=
    List.drop_left' (length_encodeFixed64 _)
  have hlast := decodeFixed64_encodeFixed64_append h.size []
  rw [List.append_nil] at hlast
  simp only [decodeFrom, encodeTo, putFixed64, List.nil_append, hsize, hlast,
    decodeFixed64_encodeFixed64_append]

/-! ### Parsing a table -/

/-- The entries of the block that the handle delimits. -/
def decodeAt (file : Bytes) (handle : BlockHandle) : Option (List (Bytes × Bytes)) :=
  if handle.offset.toNat + handle.size.toNat ≤ file.length then
    decodeBlock ((file.drop handle.offset.toNat).take handle.size.toNat)
  else none

/-- The entries of the index block: the footer is the last 16 bytes. -/
def parseIndex (file : Bytes) : Option (List (Bytes × Bytes)) :=
  if file.length < 16 then none
  else decodeAt file (BlockHandle.decodeFrom (file.drop (file.length - 16)))

/-- The table file holds the pairs: its index has one entry per data block, in file order, with
the last key of the block and its handle, and the entries of the blocks are the pairs. -/
def ParsesTo (file : Bytes) (pairs : List (Bytes × Bytes)) : Prop :=
  ∃ (index : List (Bytes × Bytes)) (blocks : List (List (Bytes × Bytes))),
    parseIndex file = some index ∧
      (index.map fun e => BlockHandle.decodeFrom e.2).Pairwise BlockHandle.Before ∧
      index.map (fun e => decodeAt file (BlockHandle.decodeFrom e.2)) = blocks.map some ∧
      index.map (fun e => some e.1) = blocks.map (fun b => b.getLast?.map Prod.fst) ∧
      blocks.flatten = pairs

/-- A table of one pair: a data block, an index block, each with its trailer, and the footer. -/
example : ParsesTo
    ([0, 0, 0, 0, 1, 0, 0, 0, 1, 0, 0, 0, 97, 98] ++ [0, 0, 0, 0, 1, 0, 0, 0] ++ [1, 2, 3, 4] ++
      ([0, 0, 0, 0, 1, 0, 0, 0, 16, 0, 0, 0, 97] ++ BlockHandle.encodeTo ⟨0, 22⟩ [] ++
        [0, 0, 0, 0, 1, 0, 0, 0]) ++ [5, 6, 7, 8] ++
      BlockHandle.encodeTo ⟨26, 37⟩ []) [([97], [98])] :=
  ⟨[([97], BlockHandle.encodeTo ⟨0, 22⟩ [])], [[([97], [98])]], by decide +kernel,
    List.pairwise_singleton _ _, by decide +kernel, rfl, rfl⟩

/-- A file that ends with the encoding of a handle has the index block the handle delimits. -/
theorem parseIndex_append (bytes : Bytes) (handle : BlockHandle) :
    parseIndex (bytes ++ handle.encodeTo []) = decodeAt (bytes ++ handle.encodeTo []) handle := by
  have hlen : (bytes ++ handle.encodeTo []).length = bytes.length + 16 := by
    rw [List.length_append, handle.length_encodeTo]
  rw [parseIndex, if_neg (by omega), hlen, Nat.add_sub_cancel, List.drop_left,
    handle.decodeFrom_encodeTo]

/-- No entry is read back through a handle of no bytes. -/
theorem decodeAt_of_size_eq_zero (file : Bytes) {handle : BlockHandle} (h : handle.size = 0) :
    decodeAt file handle = none := by
  have hsize : handle.size.toNat = 0 := by rw [h]; rfl
  unfold decodeAt
  split
  · rw [hsize, List.take_zero]
    rfl
  · rfl

/-- A handle that has the position and the length of some bytes delimits them. -/
theorem decodeAt_append {handle : BlockHandle} (pre contents post : Bytes)
    (hoffset : handle.offset.toNat = pre.length) (hsize : handle.size.toNat = contents.length) :
    decodeAt (pre ++ (contents ++ post)) handle = decodeBlock contents := by
  rw [decodeAt, if_pos (by simp [hoffset, hsize]), hoffset, hsize, List.drop_left, List.take_left]

theorem ParsesTo.of_parseIndex_nil {file : Bytes} {pairs : List (Bytes × Bytes)}
    (h : ParsesTo file pairs) (hindex : parseIndex file = some []) : pairs = [] := by
  obtain ⟨index, blocks, hparse, -, -, hlast, rfl⟩ := h
  rw [hindex] at hparse
  cases hparse
  obtain rfl : blocks = [] := by simpa using hlast
  rfl

/-! ### The first byte of an index block -/

namespace BlockBuilder

/-- The words of the first header are the zero `shared`, which leaves no byte, the size of the
key and the size of the value, one of which leaves its low byte. -/
theorem exists_buffer_add_reset (stack : ℕ → Bytes) (key : Bytes) {value : Bytes}
    (hvalue : value.length = 16) :
    ∃ byte rest, byte ≠ 0 ∧ (reset.add stack key value).buffer = byte :: rest := by
  have hbuffer : (reset.add stack key value).buffer =
      cString (encodeFixed32 0 ++ stack 0) ++
        cString (encodeFixed32 (UInt32.ofNat key.length) ++ stack 1) ++
        cString (encodeFixed32 (UInt32.ofNat value.length) ++ stack 2) ++ key ++ value := rfl
  rw [hbuffer, cString_of_zero (by decide), List.nil_append, hvalue]
  by_cases hkey : (UInt32.ofNat key.length).toUInt8 = 0
  · have hsixteen : (UInt32.ofNat 16).toUInt8 ≠ 0 := by decide
    obtain ⟨rest, hrest⟩ := cString_of_ne_zero hsixteen (stack 2)
    rw [cString_of_zero hkey, hrest]
    exact ⟨_, _, by decide, rfl⟩
  · obtain ⟨rest, hrest⟩ := cString_of_ne_zero hkey (stack 1)
    rw [hrest]
    exact ⟨_, _, hkey, rfl⟩

/-- A block of entries whose values are encoded handles begins with a byte that is not zero. -/
theorem Built.exists_buffer {entries : List (Bytes × Bytes)} {b : BlockBuilder}
    (h : Built reset entries b) (hvalue : ∀ e ∈ entries, e.2.length = 16) (hne : entries ≠ []) :
    ∃ byte rest, byte ≠ 0 ∧ b.buffer = byte :: rest := by
  induction h with
  | start => exact absurd rfl hne
  | @add entries b stack key value hb ih =>
    by_cases hentries : entries = []
    · subst hentries
      rw [hb.eq_of_nil]
      exact exists_buffer_add_reset stack key (hvalue (key, value) (by simp))
    · obtain ⟨byte, rest, hbyte, hbuffer⟩ :=
        ih (fun e he => hvalue e (List.mem_append_left _ he)) hentries
      obtain ⟨tail, htail⟩ := exists_buffer_add stack b key value
      exact ⟨byte, rest ++ tail, hbyte, by rw [htail, hbuffer, List.cons_append]⟩

end BlockBuilder

namespace TableBuilder

/-- Build a table of the pairs on a new file, every write of which succeeds, and read what was
handed to the file. Call `i` meets the memory `m i`. -/
def tableBytes (policy : BloomFilterPolicy) (unset : Unset) (locals : FinishLocals)
    (m : ℕ → Ambient) (adds : List (Slice × Slice)) : Except Fault Bytes := do
  let r ← new WritableFile.zeroed policy unset
  let calls := adds.zipIdx.map fun a => (m a.2, Call.add a.1.1 a.1.2)
  let r ← runAll (step WritableFile.writeAll) r calls
  let r ← r.finish WritableFile.writeAll (m adds.length) (m (adds.length + 1)) locals
  .ok r.history.appended

/-- The table reads back as the pairs, whatever the memory holds. -/
def ReadsBack (adds : List (Slice × Slice)) : Prop :=
  ∀ (policy : BloomFilterPolicy) (unset : Unset) (locals : FinishLocals) (m : ℕ → Ambient),
    ∃ file, tableBytes policy unset locals m adds = .ok file ∧
      ParsesTo file (adds.map fun a => (a.1.data, a.2.data))

/-! ### What a completed `Finish` does -/

section Finish

variable {δ : Type} {writeToFile : δ → Bytes → Except Fault (Status × δ)} {m m' : Ambient}
  {locals : FinishLocals} {r r' : TableBuilder δ}

/-- Nothing is pending, or the last block was indexed and the index block written. -/
theorem writeIndex_eq_ok {indexHandle : Pointer BlockHandle}
    (h : r.writeIndex writeToFile m locals = .ok (indexHandle, r')) :
    (r.pendingIndexEntry = false ∧ indexHandle = locals.indexHandle ∧ r' = r) ∨
    ∃ handle coding stored contents finished, r.pendingIndexEntry = true ∧
      r.pendingHandle = some handle ∧ locals.handleCoding = some coding ∧
      locals.indexHandle = some stored ∧
      (r.indexBlock.add m.indexStack r.lastKey (handle.encodeTo coding)).finish m.finishStack =
        .ok (contents, finished) ∧
      indexHandle = some { offset := r.offset, size := UInt64.ofNat contents.size } ∧
      r'.history.appended =
        r.history.appended ++ contents.data ++ (trailer m contents.data).data := by
  rcases writeIndexVia_eq_ok h with hsame |
    ⟨handle, coding, s, written, hpending, hhandle, hcoding, rfl, hwrite⟩
  · exact .inl hsame
  · obtain ⟨stored, contents, finished, file, hstored, hfinish, rfl, rfl⟩ := writeBlock_eq_ok hwrite
    exact .inr ⟨handle, coding, stored, contents, finished, hpending, hhandle, hcoding, hstored,
      hfinish, rfl, (List.append_assoc _ _ _).symm⟩

theorem finish_eq_ok (h : r.finish writeToFile m m' locals = .ok r') :
    ∃ s r₁ r₂ handle coding, r.flush writeToFile m = .ok (s, r₁) ∧
      r₁.writeIndex writeToFile m' locals = .ok (some handle, r₂) ∧
      locals.indexCoding = some coding ∧
      r'.history.appended = r₂.history.appended ++ handle.encodeTo coding := by
  obtain ⟨s, r₁, handle, r₂, coding, footer, s', file, hflush, hindex, hcoding, hfooter, -, rfl⟩ :=
    finishVia_eq_ok h
  exact ⟨s, r₁, r₂, handle, coding, hflush, hindex, hcoding, by rw [← hfooter]; rfl⟩

/-- `Finish` does not complete when its local `indexHandle`, which it never sets, holds no valid
address. -/
theorem finish_of_badPointer (h : locals.indexHandle = none) :
    r.finish writeToFile m m' locals ≠ .ok r' := by
  intro hfinish
  obtain ⟨-, r₁, r₂, handle, -, -, hindex, -, -⟩ := finish_eq_ok hfinish
  rcases writeIndex_eq_ok hindex with ⟨-, hhandle, -⟩ | ⟨-, -, stored, -, -, -, -, -, hstored, -⟩
  · rw [h] at hhandle
    cases hhandle
  · rw [h] at hstored
    cases hstored

end Finish

/-! ### The round trip fails -/

theorem addsOf_map_add (m : ℕ → Ambient) (adds : List (Slice × Slice)) :
    addsOf (adds.zipIdx.map fun a => (m a.2, Call.add a.1.1 a.1.2)) = adds := by
  simp [addsOf, List.filterMap_map]

/-- The index block that `Finish` writes begins with a byte that is not zero. -/
theorem Coverage.exists_contents {δ : Type} {r : TableBuilder δ} {adds : List (Slice × Slice)}
    (h : r.Coverage BlockBuilder.reset adds) {stack stack' : ℕ → Bytes} {handle : BlockHandle}
    {contents : Slice} {finished : BlockBuilder}
    (hfinish : (r.indexBlock.add stack r.lastKey (handle.encodeTo [])).finish stack' =
      .ok (contents, finished)) :
    ∃ byte rest, byte ≠ 0 ∧ contents.data = byte :: rest := by
  have hbuilt := h.indexBlock_eq.add stack r.lastKey (handle.encodeTo [])
  obtain ⟨byte, rest, hbyte, hbuffer⟩ := hbuilt.exists_buffer
    (by
      intro e he
      rcases List.mem_append.mp he with he | he
      · obtain ⟨p, -, rfl⟩ := List.mem_map.mp he
        exact p.2.length_encodeTo
      · obtain rfl := List.mem_singleton.mp he
        exact handle.length_encodeTo)
    (by simp)
  obtain ⟨tail, htail⟩ :=
    BlockBuilder.exists_finishBuffer stack' (r.indexBlock.add stack r.lastKey (handle.encodeTo []))
  exact ⟨byte, rest ++ tail, hbyte, by
    rw [(BlockBuilder.finish_eq_ok hfinish).1, htail, hbuffer, List.cons_append]⟩

/-- **Zeroed memory.** A table built while every uninitialised pointer points to zeroed storage
does not parse to its pairs. -/
theorem not_parsesTo_zeroed (policy : BloomFilterPolicy) (m : ℕ → Ambient)
    {adds : List (Slice × Slice)} {file : Bytes}
    (h : tableBytes policy .zeroed .zeroed m adds = .ok file) :
    ¬ ParsesTo file (adds.map fun a => (a.1.data, a.2.data)) := by
  intro hparses
  obtain ⟨r₀, hnew, h⟩ := bind_eq_ok.mp h
  obtain ⟨r, hrun, h⟩ := bind_eq_ok.mp h
  obtain ⟨r', hfinish, h⟩ := bind_eq_ok.mp h
  cases h
  obtain ⟨s, r₁, r₂, handle, coding, hflush, hindex, hcoding, happended⟩ := finish_eq_ok hfinish
  obtain rfl : [] = coding := Option.some.inj hcoding
  rw [happended] at hparses
  -- the `Flush` of `Finish` is one more call of the run
  have hrun₁ : runAll (step WritableFile.writeAll) r₀
      (adds.zipIdx.map (fun a => (m a.2, Call.add a.1.1 a.1.2)) ++ [(m adds.length, .flush)]) =
        .ok r₁ := by
    rw [runAll_concat, hrun, ok_bind, step, hflush]
    rfl
  have hlayout := (run_layout (layout_new hnew) hrun₁).1
  obtain ⟨hdata, hindexBlock, hpending₀, hhistory⟩ := new_eq_ok hnew
  have hcoverage : r₁.Coverage BlockBuilder.reset adds := by
    have h₀ := coverage_start hpending₀ (by rw [hdata]; rfl) hhistory
    rw [hindexBlock] at h₀
    have h₁ := (run_coverage h₀ hrun₁).1
    rwa [addsOf_concat_flush, addsOf_map_add] at h₁
  rcases writeIndex_eq_ok hindex with ⟨-, hhandle, -⟩ |
    ⟨pending, coding', -, contents, finished, hpending, hpendingHandle, hcoding', -, hfin, hhandle,
      happended₂⟩
  · -- nothing is pending: the footer is the zeroed storage
    obtain rfl : handle = { offset := 0, size := 0 } := Option.some.inj hhandle
    obtain ⟨index, blocks, hparse, -⟩ := hparses
    rw [parseIndex_append, decodeAt_of_size_eq_zero _ rfl] at hparse
    cases hparse
  · -- the footer delimits the index block, in which nothing can be read
    obtain rfl : [] = coding' := Option.some.inj hcoding'
    obtain rfl := Option.some.inj hhandle
    have hsize := contents.size_lt
    obtain ⟨byte, rest, hbyte, hcontents⟩ := hcoverage.exists_contents hfin
    obtain ⟨index, blocks, hparse, hrest⟩ := hparses
    have hindex' := hparse
    rw [parseIndex_append, happended₂, List.append_assoc, List.append_assoc,
      decodeAt_append _ _ _ hlayout.offset_eq (by
        rw [UInt64.toNat_ofNat', Slice.size]
        omega), hcontents] at hindex'
    obtain rfl := decodeBlock_cons hbyte hindex'
    have hnil := ParsesTo.of_parseIndex_nil ⟨_, blocks, hparse, hrest⟩ hparse
    exact hcoverage.ne_nil hpending hpendingHandle (List.map_eq_nil_iff.mp hnil)

/-- **No table makes the round trip.** -/
theorem not_readsBack (adds : List (Slice × Slice)) : ¬ ReadsBack adds := by
  intro h
  obtain ⟨file, hfile, hparses⟩ := h ⟨10, by decide⟩ .zeroed .zeroed fun _ => .zeroed
  exact not_parsesTo_zeroed _ _ hfile hparses

/-- Adding the one pair `("a", "b")`: the last four bytes of the index block are three zero bytes
of the size of the data block and the number of restarts, which read as `2 ^ 24` restarts. -/
theorem not_readsBack_single :
    ¬ ReadsBack [(⟨[97], [], by decide⟩, ⟨[98], [], by decide⟩)] := by
  intro h
  obtain ⟨file, hfile, index, blocks, hparse, -⟩ :=
    h ⟨10, by decide⟩ .zeroed .zeroed fun _ => .zeroed
  have hnone : (tableBytes ⟨10, by decide⟩ .zeroed .zeroed (fun _ => .zeroed)
      [(⟨[97], [], by decide⟩, ⟨[98], [], by decide⟩)]).map parseIndex = .ok none := by
    decide +kernel
  rw [hfile] at hnone
  rw [Except.ok.inj hnone] at hparse
  cases hparse

end TableBuilder

end TinyLeveldb
