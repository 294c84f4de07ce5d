import TinyLeveldb.Block.Builder
import TinyLeveldb.Crc32c
import TinyLeveldb.Env.WritableFile
import TinyLeveldb.Filter.Block

/-!
# Building a table

`class TableBuilder`: key/value pairs go into a data block; a data block that has grown to
1000 bytes is written to the file with a checksum behind it; and the pair of its last key and
its `BlockHandle` goes into the index block, one `Add` later. The model of the class is its
`Rep`.

A call meets memory that no statement of the source has written: the bytes behind the local
buffers, the first byte of `trailer`, and the local pointers of `Finish`. These, with the
addresses of the checksummed buffers, are parameters of the calls (`Ambient`,
`FinishLocals`).

The builder touches its file through `Append` and `FlushBUffer` only. The two are a parameter
(`FileOps`), so that a statement may be about every outcome they could have; with the operations
of `WritableFile` (`FileOps.ofWriteToFile`) the calls are those of the source.
-/

namespace TinyLeveldb

open Library

/-- `*p`. -/
def deref {α : Type} (p : Pointer α) : Except Fault α :=
  match p with
  | none => .error .badPointer
  | some a => .ok a

/-- `class BlockHandle`. -/
structure BlockHandle where
  offset : UInt64
  size : UInt64
  deriving DecidableEq, Repr

/-- `BlockHandle::EncodeTo`: what it makes of `*dst`. -/
def BlockHandle.encodeTo (h : BlockHandle) (dst : Bytes) : Bytes :=
  putFixed64 (putFixed64 dst h.offset) h.size

/-- `kBlockTrailerSize`. -/
def blockTrailerSize : UInt64 := 4

/-- What a call finds in memory that the program does not determine. -/
structure Ambient where
  /-- The bytes behind `buf`, in the appends of the index block's `Add`. -/
  indexStack : ℕ → Bytes
  /-- The bytes behind `buf`, in the appends of the data block's `Add`. -/
  dataStack : ℕ → Bytes
  /-- The bytes behind `buf`, in the appends of the written block's `Finish`. -/
  finishStack : ℕ → Bytes
  /-- The uninitialised byte `trailer[0]`. -/
  trailer : UInt8
  contentsAddress : ℕ
  trailerAddress : ℕ

/-- One call of `WriteBlock` that wrote its block, with the `Add`s that went into the block. -/
structure WrittenBlock where
  contents : Bytes
  trailer : Bytes
  handle : BlockHandle
  adds : List (Slice × Slice)

/-- What the calls did, which the source does not keep: the statements about runs are about it. -/
structure History where
  /-- The bytes passed to `file->Append`. -/
  appended : Bytes := []
  blocks : List WrittenBlock := []
  /-- The pairs passed to `index_block.Add`, the handles before their encoding. -/
  indexed : List (Bytes × BlockHandle) := []
  /-- The `Add`s since the data block was last reset. -/
  current : List (Slice × Slice) := []

/-- `TableBuilder::Rep`. Its `status` and `closed` are never used. -/
structure TableBuilder (δ : Type) where
  file : WritableFile δ
  offset : UInt64
  dataBlock : BlockBuilder
  indexBlock : BlockBuilder
  lastKey : Bytes
  numEntries : ℤ
  filterBlock : FilterBlockBuilder
  pendingIndexEntry : Bool
  pendingHandle : Pointer BlockHandle
  history : History

/-- What the builder calls on its file. -/
structure FileOps (δ : Type) where
  append : WritableFile δ → Slice → Except Fault (Status × WritableFile δ)
  flushBuffer : WritableFile δ → Except Fault (Status × WritableFile δ)

/-- The operations of `WritableFile`. -/
def FileOps.ofWriteToFile {δ : Type} (writeToFile : δ → Bytes → Except Fault (Status × δ)) :
    FileOps δ where
  append f data := f.append writeToFile data
  flushBuffer f := f.flushBuffer writeToFile

/-- The builder a `BlockBuilder &` refers to. -/
inductive BlockRef
  | dataBlock | indexBlock
  deriving DecidableEq, Repr

/-- What the constructor leaves undefined: the members it does not initialise, and the result of
the undefined constructor of `BlockBuilder`. -/
structure Unset where
  dataBlock : BlockBuilder
  indexBlock : BlockBuilder
  pendingIndexEntry : Bool
  pendingHandle : Pointer BlockHandle

/-- What the local pointers of `Finish`, which are never initialised, happen to point to. -/
structure FinishLocals where
  indexHandle : Pointer BlockHandle
  handleCoding : Pointer Bytes
  indexCoding : Pointer Bytes

/-- Zeroed memory behind the local arrays. -/
def Ambient.zeroed : Ambient where
  indexStack := fun _ => []
  dataStack := fun _ => []
  finishStack := fun _ => []
  trailer := 0
  contentsAddress := 0
  trailerAddress := 0

/-- Zeroed members, with storage for the pending handle. -/
def Unset.zeroed : Unset where
  dataBlock := BlockBuilder.reset
  indexBlock := BlockBuilder.reset
  pendingIndexEntry := false
  pendingHandle := some { offset := 0, size := 0 }

/-- Local pointers that happen to point to zeroed storage. -/
def FinishLocals.zeroed : FinishLocals where
  indexHandle := some { offset := 0, size := 0 }
  handleCoding := some []
  indexCoding := some []

/-- The byte strings that one `Add` hands on. -/
structure Handed where
  filterKey : Bytes
  lastKey : Bytes
  dataKey : Bytes
  dataValue : Bytes

namespace TableBuilder

variable {δ : Type} (ops : FileOps δ) (writeToFile : δ → Bytes → Except Fault (Status × δ))

/-- `TableBuilder::TableBuilder`. -/
def new (file : WritableFile δ) (policy : BloomFilterPolicy) (unset : Unset) :
    Except Fault (TableBuilder δ) := do
  let filterBlock ← { policy : FilterBlockBuilder }.startBlock 0
  .ok
    { file, offset := 0, dataBlock := unset.dataBlock, indexBlock := unset.indexBlock,
      lastKey := [], numEntries := 0, filterBlock,
      pendingIndexEntry := unset.pendingIndexEntry, pendingHandle := unset.pendingHandle,
      history := {} }

/-- The block builder a reference refers to. -/
def block (r : TableBuilder δ) : BlockRef → BlockBuilder
  | .dataBlock => r.dataBlock
  | .indexBlock => r.indexBlock

/-- An assignment through a reference. -/
def setBlock (r : TableBuilder δ) (block : BlockBuilder) : BlockRef → TableBuilder δ
  | .dataBlock => { r with dataBlock := block }
  | .indexBlock => { r with indexBlock := block }

/-- `r->file->Append(data)`. -/
def appendVia (r : TableBuilder δ) (data : Slice) : Except Fault (Status × TableBuilder δ) := do
  let (s, file) ← ops.append r.file data
  .ok (s,
    { r with file, history := { r.history with appended := r.history.appended ++ data.data } })

/-- The trailer of a block: its masked checksum, extended by the byte the array `trailer` holds
before anything is stored in it. -/
def trailer (m : Ambient) (contents : Bytes) : Slice where
  data :=
    let crc := Crc32c.value m.contentsAddress contents
    let crc := Crc32c.extend m.trailerAddress crc [m.trailer]
    encodeFixed32 (Crc32c.mask crc)
  size_lt := by
    rw [length_encodeFixed32]
    decide

/-- The last statements of `WriteBlock`. They reset the data block, whichever block was
written. -/
def blockWritten (r : TableBuilder δ) (contents trailer : Slice) (handle : BlockHandle) :
    TableBuilder δ :=
  { r with
    offset := r.offset + (UInt64.ofNat contents.size + blockTrailerSize)
    dataBlock := BlockBuilder.reset
    history :=
      { r.history with
        blocks := r.history.blocks ++
          [{ contents := contents.data, trailer := trailer.data, handle,
             adds := r.history.current }]
        current := [] } }

/-- `WriteBlock`: its status, the handle it wrote, and the builder afterwards. -/
def writeBlockVia (m : Ambient) (r : TableBuilder δ) (block : BlockRef)
    (handle : Pointer BlockHandle) : Except Fault (Status × BlockHandle × TableBuilder δ) := do
  let (contents, finished) ← (r.block block).finish m.finishStack
  let (_, r) ← (r.setBlock finished block).appendVia ops contents
  let _ ← deref handle
  let handle : BlockHandle := { offset := r.offset, size := UInt64.ofNat contents.size }
  let (s, r) ← r.appendVia ops (trailer m contents.data)
  if s ≠ .ok then .ok (s, handle, r)
  else .ok (.ok, handle, r.blockWritten contents (trailer m contents.data) handle)

/-- `Flush`. -/
def flushVia (m : Ambient) (r : TableBuilder δ) : Except Fault (Status × TableBuilder δ) :=
  if r.dataBlock.empty then .ok (.ok, r)
  else do
    let (_, handle, r) ← r.writeBlockVia ops m .dataBlock r.pendingHandle
    let (_, file) ← ops.flushBuffer r.file
    let filterBlock ← r.filterBlock.startBlock r.offset
    .ok (.ok, { r with file, filterBlock, pendingIndexEntry := true, pendingHandle := some handle })

/-- `index_block.Add(last_key, coding)` for the encoded pending handle. -/
def addIndexEntry (m : Ambient) (r : TableBuilder δ) (handle : BlockHandle) (coding : Bytes) :
    TableBuilder δ :=
  { r with
    indexBlock := r.indexBlock.add m.indexStack r.lastKey coding
    history := { r.history with indexed := r.history.indexed ++ [(r.lastKey, handle)] } }

/-- The first statement of `Add`: index the block written last. -/
def emitPending (m : Ambient) (r : TableBuilder δ) : Except Fault (TableBuilder δ) :=
  if r.pendingIndexEntry then do
    let handle ← deref r.pendingHandle
    .ok { r.addIndexEntry m handle (handle.encodeTo []) with pendingIndexEntry := false }
  else .ok r

/-- What `Add` makes of its slices. The data block gets the C strings at their data pointers. -/
def handed (key value : Slice) : Handed where
  filterKey := key.data
  lastKey := key.data
  dataKey := key.cString
  dataValue := value.cString

/-- The statements of `Add` that store the pair. -/
def store (m : Ambient) (r : TableBuilder δ) (key value : Slice) : TableBuilder δ :=
  let h := handed key value
  { r with
    filterBlock := r.filterBlock.appendKey h.filterKey
    lastKey := h.lastKey
    numEntries := r.numEntries + 1
    dataBlock := r.dataBlock.add m.dataStack h.dataKey h.dataValue
    history := { r.history with current := r.history.current ++ [(key, value)] } }

/-- `Add`. -/
def addVia (m : Ambient) (r : TableBuilder δ) (key value : Slice) :
    Except Fault (Status × TableBuilder δ) := do
  let r ← r.emitPending m
  let r := r.store m key value
  if r.dataBlock.currentSizeEstimate ≥ 1000 then r.flushVia ops m else .ok (.ok, r)

/-- The conditional of `Finish`: index the last block and write the index block. -/
def writeIndexVia (m : Ambient) (locals : FinishLocals) (r : TableBuilder δ) :
    Except Fault (Pointer BlockHandle × TableBuilder δ) :=
  if r.pendingIndexEntry then do
    let handle ← deref r.pendingHandle
    let handleCoding ← deref locals.handleCoding
    let r := r.addIndexEntry m handle (handle.encodeTo handleCoding)
    let (_, indexHandle, r) ← r.writeBlockVia ops m .indexBlock locals.indexHandle
    .ok (some indexHandle, r)
  else .ok (locals.indexHandle, r)

/-- `Finish`, whose `Flush` and `WriteBlock` meet their own memory. It has no `return`. -/
def finishVia (m m' : Ambient) (locals : FinishLocals) (r : TableBuilder δ) :
    Except Fault (TableBuilder δ) := do
  let (_, r) ← r.flushVia ops m
  let (indexHandle, r) ← r.writeIndexVia ops m' locals
  let indexHandle ← deref indexHandle
  let indexCoding ← deref locals.indexCoding
  let footer ← Slice.ofString (indexHandle.encodeTo indexCoding)
  let (_, r) ← r.appendVia ops footer
  .ok r

/-! ### The operations of `WritableFile` -/

/-- `WriteBlock`. -/
def writeBlock (m : Ambient) (r : TableBuilder δ) (block : BlockRef)
    (handle : Pointer BlockHandle) : Except Fault (Status × BlockHandle × TableBuilder δ) :=
  r.writeBlockVia (.ofWriteToFile writeToFile) m block handle

/-- `Flush`. -/
def flush (m : Ambient) (r : TableBuilder δ) : Except Fault (Status × TableBuilder δ) :=
  r.flushVia (.ofWriteToFile writeToFile) m

/-- `Add`. -/
def add (m : Ambient) (r : TableBuilder δ) (key value : Slice) :
    Except Fault (Status × TableBuilder δ) :=
  r.addVia (.ofWriteToFile writeToFile) m key value

/-- The conditional of `Finish`. -/
def writeIndex (m : Ambient) (locals : FinishLocals) (r : TableBuilder δ) :
    Except Fault (Pointer BlockHandle × TableBuilder δ) :=
  r.writeIndexVia (.ofWriteToFile writeToFile) m locals

/-- `Finish`. -/
def finish (m m' : Ambient) (locals : FinishLocals) (r : TableBuilder δ) :
    Except Fault (TableBuilder δ) :=
  r.finishVia (.ofWriteToFile writeToFile) m m' locals

/-! ### Calls -/

/-- A call of `Add` or `Flush`. -/
inductive Call
  | add (key value : Slice)
  | flush

/-- One call, and the memory it meets. The client drops the status. -/
def step (r : TableBuilder δ) (c : Ambient × Call) : Except Fault (TableBuilder δ) :=
  match c.2 with
  | .add key value => do
      let (_, r) ← r.add writeToFile c.1 key value
      .ok r
  | .flush => do
      let (_, r) ← r.flush writeToFile c.1
      .ok r

/-- The pairs a sequence of calls adds. -/
def addsOf (calls : List (Ambient × Call)) : List (Slice × Slice) :=
  calls.filterMap fun c =>
    match c.2 with
    | .add key value => some (key, value)
    | .flush => none

/-- The entries the data block gets for the pairs. -/
def entriesOf (adds : List (Slice × Slice)) : List (Bytes × Bytes) :=
  adds.map fun a => (a.1.cString, a.2.cString)

theorem addsOf_concat_add (calls : List (Ambient × Call)) (m : Ambient) (key value : Slice) :
    addsOf (calls ++ [(m, .add key value)]) = addsOf calls ++ [(key, value)] := by
  simp [addsOf]

theorem addsOf_concat_flush (calls : List (Ambient × Call)) (m : Ambient) :
    addsOf (calls ++ [(m, .flush)]) = addsOf calls := by
  simp [addsOf]

/-! ### What completed calls do -/

/-- The builder after a `Flush` that wrote the data block. -/
def flushed (m : Ambient) (r : TableBuilder δ) (contents : Slice) (file : WritableFile δ)
    (filterBlock : FilterBlockBuilder) : TableBuilder δ :=
  let handle : BlockHandle := { offset := r.offset, size := UInt64.ofNat contents.size }
  { r with
    file
    offset := r.offset + (UInt64.ofNat contents.size + blockTrailerSize)
    dataBlock := BlockBuilder.reset
    filterBlock
    pendingIndexEntry := true
    pendingHandle := some handle
    history :=
      { appended := r.history.appended ++ contents.data ++ (trailer m contents.data).data
        blocks := r.history.blocks ++
          [{ contents := contents.data, trailer := (trailer m contents.data).data, handle,
             adds := r.history.current }]
        indexed := r.history.indexed
        current := [] } }

/-- The builder after the pending block is indexed. -/
def emitted (m : Ambient) (r : TableBuilder δ) (handle : BlockHandle) : TableBuilder δ :=
  { r.addIndexEntry m handle (handle.encodeTo []) with pendingIndexEntry := false }

variable {ops writeToFile} {m : Ambient} {r r' : TableBuilder δ} {s : Status}

@[simp]
theorem lastKey_store (key value : Slice) : (r.store m key value).lastKey = key.data := rfl

@[simp]
theorem dataBlock_store (key value : Slice) : (r.store m key value).dataBlock =
    r.dataBlock.add m.dataStack key.cString value.cString := rfl

theorem length_trailer (contents : Bytes) : (trailer m contents).data.length = 4 :=
  length_encodeFixed32 _

theorem deref_eq_ok {α : Type} {p : Pointer α} {a : α} (h : deref p = .ok a) : p = some a := by
  cases p with
  | none => cases h
  | some b =>
    cases h
    rfl

/-- The constructor leaves what it does not initialise as it is. -/
theorem new_eq_ok {file : WritableFile δ} {policy : BloomFilterPolicy} {unset : Unset}
    (h : new file policy unset = .ok r) :
    r.dataBlock = unset.dataBlock ∧ r.indexBlock = unset.indexBlock ∧
      r.pendingIndexEntry = unset.pendingIndexEntry ∧ r.history = {} := by
  obtain ⟨filterBlock, -, h⟩ := bind_eq_ok.mp h
  cases h
  exact ⟨rfl, rfl, rfl, rfl⟩

/-- The builder after an `Append` of `data` that left the file as `file`. -/
def appendedTo (r : TableBuilder δ) (file : WritableFile δ) (data : Bytes) : TableBuilder δ :=
  { r with file, history := { r.history with appended := r.history.appended ++ data } }

/-- The builder after the two appends of `WriteBlock`, which left the file as `file`. -/
def blockAppended (m : Ambient) (r : TableBuilder δ) (block : BlockRef) (contents : Slice)
    (finished : BlockBuilder) (file : WritableFile δ) : TableBuilder δ :=
  (r.setBlock finished block).appendedTo file (contents.data ++ (trailer m contents.data).data)

theorem appendVia_eq_ok {data : Slice} (h : r.appendVia ops data = .ok (s, r')) :
    ∃ file, ops.append r.file data = .ok (s, file) ∧ r' = r.appendedTo file data.data := by
  obtain ⟨⟨s', file⟩, hfile, h⟩ := bind_eq_ok.mp h
  cases h
  exact ⟨file, hfile, rfl⟩

/-- A completed `WriteBlock` made two appends, whatever the first one returned; the status of the
second decides whether the block counts as written. -/
theorem writeBlockVia_eq_ok {block : BlockRef} {p : Pointer BlockHandle} {handle : BlockHandle}
    (h : r.writeBlockVia ops m block p = .ok (s, handle, r')) :
    ∃ stored contents finished s₁ file₁ file₂, p = some stored ∧
      (r.block block).finish m.finishStack = .ok (contents, finished) ∧
      ops.append r.file contents = .ok (s₁, file₁) ∧
      ops.append file₁ (trailer m contents.data) = .ok (s, file₂) ∧
      handle = { offset := r.offset, size := UInt64.ofNat contents.size } ∧
      r' = if s = .ok then
          (r.blockAppended m block contents finished file₂).blockWritten contents
            (trailer m contents.data) handle
        else r.blockAppended m block contents finished file₂ := by
  have hset (finished : BlockBuilder) : (r.setBlock finished block).file = r.file ∧
      (r.setBlock finished block).offset = r.offset := by cases block <;> exact ⟨rfl, rfl⟩
  obtain ⟨⟨contents, finished⟩, hfinish, h⟩ := bind_eq_ok.mp h
  obtain ⟨⟨s₁, r₁⟩, happend, h⟩ := bind_eq_ok.mp h
  obtain ⟨file₁, hfile₁, rfl⟩ := appendVia_eq_ok happend
  obtain ⟨stored, hstored, h⟩ := bind_eq_ok.mp h
  obtain ⟨⟨s₂, r₂⟩, htrailer, h⟩ := bind_eq_ok.mp h
  obtain ⟨file₂, hfile₂, rfl⟩ := appendVia_eq_ok htrailer
  have happended : ((r.setBlock finished block).appendedTo file₁ contents.data).appendedTo file₂
      (trailer m contents.data).data = r.blockAppended m block contents finished file₂ := by
    simp only [blockAppended, appendedTo, List.append_assoc]
  have hoffset : ((r.setBlock finished block).appendedTo file₁ contents.data).offset = r.offset :=
    (hset finished).2
  rw [(hset finished).1] at hfile₁
  simp only [happended, hoffset] at h
  split at h
  · rename_i hs
    cases h
    exact ⟨stored, contents, finished, s₁, file₁, file₂, deref_eq_ok hstored, hfinish, hfile₁,
      hfile₂, rfl, by rw [if_neg hs]⟩
  · rename_i hs
    obtain rfl : s₂ = .ok := not_not.mp hs
    cases h
    exact ⟨stored, contents, finished, s₁, file₁, file₂, deref_eq_ok hstored, hfinish, hfile₁,
      hfile₂, rfl, by rw [if_pos rfl]⟩

/-- A completed `Flush` found the data block empty, or made three calls on the file: those of
`WriteBlock`, and `FlushBUffer`. It returns `OK` either way. -/
theorem flushVia_eq_ok (h : r.flushVia ops m = .ok (s, r')) :
    s = .ok ∧ ((r.dataBlock.empty = true ∧ r' = r) ∨
    ∃ s₁ handle r₁ s₂ file filterBlock, r.dataBlock.empty = false ∧
      r.writeBlockVia ops m .dataBlock r.pendingHandle = .ok (s₁, handle, r₁) ∧
      ops.flushBuffer r₁.file = .ok (s₂, file) ∧
      r₁.filterBlock.startBlock r₁.offset = .ok filterBlock ∧
      r' = { r₁ with
        file, filterBlock, pendingIndexEntry := true, pendingHandle := some handle }) := by
  unfold flushVia at h
  split at h
  · rename_i hempty
    cases h
    exact ⟨rfl, .inl ⟨hempty, rfl⟩⟩
  · rename_i hempty
    obtain ⟨⟨s₁, handle, r₁⟩, hwrite, h⟩ := bind_eq_ok.mp h
    obtain ⟨⟨s₂, file⟩, hflush, h⟩ := bind_eq_ok.mp h
    obtain ⟨filterBlock, hstart, h⟩ := bind_eq_ok.mp h
    cases h
    exact ⟨rfl, .inr ⟨s₁, handle, r₁, s₂, file, filterBlock, by simpa using hempty, hwrite, hflush,
      hstart, rfl⟩⟩

/-- A completed `WriteBlock` wrote its block: the trailer always fits the buffer of the file, so
its `Append` cannot fail. -/
theorem writeBlock_eq_ok {block : BlockRef} {p : Pointer BlockHandle} {handle : BlockHandle}
    (h : r.writeBlock writeToFile m block p = .ok (s, handle, r')) :
    ∃ stored contents finished file, p = some stored ∧
      (r.block block).finish m.finishStack = .ok (contents, finished) ∧
      handle = { offset := r.offset, size := UInt64.ofNat contents.size } ∧
      r' = (r.blockAppended m block contents finished file).blockWritten contents
        (trailer m contents.data) handle := by
  obtain ⟨stored, contents, finished, s₁, file₁, file₂, hstored, hfinish, -, htrailer, hhandle,
    hr'⟩ := writeBlockVia_eq_ok h
  -- the status of the first `Append` is dropped, that of the trailer is not
  have hs : s = .ok := WritableFile.status_append htrailer (by
    rw [Slice.size, length_trailer]
    decide)
  rw [if_pos hs] at hr'
  exact ⟨stored, contents, finished, file₂, hstored, hfinish, hhandle, hr'⟩

/-- A `Flush` without data does nothing. -/
theorem flush_of_empty (h : r.dataBlock.empty = true) : r.flush writeToFile m = .ok (.ok, r) :=
  if_pos h

/-- A completed `Flush` found the data block empty, or wrote it. -/
theorem flush_eq_ok (h : r.flush writeToFile m = .ok (s, r')) :
    (r.dataBlock.empty = true ∧ r' = r) ∨
    ∃ contents finished file filterBlock, r.dataBlock.empty = false ∧
      r.dataBlock.finish m.finishStack = .ok (contents, finished) ∧
      r.filterBlock.startBlock (r.offset + (UInt64.ofNat contents.size + blockTrailerSize)) =
        .ok filterBlock ∧
      r' = r.flushed m contents file filterBlock := by
  obtain ⟨-, hsame | ⟨s₁, handle, r₁, s₂, file, filterBlock, hempty, hwrite, -, hstart, rfl⟩⟩ :=
    flushVia_eq_ok h
  · exact .inl hsame
  · obtain ⟨-, contents, finished, file₁, -, hfinish, rfl, rfl⟩ := writeBlock_eq_ok hwrite
    refine .inr ⟨contents, finished, file, filterBlock, hempty, hfinish, hstart, ?_⟩
    simp only [flushed, blockWritten, blockAppended, appendedTo, setBlock, List.append_assoc]

theorem emitPending_eq_ok (h : r.emitPending m = .ok r') :
    (r.pendingIndexEntry = false ∧ r' = r) ∨
    ∃ handle, r.pendingIndexEntry = true ∧ r.pendingHandle = some handle ∧
      r' = r.emitted m handle := by
  unfold emitPending at h
  split at h
  · rename_i hpending
    obtain ⟨handle, hhandle, h⟩ := bind_eq_ok.mp h
    cases h
    exact .inr ⟨handle, hpending, deref_eq_ok hhandle, rfl⟩
  · rename_i hpending
    cases h
    exact .inl ⟨by simpa using hpending, rfl⟩

/-- **Rule for runs.** A property of the pairs added and the builder that holds at the start, and
that indexing the pending block, storing a pair while no block is pending, and writing the data
block preserve, holds after every completed run of `Add`s and `Flush`es. -/
theorem run_inv {P : List (Slice × Slice) → TableBuilder δ → Prop}
    (hemit : ∀ adds r m handle, P adds r → r.pendingIndexEntry = true →
      r.pendingHandle = some handle → P adds (r.emitted m handle))
    (hstore : ∀ adds r m key value, P adds r → r.pendingIndexEntry = false →
      P (adds ++ [(key, value)]) (r.store m key value))
    (hflush : ∀ adds r m contents finished file filterBlock, P adds r →
      r.dataBlock.empty = false → r.dataBlock.finish m.finishStack = .ok (contents, finished) →
      r.filterBlock.startBlock (r.offset + (UInt64.ofNat contents.size + blockTrailerSize)) =
        .ok filterBlock →
      P adds (r.flushed m contents file filterBlock))
    {calls : List (Ambient × Call)} (h₀ : P [] r)
    (hrun : runAll (step writeToFile) r calls = .ok r') : P (addsOf calls) r' := by
  have hflush' : ∀ adds r r' m s, P adds r → r.flush writeToFile m = .ok (s, r') → P adds r' := by
    intro adds r r' m s hP h
    rcases flush_eq_ok h with ⟨-, rfl⟩ | ⟨contents, finished, file, filter, hne, hfin, hstart, rfl⟩
    · exact hP
    · exact hflush adds r m contents finished file filter hP hne hfin hstart
  -- `Add` is up to three of the steps: emit, store, and a `Flush` of a full block
  refine runAll_inv (P := fun calls r => P (addsOf calls) r) ?_ h₀ hrun
  rintro pre ⟨m, call⟩ r r' hP hstep
  cases call with
  | flush =>
    rw [addsOf_concat_flush]
    obtain ⟨⟨s, r₁⟩, hf, hstep⟩ := bind_eq_ok.mp hstep
    cases hstep
    exact hflush' _ r _ m s hP hf
  | add key value =>
    rw [addsOf_concat_add]
    obtain ⟨⟨s, r₁⟩, hadd, hstep⟩ := bind_eq_ok.mp hstep
    cases hstep
    obtain ⟨r₂, hemitted, hadd⟩ := bind_eq_ok.mp hadd
    have hP₂ : P (addsOf pre) r₂ ∧ r₂.pendingIndexEntry = false := by
      rcases emitPending_eq_ok hemitted with ⟨hpending, rfl⟩ | ⟨handle, hpending, hhandle, rfl⟩
      · exact ⟨hP, hpending⟩
      · exact ⟨hemit _ r m handle hP hpending hhandle, rfl⟩
    have hP₃ := hstore _ r₂ m key value hP₂.1 hP₂.2
    simp only at hadd
    split at hadd
    · exact hflush' _ _ _ m s hP₃ hadd
    · cases hadd
      exact hP₃

/-! ### A new builder on zeroed memory -/

/-- What the constructor makes of zeroed memory and a new file. -/
def zeroed : TableBuilder Bytes where
  file := WritableFile.zeroed
  offset := 0
  dataBlock := BlockBuilder.reset
  indexBlock := BlockBuilder.reset
  lastKey := []
  numEntries := 0
  filterBlock := { policy := ⟨10, by decide⟩ }
  pendingIndexEntry := false
  pendingHandle := some { offset := 0, size := 0 }
  history := {}

theorem new_zeroed : new WritableFile.zeroed ⟨10, by decide⟩ Unset.zeroed = .ok zeroed := rfl

/-- Two blocks of one pair each. -/
def twoBlocks : List (Ambient × Call) :=
  [(.zeroed, .add (.single 97) (.single 98)), (.zeroed, .flush),
    (.zeroed, .add (.single 99) (.single 100)), (.zeroed, .flush)]

end TableBuilder

end TinyLeveldb
