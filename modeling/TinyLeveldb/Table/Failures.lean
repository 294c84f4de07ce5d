import TinyLeveldb.Table.FileOps

/-!
# Failing writes

The builder over a file whose `Append`s and `FlushBUffer`s return whatever a script says. No
status reaches the caller: `WriteBlock` drops that of its first `Append`, `Flush` drops those of
`WriteBlock` and `FlushBUffer`, and `Finish` returns nothing. So no failure goes unreported
exactly in the runs in which nothing fails (`everyStep_sound_iff`).
-/

namespace TinyLeveldb

open Library

/-- A scripted file: how many calls it has answered, and the slices it has accepted. -/
structure Script where
  position : ℕ := 0
  accepted : List Bytes := []

/-- Call `i` on the file returns `σ i`, and an `Append` that returns `OK` has accepted its
slice. -/
def scripted (σ : ℕ → Status) : FileOps Script where
  append f data := .ok (σ f.fd.position,
    { f with fd :=
      { position := f.fd.position + 1
        accepted :=
          if σ f.fd.position = .ok then f.fd.accepted ++ [data.data] else f.fd.accepted } })
  flushBuffer f := .ok (σ f.fd.position,
    { f with fd := { f.fd with position := f.fd.position + 1 } })

namespace TableBuilder

/-- The number of calls the file has answered. -/
abbrev position (r : TableBuilder Script) : ℕ := r.file.fd.position

/-- The slices the file has accepted. -/
abbrev accepted (r : TableBuilder Script) : List Bytes := r.file.fd.accepted

/-- A call of `Add`, `Flush` or `Finish`, and the memory it meets. -/
inductive Operation
  | add (m : Ambient) (key value : Slice)
  | flush (m : Ambient)
  | finish (m m' : Ambient) (locals : FinishLocals)

variable (σ : ℕ → Status)

/-- One call: what it returns, and the builder afterwards. `Finish` returns nothing. -/
def perform (r : TableBuilder Script) :
    Operation → Except Fault (Option Status × TableBuilder Script)
  | .add m key value => do
      let (s, r) ← r.addVia (scripted σ) m key value
      .ok (some s, r)
  | .flush m => do
      let (s, r) ← r.flushVia (scripted σ) m
      .ok (some s, r)
  | .finish m m' locals => do
      let r ← r.finishVia (scripted σ) m m' locals
      .ok (none, r)

/-! ### What must not happen -/

/-- A call inside which the file returned anything but `OK` returns something other than `OK`. -/
def Reported (r : TableBuilder Script) (result : Option Status) (r' : TableBuilder Script) : Prop :=
  (∃ i, r.position ≤ i ∧ i < r'.position ∧ σ i ≠ .ok) → ∃ s, result = some s ∧ s ≠ .ok

/-- The calls of `WriteBlock` that an operation on `r` makes: the memory they meet, the block, the
handle, and the builder they are made on. -/
inductive Writes (r : TableBuilder Script) :
    Operation → Ambient → BlockRef → Pointer BlockHandle → TableBuilder Script → Prop
  | add {m : Ambient} {key value : Slice} {r₁ : TableBuilder Script} :
      r.emitPending m = .ok r₁ →
      (r₁.store m key value).dataBlock.currentSizeEstimate ≥ 1000 →
      (r₁.store m key value).dataBlock.empty = false →
      Writes r (.add m key value) m .dataBlock (r₁.store m key value).pendingHandle
        (r₁.store m key value)
  | flush {m : Ambient} : r.dataBlock.empty = false →
      Writes r (.flush m) m .dataBlock r.pendingHandle r
  | finishData {m m' : Ambient} {locals : FinishLocals} : r.dataBlock.empty = false →
      Writes r (.finish m m' locals) m .dataBlock r.pendingHandle r
  | finishIndex {m m' : Ambient} {locals : FinishLocals} {s : Status} {r₁ : TableBuilder Script}
      {handle : BlockHandle} {coding : Bytes} :
      r.flushVia (scripted σ) m = .ok (s, r₁) → r₁.pendingIndexEntry = true →
      r₁.pendingHandle = some handle → locals.handleCoding = some coding →
      Writes r (.finish m m' locals) m' .indexBlock locals.indexHandle
        (r₁.addIndexEntry m' handle (handle.encodeTo coding))

/-- The file accepted the whole block and its trailer. -/
def WholeBlock (m : Ambient) (block : BlockRef) (r r' : TableBuilder Script) : Prop :=
  ∃ contents finished, (r.block block).finish m.finishStack = .ok (contents, finished) ∧
    r'.accepted = r.accepted ++ [contents.data, (trailer m contents.data).data]

/-- What a `WriteBlock` must leave as it was when the block is not whole in the file. -/
structure Untouched (p : Pointer BlockHandle) (handle : BlockHandle)
    (r r' : TableBuilder Script) : Prop where
  offset : r'.offset = r.offset
  pendingIndexEntry : r'.pendingIndexEntry = r.pendingIndexEntry
  handle : p = some handle
  dataBlock : r'.dataBlock = r.dataBlock

/-- Every block whose handle was passed to `index_block.Add` is in the file. -/
def Indexed (r : TableBuilder Script) : Prop :=
  ∀ p ∈ r.history.indexed, ∃ b ∈ r.history.blocks, b.handle = p.2 ∧
    [b.contents, b.trailer] <:+: r.accepted

/-- An operation hides no failure. -/
structure Sound (r : TableBuilder Script) (op : Operation) (result : Option Status)
    (r' : TableBuilder Script) : Prop where
  reported : Reported σ r result r'
  written : ∀ m block p r₁, Writes σ r op m block p r₁ → ∀ s handle r₂,
    r₁.writeBlockVia (scripted σ) m block p = .ok (s, handle, r₂) →
      WholeBlock m block r₁ r₂ ∨ Untouched p handle r₁ r₂
  indexed : Indexed r'

/-! ### The calls on the file -/

/-- The calls on the file that `Flush` makes of a data block. -/
def flushCalls (dataBlock : BlockBuilder) : ℕ := if dataBlock.empty then 0 else 3

/-- The calls on the file that an operation makes. -/
def fileCalls (r : TableBuilder Script) : Operation → ℕ
  | .add m key value =>
      let dataBlock := r.dataBlock.add m.dataStack key.cString value.cString
      if dataBlock.currentSizeEstimate ≥ 1000 then flushCalls dataBlock else 0
  | .flush _ => flushCalls r.dataBlock
  | .finish _ _ _ =>
      flushCalls r.dataBlock + (if r.pendingIndexEntry || !r.dataBlock.empty then 2 else 0) + 1

/-- Every call on the file that the operation makes returns `OK`. -/
def Accepted (r : TableBuilder Script) (op : Operation) : Prop :=
  ∀ i, r.position ≤ i → i < r.position + r.fileCalls op → σ i = .ok

variable {σ} {m m' : Ambient} {r r' : TableBuilder Script} {s : Status}

theorem append_scripted {f f' : WritableFile Script} {data : Slice}
    (h : (scripted σ).append f data = .ok (s, f')) :
    s = σ f.fd.position ∧ f'.fd.position = f.fd.position + 1 ∧
      (s = .ok → f'.fd.accepted = f.fd.accepted ++ [data.data]) := by
  cases h
  exact ⟨rfl, rfl, fun hs => if_pos hs⟩

/-- The file answers `WriteBlock` twice, and `WriteBlock` returns the second answer. -/
theorem position_writeBlock {block : BlockRef} {p : Pointer BlockHandle} {handle : BlockHandle}
    (h : r.writeBlockVia (scripted σ) m block p = .ok (s, handle, r')) :
    r'.position = r.position + 2 := by
  obtain ⟨-, contents, finished, s₁, file₁, file₂, -, -, hfile₁, hfile₂, -, rfl⟩ :=
    writeBlockVia_eq_ok h
  rw [position, apply_ite file, apply_ite WritableFile.fd, apply_ite Script.position]
  change (if s = .ok then file₂.fd.position else file₂.fd.position) = r.position + 2
  rw [ite_self, (append_scripted hfile₂).2.1, (append_scripted hfile₁).2.1]

theorem position_flush (h : r.flushVia (scripted σ) m = .ok (s, r')) :
    r'.position = r.position + flushCalls r.dataBlock := by
  obtain ⟨-, ⟨hempty, rfl⟩ | ⟨s₁, handle, r₁, s₂, file, filterBlock, hempty, hwrite, hflush, -,
    rfl⟩⟩ := flushVia_eq_ok h
  · rw [flushCalls, if_pos hempty, Nat.add_zero]
  · cases hflush
    rw [flushCalls, if_neg (by simp [hempty])]
    exact congrArg Nat.succ (position_writeBlock hwrite)

/-- `Flush` leaves a block pending that it wrote, or what was pending before. -/
theorem pending_flush (h : r.flushVia (scripted σ) m = .ok (s, r')) :
    r'.pendingIndexEntry = (r.pendingIndexEntry || !r.dataBlock.empty) := by
  obtain ⟨-, ⟨hempty, rfl⟩ | ⟨s₁, handle, r₁, s₂, file, filterBlock, hempty, -, -, -, rfl⟩⟩ :=
    flushVia_eq_ok h
  · simp [hempty]
  · simp [hempty]

theorem emitPending_frame (h : r.emitPending m = .ok r') :
    r'.file = r.file ∧ r'.dataBlock = r.dataBlock := by
  rcases emitPending_eq_ok h with ⟨-, rfl⟩ | ⟨handle, -, -, rfl⟩ <;> exact ⟨rfl, rfl⟩

theorem position_add {key value : Slice} (h : r.addVia (scripted σ) m key value = .ok (s, r')) :
    r'.position = r.position + r.fileCalls (.add m key value) := by
  obtain ⟨r₁, hemit, h⟩ := addVia_eq_ok h
  obtain ⟨hfile, hdata⟩ := emitPending_frame hemit
  have hstored : (r₁.store m key value).dataBlock =
      r.dataBlock.add m.dataStack key.cString value.cString := by rw [dataBlock_store, hdata]
  have hposition : (r₁.store m key value).position = r.position := congrArg (·.fd.position) hfile
  rw [hstored] at h
  rw [fileCalls]
  split at h
  · rename_i hfull
    rw [if_pos hfull, position_flush h, hposition, hstored]
  · rename_i hfull
    obtain ⟨-, rfl⟩ := h
    rw [if_neg hfull, hposition, Nat.add_zero]

theorem position_finish {locals : FinishLocals}
    (h : r.finishVia (scripted σ) m m' locals = .ok r') :
    r'.position = r.position + r.fileCalls (.finish m m' locals) := by
  obtain ⟨s₁, r₁, handle, r₂, coding, footer, s₂, f, hflush, hindex, -, -, happend, rfl⟩ :=
    finishVia_eq_ok h
  cases happend
  have hindexed : r₂.position = r₁.position + if r₁.pendingIndexEntry then 2 else 0 := by
    rcases writeIndexVia_eq_ok hindex with ⟨hpending, -, rfl⟩ |
      ⟨handle', coding', s', written, hpending, -, -, -, hwrite⟩
    · simp [hpending]
    · rw [if_pos hpending, position_writeBlock hwrite]
      rfl
  rw [pending_flush hflush] at hindexed
  change r₂.position + 1 = _
  rw [hindexed, position_flush hflush, fileCalls]
  omega

theorem position_perform {op : Operation} {result : Option Status}
    (h : r.perform σ op = .ok (result, r')) :
    r'.position = r.position + r.fileCalls op ∧ (result = some .ok ∨ result = none) := by
  cases op with
  | add m key value =>
    obtain ⟨⟨s, r₁⟩, hadd, h⟩ := bind_eq_ok.mp h
    cases h
    refine ⟨position_add hadd, .inl ?_⟩
    obtain ⟨r₂, -, hadd⟩ := addVia_eq_ok hadd
    split at hadd
    · rw [(flushVia_eq_ok hadd).1]
    · rw [hadd.1]
  | flush m =>
    obtain ⟨⟨s, r₁⟩, hflush, h⟩ := bind_eq_ok.mp h
    cases h
    exact ⟨position_flush hflush, .inl (by rw [(flushVia_eq_ok hflush).1])⟩
  | finish m m' locals =>
    obtain ⟨r₁, hfinish, h⟩ := bind_eq_ok.mp h
    cases h
    exact ⟨position_finish hfinish, .inr rfl⟩

/-- No operation ever returns a failure, so failures are reported only where there are none. -/
theorem reported_iff {op : Operation} {result : Option Status}
    (h : r.perform σ op = .ok (result, r')) : Reported σ r result r' ↔ Accepted σ r op := by
  obtain ⟨hposition, hresult⟩ := position_perform h
  rw [Reported, hposition]
  constructor
  · intro hreported i hle hlt
    by_contra hfail
    obtain ⟨s, hs, hne⟩ := hreported ⟨i, hle, hlt, hfail⟩
    rcases hresult with hres | hres <;> rw [hres] at hs
    · exact hne (Option.some.inj hs).symm
    · cases hs
  · rintro haccepted ⟨i, hle, hlt, hfail⟩
    exact absurd (haccepted i hle hlt) hfail

/-! ### Runs without failures -/

/-- The blocks that count as written are in the file, and so are those that are or will be
indexed. -/
structure BlocksInFile (r : TableBuilder Script) : Prop where
  blocks : ∀ b ∈ r.history.blocks, [b.contents, b.trailer] <:+: r.accepted
  pending : r.pendingIndexEntry = true → ∀ handle, r.pendingHandle = some handle →
    ∃ b ∈ r.history.blocks, b.handle = handle
  indexed : ∀ p ∈ r.history.indexed, ∃ b ∈ r.history.blocks, b.handle = p.2

theorem BlocksInFile.toIndexed (h : r.BlocksInFile) : r.Indexed := by
  intro p hp
  obtain ⟨b, hb, hhandle⟩ := h.indexed p hp
  exact ⟨b, hb, hhandle, h.blocks b hb⟩

/-- A `WriteBlock` whose two appends are accepted adds one block, which is in the file. -/
theorem writeBlock_accepted {block : BlockRef} {p : Pointer BlockHandle} {handle : BlockHandle}
    (h : r.writeBlockVia (scripted σ) m block p = .ok (s, handle, r'))
    (hfirst : σ r.position = .ok) (hsecond : σ (r.position + 1) = .ok) :
    WholeBlock m block r r' ∧ ∃ b, b.handle = handle ∧
      r'.history.blocks = r.history.blocks ++ [b] ∧
      r'.accepted = r.accepted ++ [b.contents, b.trailer] ∧
      r'.history.indexed = r.history.indexed ∧ r'.pendingIndexEntry = r.pendingIndexEntry ∧
      r'.pendingHandle = r.pendingHandle := by
  obtain ⟨-, contents, finished, s₁, file₁, file₂, -, hfinish, hfile₁, hfile₂, rfl, rfl⟩ :=
    writeBlockVia_eq_ok h
  obtain ⟨hs₁, hposition₁, haccepted₁⟩ := append_scripted hfile₁
  obtain ⟨hs, -, haccepted₂⟩ := append_scripted hfile₂
  rw [hposition₁, hsecond] at hs
  have haccepted : file₂.fd.accepted =
      r.accepted ++ [contents.data, (trailer m contents.data).data] := by
    rw [haccepted₂ hs, haccepted₁ (hs₁.trans hfirst), List.append_assoc]
    rfl
  rw [if_pos hs]
  refine ⟨⟨contents, finished, hfinish, haccepted⟩, ?_⟩
  refine ⟨{ contents := contents.data, trailer := (trailer m contents.data).data, handle := _,
            adds := r.history.current }, rfl, ?_, haccepted, ?_⟩
  · cases block <;> rfl
  · cases block <;> exact ⟨rfl, rfl, rfl⟩

/-- Once the file has accepted everything, each `WriteBlock` of an operation is accepted. -/
theorem Writes.accepted {op : Operation} {block : BlockRef} {p : Pointer BlockHandle}
    {r₁ : TableBuilder Script} (hw : Writes σ r op m block p r₁) (h : Accepted σ r op) :
    σ r₁.position = .ok ∧ σ (r₁.position + 1) = .ok := by
  have hblock : r.position ≤ r₁.position ∧ r₁.position + 2 ≤ r.position + r.fileCalls op := by
    cases hw with
    | @add m key value r₂ hemit hfull hempty =>
      obtain ⟨hfile, hdata⟩ := emitPending_frame hemit
      rw [dataBlock_store, hdata] at hfull hempty
      have hposition : (r₂.store m key value).position = r.position :=
        congrArg (·.fd.position) hfile
      rw [hposition, fileCalls, if_pos hfull, flushCalls, if_neg (by simp [hempty])]
      omega
    | flush hempty =>
      rw [fileCalls, flushCalls, if_neg (by simp [hempty])]
      omega
    | finishData hempty =>
      rw [fileCalls, flushCalls, if_neg (by simp [hempty])]
      omega
    | @finishIndex _ _ _ _ r₂ handle coding hflush hpending _ _ =>
      have hposition : (r₂.addIndexEntry m handle (handle.encodeTo coding)).position =
          r.position + flushCalls r.dataBlock := by
        change r₂.position = _
        exact position_flush hflush
      rw [pending_flush hflush] at hpending
      rw [hposition, fileCalls, if_pos hpending]
      omega
  exact ⟨h _ hblock.1 (by omega), h _ (by omega) (by omega)⟩

theorem BlocksInFile.writeBlock (hr : r.BlocksInFile) {block : BlockRef} {p : Pointer BlockHandle}
    {handle : BlockHandle} (h : r.writeBlockVia (scripted σ) m block p = .ok (s, handle, r'))
    (hfirst : σ r.position = .ok) (hsecond : σ (r.position + 1) = .ok) :
    r'.BlocksInFile ∧ ∃ b ∈ r'.history.blocks, b.handle = handle := by
  obtain ⟨-, b, hb, hblocks, haccepted, hindexed, hpending, hhandle⟩ :=
    writeBlock_accepted h hfirst hsecond
  have hmono : r.history.blocks ⊆ r'.history.blocks := by simp [hblocks]
  refine ⟨⟨?_, ?_, ?_⟩, b, by simp [hblocks], hb⟩
  · intro b' hb'
    rw [haccepted]
    rw [hblocks] at hb'
    rcases List.mem_append.mp hb' with hb' | hb'
    · exact (hr.blocks b' hb').trans (List.infix_append' [] _ _)
    · obtain rfl := List.mem_singleton.mp hb'
      exact (List.suffix_append _ _).isInfix
  · intro hpending' stored hstored
    rw [hpending] at hpending'
    rw [hhandle] at hstored
    obtain ⟨b', hb', hstored'⟩ := hr.pending hpending' stored hstored
    exact ⟨b', hmono hb', hstored'⟩
  · intro q hq
    rw [hindexed] at hq
    obtain ⟨b', hb', hq'⟩ := hr.indexed q hq
    exact ⟨b', hmono hb', hq'⟩

theorem BlocksInFile.addIndexEntry (hr : r.BlocksInFile) {handle : BlockHandle}
    (hpending : r.pendingIndexEntry = true) (hhandle : r.pendingHandle = some handle)
    (coding : Bytes) : (r.addIndexEntry m handle coding).BlocksInFile := by
  refine ⟨hr.blocks, hr.pending, ?_⟩
  intro p hp
  rcases List.mem_append.mp hp with hp | hp
  · exact hr.indexed p hp
  · obtain rfl := List.mem_singleton.mp hp
    exact hr.pending hpending handle hhandle

theorem BlocksInFile.emitPending (hr : r.BlocksInFile) (h : r.emitPending m = .ok r') :
    r'.BlocksInFile := by
  rcases emitPending_eq_ok h with ⟨-, rfl⟩ | ⟨handle, hpending, hhandle, rfl⟩
  · exact hr
  · have hadded := hr.addIndexEntry (m := m) hpending hhandle (handle.encodeTo [])
    exact ⟨hadded.blocks, fun hfalse => Bool.noConfusion hfalse, hadded.indexed⟩

theorem BlocksInFile.flush (hr : r.BlocksInFile) (h : r.flushVia (scripted σ) m = .ok (s, r'))
    (haccepted : Accepted σ r (.flush m)) : r'.BlocksInFile := by
  obtain ⟨-, ⟨-, rfl⟩ | ⟨s₁, handle, r₁, s₂, file, filterBlock, hempty, hwrite, hflush, -, rfl⟩⟩ :=
    flushVia_eq_ok h
  · exact hr
  · obtain ⟨hfirst, hsecond⟩ := (Writes.flush hempty).accepted haccepted
    obtain ⟨hr₁, b, hb, hhandle⟩ := hr.writeBlock hwrite hfirst hsecond
    cases hflush
    refine ⟨hr₁.blocks, ?_, hr₁.indexed⟩
    rintro - stored hstored
    obtain rfl := Option.some.inj hstored
    exact ⟨b, hb, hhandle⟩

theorem BlocksInFile.perform (hr : r.BlocksInFile) {op : Operation} {result : Option Status}
    (h : r.perform σ op = .ok (result, r')) (haccepted : Accepted σ r op) : r'.BlocksInFile := by
  cases op with
  | add m key value =>
    obtain ⟨⟨s, r₁⟩, hadd, h⟩ := bind_eq_ok.mp h
    cases h
    obtain ⟨r₂, hemit, hadd⟩ := addVia_eq_ok hadd
    have hr₂ := hr.emitPending hemit
    have hstored : (r₂.store m key value).BlocksInFile := ⟨hr₂.blocks, hr₂.pending, hr₂.indexed⟩
    obtain ⟨hfile, hdata⟩ := emitPending_frame hemit
    have hposition : (r₂.store m key value).position = r.position := congrArg (·.fd.position) hfile
    split at hadd
    · rename_i hfull
      refine hstored.flush hadd fun i hle hlt => haccepted i (by rwa [← hposition]) ?_
      rw [dataBlock_store, hdata] at hfull
      rw [hposition, fileCalls, dataBlock_store, hdata] at hlt
      rwa [fileCalls, if_pos hfull]
    · obtain ⟨-, rfl⟩ := hadd
      exact hstored
  | flush m =>
    obtain ⟨⟨s, r₁⟩, hflush, h⟩ := bind_eq_ok.mp h
    cases h
    exact hr.flush hflush haccepted
  | finish m m' locals =>
    obtain ⟨r₃, hfinish, h⟩ := bind_eq_ok.mp h
    cases h
    obtain ⟨s₁, r₁, handle, r₂, coding, footer, s₂, f, hflush, hindex, -, -, happend, rfl⟩ :=
      finishVia_eq_ok hfinish
    have hcalls : r.fileCalls (.flush m) ≤ r.fileCalls (.finish m m' locals) := by
      simp only [fileCalls]
      omega
    have hr₁ : r₁.BlocksInFile :=
      hr.flush hflush fun i hle hlt => haccepted i hle (hlt.trans_le (by omega))
    have hr₂ : r₂.BlocksInFile := by
      rcases writeIndexVia_eq_ok hindex with ⟨-, -, rfl⟩ |
        ⟨handle', coding', s', written, hpending, hhandle, hcoding, -, hwrite⟩
      · exact hr₁
      · obtain ⟨hfirst, hsecond⟩ :=
          (Writes.finishIndex hflush hpending hhandle hcoding).accepted haccepted
        exact ((hr₁.addIndexEntry hpending hhandle _).writeBlock hwrite hfirst hsecond).1
    refine ⟨fun b hb => ?_, hr₂.pending, hr₂.indexed⟩
    -- the footer goes behind the blocks
    have hblock : [b.contents, b.trailer] <:+: r₂.accepted := hr₂.blocks b hb
    cases happend
    change [b.contents, b.trailer] <:+:
      if σ r₂.position = .ok then r₂.accepted ++ [footer.data] else r₂.accepted
    split
    · exact hblock.trans (List.infix_append' [] _ _)
    · exact hblock

/-- **When no failure is silent.** From a new builder that has nothing pending, every operation of
a run reports its failures, leaves a block that is not whole in the file as it was, and indexes
blocks of the file only, exactly when every call the operation makes on the file succeeds. -/
theorem everyStep_sound_iff {file : WritableFile Script} {policy : BloomFilterPolicy}
    {unset : Unset} {r₀ : TableBuilder Script} (hnew : new file policy unset = .ok r₀)
    (hpending : unset.pendingIndexEntry = false) (ops : List Operation) :
    EveryStep (perform σ) (Sound σ) r₀ ops ↔
      EveryStep (perform σ) (fun r op _ _ => Accepted σ r op) r₀ ops := by
  obtain ⟨-, -, hpending₀, hhistory⟩ := new_eq_ok hnew
  have h₀ : r₀.BlocksInFile := by
    refine ⟨by simp [hhistory], fun h => ?_, by simp [hhistory]⟩
    rw [hpending₀, hpending] at h
    cases h
  refine everyStep_iff (fun r op result r' hr h => ?_) (fun r op result r' hr h => ?_) h₀
  · constructor
    · intro hsound
      exact (reported_iff h).mp hsound.reported
    · intro haccepted
      refine ⟨(reported_iff h).mpr haccepted, ?_, (hr.perform h haccepted).toIndexed⟩
      intro m block p r₁ hwrites s handle r₂ hwrite
      obtain ⟨hfirst, hsecond⟩ := hwrites.accepted haccepted
      exact .inl (writeBlock_accepted hwrite hfirst hsecond).1
  · exact hr.perform h

/-- The file on zeroed memory, before its first call. -/
def scriptedFile : WritableFile Script where
  fd := {}
  buffer := List.replicate maxBufferSize 0
  hasBufferSize := 0

/-- The builder of that file on zeroed memory. -/
def scriptedBuilder : TableBuilder Script where
  file := scriptedFile
  offset := 0
  dataBlock := BlockBuilder.reset
  indexBlock := BlockBuilder.reset
  lastKey := []
  numEntries := 0
  filterBlock := zeroed.filterBlock
  pendingIndexEntry := false
  pendingHandle := some { offset := 0, size := 0 }
  history := {}

/-- Adding the pair `("a", "b")`, and flushing it. -/
def addAndFlush : List Operation :=
  [.add .zeroed (.single 97) (.single 98), .flush .zeroed]

/-- When every call on the file succeeds, the pair is added and flushed soundly. -/
theorem sound_addAndFlush :
    EveryStep (perform fun _ => .ok) (Sound fun _ => .ok) scriptedBuilder addAndFlush ∧
      ∃ r s r', scriptedBuilder.perform (fun _ => .ok) (.add .zeroed (.single 97) (.single 98)) =
          .ok (some .ok, r) ∧ r.perform (fun _ => .ok) (.flush .zeroed) = .ok (s, r') := by
  have hnew : new scriptedFile ⟨10, by decide⟩ Unset.zeroed = .ok scriptedBuilder := rfl
  refine ⟨(everyStep_sound_iff hnew rfl addAndFlush).mpr fun _ _ _ => ?_, _, _, _, rfl, rfl⟩
  exact ⟨fun _ _ _ => rfl, fun _ _ _ => ⟨fun _ _ _ => rfl, trivial⟩⟩

/-- Only the first call on the file fails. -/
def firstFails (i : ℕ) : Status := if i = 0 then .ioError else .ok

/-- The contents of the block are lost, and `Flush` returns `OK`. -/
theorem not_sound_addAndFlush :
    ¬ EveryStep (perform firstFails) (Sound firstFails) scriptedBuilder addAndFlush := by
  intro hsound
  have hresults : ((do
      let (s, r) ← scriptedBuilder.perform firstFails
        (.add .zeroed ⟨[97], [], by decide⟩ ⟨[98], [], by decide⟩)
      let (s', r') ← r.perform firstFails (.flush .zeroed)
      .ok (s, r.position, s', r'.position)) :
        Except Fault (Option Status × ℕ × Option Status × ℕ)) =
      .ok (some .ok, 0, some .ok, 3) := rfl
  obtain ⟨⟨s, r⟩, hadd, hresults⟩ := bind_eq_ok.mp hresults
  obtain ⟨⟨s', r'⟩, hflush, hresults⟩ := bind_eq_ok.mp hresults
  simp only [Except.ok.injEq, Prod.mk.injEq] at hresults
  obtain ⟨-, hposition, hs', hposition'⟩ := hresults
  have hreported := ((hsound s r hadd).2 s' r' hflush).1.reported
  obtain ⟨status, hstatus, hne⟩ := hreported ⟨0, by omega, by omega, by decide⟩
  rw [hs'] at hstatus
  exact hne (Option.some.inj hstatus).symm

end TableBuilder

end TinyLeveldb
