import TinyLeveldb.Table.Builder
import Mathlib.Data.List.TakeWhile

/-!
# What lies behind a slice

`Add` hands its key to the filter, to the index and to the data block, and its value to the data
block. The filter and the index get the bytes that the slice denotes. The data block gets the C
strings at the data pointers: less than the slice where there is a NUL in it, and what lies behind
the slice where there is none.

For slices that end where their C strings end, what lies behind them is forgotten: `bare` is the
builder that never saw it, and every step of a run commutes with `bare`. So runs that add the same
contents write the same blocks.
-/

namespace TinyLeveldb

open Library

namespace Slice

/-- There is no NUL in the slice, and one behind it. -/
def Terminated (s : Slice) : Prop := 0 ∉ s.data ∧ ∀ b ∈ s.after.head?, b = 0

theorem cString_eq_data_iff {s : Slice} : s.cString = s.data ↔ s.Terminated := by
  rw [cString, TinyLeveldb.cString]
  constructor
  · intro h
    have hnul : 0 ∉ s.data := by
      rw [← h]
      intro hmem
      simpa using List.mem_takeWhile_imp hmem
    refine ⟨hnul, fun b hb => ?_⟩
    obtain ⟨l, hl⟩ := List.head?_eq_some_iff.mp hb
    by_contra hne
    rw [List.takeWhile_append_of_pos fun a ha => by simpa using ne_of_mem_of_not_mem ha hnul,
      List.append_right_eq_self, hl, List.takeWhile_cons_of_pos (by simpa using hne)] at h
    cases h
  · rintro ⟨hnul, hafter⟩
    rw [List.takeWhile_append_of_pos fun a ha => by simpa using ne_of_mem_of_not_mem ha hnul,
      List.append_right_eq_self]
    rcases hs : s.after with _ | ⟨b, l⟩
    · rfl
    · have hb : b = 0 := hafter b (by rw [hs]; rfl)
      exact List.takeWhile_cons_of_neg (by simpa using hb)

/-- The same bytes, with a NUL behind them. -/
def bare (s : Slice) : Slice := { s with after := [] }

theorem Terminated.cString_bare {s : Slice} (h : s.Terminated) : s.bare.cString = s.cString := by
  rw [cString_eq_data_iff.mpr h]
  exact cString_eq_data_iff.mpr ⟨h.1, by simp [bare]⟩

end Slice

/-- The bytes of a key and a value. -/
def Handed.ofData (key value : Bytes) : Handed where
  filterKey := key
  lastKey := key
  dataKey := key
  dataValue := value

namespace TableBuilder

variable {δ : Type} {ops : FileOps δ} {writeToFile : δ → Bytes → Except Fault (Status × δ)}
  {m : Ambient} {r : TableBuilder δ}

/-- What is handed on is what the slices denote exactly when both of them end where their C strings
do. -/
theorem handed_eq_iff {key value : Slice} :
    handed key value = Handed.ofData key.data value.data ↔ key.Terminated ∧ value.Terminated := by
  rw [← Slice.cString_eq_data_iff, ← Slice.cString_eq_data_iff]
  simp [handed, Handed.ofData]

/-! ### Forgetting what lies behind the slices -/

/-- The pairs, as they would have been added with a NUL behind them. -/
def bareAdds (adds : List (Slice × Slice)) : List (Slice × Slice) :=
  adds.map (Prod.map Slice.bare Slice.bare)

/-- The builder as it would have been with a NUL behind every slice. -/
def bare (r : TableBuilder δ) : TableBuilder δ :=
  { r with
    history := { r.history with
      blocks := r.history.blocks.map fun b => { b with adds := bareAdds b.adds }
      current := bareAdds r.history.current } }

/-- The call with a NUL behind its slices. -/
def Call.bare : Call → Call
  | .add key value => .add key.bare value.bare
  | .flush => .flush

/-- The slices of the call end where their C strings do. -/
def Call.Terminated : Call → Prop
  | .add key value => key.Terminated ∧ value.Terminated
  | .flush => True

theorem appendVia_bare (r : TableBuilder δ) (data : Slice) :
    r.bare.appendVia ops data = (r.appendVia ops data).map (Prod.map id bare) :=
  bind_eq_map fun _ => rfl

theorem blockWritten_bare (r : TableBuilder δ) (contents trailer : Slice) (handle : BlockHandle) :
    r.bare.blockWritten contents trailer handle =
      (r.blockWritten contents trailer handle).bare := by
  simp [blockWritten, bare, bareAdds]

theorem writeBlockVia_bare (r : TableBuilder δ) (block : BlockRef) (p : Pointer BlockHandle) :
    r.bare.writeBlockVia ops m block p =
      (r.writeBlockVia ops m block p).map (Prod.map id (Prod.map id bare)) := by
  have hblock : r.bare.block block = r.block block := by cases block <;> rfl
  rw [writeBlockVia, writeBlockVia, hblock]
  refine bind_eq_map fun ⟨contents, finished⟩ => ?_
  have hset : r.bare.setBlock finished block = (r.setBlock finished block).bare := by
    cases block <;> rfl
  simp only [hset, appendVia_bare]
  refine map_bind_eq fun ⟨s, r₁⟩ => bind_eq_map fun stored => ?_
  simp only [Prod.map, appendVia_bare]
  refine map_bind_eq fun ⟨s', r₂⟩ => ?_
  simp only [Prod.map, id_eq]
  split
  · rfl
  · rw [blockWritten_bare]
    rfl

theorem flushVia_bare (r : TableBuilder δ) :
    r.bare.flushVia ops m = (r.flushVia ops m).map (Prod.map id bare) := by
  rw [flushVia, flushVia, show r.bare.dataBlock = r.dataBlock from rfl]
  split
  · rfl
  · rw [show r.bare.pendingHandle = r.pendingHandle from rfl, writeBlockVia_bare]
    exact map_bind_eq fun ⟨s, handle, r₁⟩ => bind_eq_map fun ⟨s', file⟩ =>
      bind_eq_map fun filterBlock => rfl

theorem emitPending_bare (r : TableBuilder δ) :
    r.bare.emitPending m = (r.emitPending m).map bare := by
  rw [emitPending, emitPending, show r.bare.pendingIndexEntry = r.pendingIndexEntry from rfl]
  split
  · exact bind_eq_map fun handle => rfl
  · rfl

theorem handed_bare {key value : Slice} (hkey : key.Terminated) (hvalue : value.Terminated) :
    handed key.bare value.bare = handed key value := by
  rw [handed, hkey.cString_bare, hvalue.cString_bare]
  rfl

theorem store_bare {key value : Slice} (hkey : key.Terminated) (hvalue : value.Terminated) :
    r.bare.store m key.bare value.bare = (r.store m key value).bare := by
  rw [store, handed_bare hkey hvalue]
  simp [store, bare, bareAdds]

theorem addVia_bare (r : TableBuilder δ) {key value : Slice} (hkey : key.Terminated)
    (hvalue : value.Terminated) :
    r.bare.addVia ops m key.bare value.bare =
      (r.addVia ops m key value).map (Prod.map id bare) := by
  rw [addVia, addVia, emitPending_bare]
  refine map_bind_eq fun r₁ => ?_
  simp only [store_bare hkey hvalue]
  change (if (r₁.store m key value).dataBlock.currentSizeEstimate ≥ 1000 then _ else _) = _
  split
  · exact flushVia_bare _
  · rfl

/-- **Step lemma.** A call whose slices end where their C strings do makes the same of the builder,
whatever lies behind its slices. -/
theorem step_bare (r : TableBuilder δ) {c : Ambient × Call} (hc : c.2.Terminated) :
    r.bare.step writeToFile (Prod.map id Call.bare c) = (r.step writeToFile c).map bare := by
  obtain ⟨m, call⟩ := c
  rcases call with ⟨key, value⟩ | _
  · change (r.bare.addVia (.ofWriteToFile writeToFile) m key.bare value.bare >>= _) = _
    rw [addVia_bare r hc.1 hc.2]
    exact map_bind_eq fun ⟨s, r₁⟩ => rfl
  · change (r.bare.flushVia (.ofWriteToFile writeToFile) m >>= _) = _
    rw [flushVia_bare]
    exact map_bind_eq fun ⟨s, r₁⟩ => rfl

theorem writeIndexVia_bare (r : TableBuilder δ) (locals : FinishLocals) :
    r.bare.writeIndexVia ops m locals =
      (r.writeIndexVia ops m locals).map (Prod.map id bare) := by
  rw [writeIndexVia, writeIndexVia, show r.bare.pendingIndexEntry = r.pendingIndexEntry from rfl,
    show r.bare.pendingHandle = r.pendingHandle from rfl]
  split
  · refine bind_eq_map fun handle => bind_eq_map fun coding => ?_
    change ((r.addIndexEntry m handle (handle.encodeTo coding)).bare.writeBlockVia ops m
      .indexBlock locals.indexHandle >>= _) = _
    rw [writeBlockVia_bare]
    exact map_bind_eq fun ⟨s, indexHandle, r₁⟩ => rfl
  · rfl

theorem finishVia_bare (r : TableBuilder δ) (m m' : Ambient) (locals : FinishLocals) :
    r.bare.finishVia ops m m' locals = (r.finishVia ops m m' locals).map bare := by
  rw [finishVia, finishVia, flushVia_bare]
  refine map_bind_eq fun ⟨s, r₁⟩ => ?_
  simp only [Prod.map, writeIndexVia_bare]
  refine map_bind_eq fun ⟨p, r₂⟩ => bind_eq_map fun indexHandle => bind_eq_map fun coding =>
    bind_eq_map fun footer => ?_
  simp only [Prod.map, appendVia_bare]
  exact map_bind_eq fun ⟨s', r₃⟩ => rfl

/-! ### Two tables -/

/-- A run of calls, and perhaps a `Finish`. -/
def build (writeToFile : δ → Bytes → Except Fault (Status × δ)) (r : TableBuilder δ)
    (calls : List (Ambient × Call)) (last : Option (Ambient × Ambient × FinishLocals)) :
    Except Fault (TableBuilder δ) := do
  let r ← runAll (step writeToFile) r calls
  match last with
  | none => .ok r
  | some (m, m', locals) => r.finish writeToFile m m' locals

/-- The contents, the trailer and the handle of every block. -/
def writtenBlocks (r : TableBuilder δ) : List (Bytes × Bytes × BlockHandle) :=
  r.history.blocks.map fun b => (b.contents, b.trailer, b.handle)

/-- The calls add slices of the same contents. -/
def SameContents (calls calls' : List (Ambient × Call)) : Prop :=
  calls.map (Prod.map id Call.bare) = calls'.map (Prod.map id Call.bare)

theorem writtenBlocks_bare (r : TableBuilder δ) : r.bare.writtenBlocks = r.writtenBlocks := by
  simp [writtenBlocks, bare]

/-- **Run lemma.** -/
theorem build_bare (r : TableBuilder δ) {calls : List (Ambient × Call)}
    (hcalls : ∀ c ∈ calls, c.2.Terminated) (last : Option (Ambient × Ambient × FinishLocals)) :
    r.bare.build writeToFile (calls.map (Prod.map id Call.bare)) last =
      (r.build writeToFile calls last).map bare := by
  rw [build, build, runAll_map (fun s c hc => step_bare s (hcalls c hc))]
  refine map_bind_eq fun r₁ => ?_
  rcases last with _ | ⟨m, m', locals⟩
  · rfl
  · exact finishVia_bare r₁ m m' locals

/-- **What `Add` sees of its slices.** It hands the same bytes to the filter, the index and the data
block, those of the slices, exactly when the slices have no NUL in them and one behind them. Two
runs of such `Add`s with the same contents write the same blocks. -/
theorem handed_eq_iff_and_writtenBlocks_eq :
    (∀ key value : Slice,
      handed key value = Handed.ofData key.data value.data ↔
        key.Terminated ∧ value.Terminated) ∧
    ∀ (writeToFile : δ → Bytes → Except Fault (Status × δ)) (r₀ r : TableBuilder δ)
      (calls calls' : List (Ambient × Call)) (last : Option (Ambient × Ambient × FinishLocals)),
      (∀ c ∈ calls, c.2.Terminated) → (∀ c ∈ calls', c.2.Terminated) →
      SameContents calls calls' → r₀.build writeToFile calls last = .ok r →
      ∃ r', r₀.build writeToFile calls' last = .ok r' ∧ r'.writtenBlocks = r.writtenBlocks ∧
        r'.history.appended = r.history.appended := by
  refine ⟨fun key value => handed_eq_iff, ?_⟩
  intro w r₀ r calls calls' last hcalls hcalls' hsame hrun
  have hbare : r₀.bare.build w (calls.map (Prod.map id Call.bare)) last =
      (r₀.build w calls last).map bare := build_bare r₀ hcalls last
  rw [hsame, build_bare r₀ hcalls' last, hrun] at hbare
  obtain ⟨r', hr', hr⟩ : ∃ r', r₀.build w calls' last = .ok r' ∧ r'.bare = r.bare := by
    rcases hr' : r₀.build w calls' last with e | r'
    · rw [hr'] at hbare
      cases hbare
    · rw [hr'] at hbare
      exact ⟨r', rfl, Except.ok.inj hbare⟩
  refine ⟨r', hr', ?_, congrArg (·.history.appended) hr⟩
  rw [← writtenBlocks_bare, hr, writtenBlocks_bare]

/-- The key `"a"` and the value `"a"`, in front of some memory. -/
def addBefore (after : Bytes) : List (Ambient × Call) :=
  [(.zeroed, .add (.single 97 after) (.single 97 after)), (.zeroed, .flush)]

theorem writtenBlocks_addBefore :
    ∃ r r', zeroed.build WritableFile.writeAll (addBefore []) none = .ok r ∧
      zeroed.build WritableFile.writeAll (addBefore [0, 98]) none = .ok r' ∧
      r'.writtenBlocks = r.writtenBlocks ∧ r'.history.appended = r.history.appended := by
  obtain ⟨r, hrun⟩ := exists_of_isOk
    (x := zeroed.build WritableFile.writeAll (addBefore []) none) (by decide +kernel)
  have hterminated (after : Bytes) (hafter : ∀ b ∈ after.head?, b = 0) :
      ∀ c ∈ addBefore after, c.2.Terminated := by
    simp only [addBefore, List.mem_cons, List.not_mem_nil, or_false, forall_eq_or_imp, forall_eq,
      Call.Terminated, Slice.Terminated]
    have hdata : (0 : UInt8) ∉ [97] := by decide
    exact ⟨⟨⟨hdata, hafter⟩, hdata, hafter⟩, trivial⟩
  obtain ⟨r', hrun', hblocks⟩ := handed_eq_iff_and_writtenBlocks_eq.2 WritableFile.writeAll zeroed r
    (addBefore []) (addBefore [0, 98]) none (hterminated _ (by simp)) (hterminated _ (by simp))
    rfl hrun
  exact ⟨r, r', hrun, hrun', hblocks⟩

/-- With the byte `"b"` behind it, the data block gets `"ab"` for the key `"a"`, and its contents
are others. -/
theorem not_handed_addBefore :
    handed ⟨[97], [98], by decide⟩ ⟨[97], [98], by decide⟩ ≠ Handed.ofData [97] [97] ∧
      SameContents (addBefore []) (addBefore [98]) ∧
      ∃ r r', zeroed.build WritableFile.writeAll (addBefore []) none = .ok r ∧
        zeroed.build WritableFile.writeAll (addBefore [98]) none = .ok r' ∧
        r.writtenBlocks.map Prod.fst = [[1, 1, 97, 97, 1]] ∧
        r'.writtenBlocks.map Prod.fst = [[2, 2, 97, 98, 97, 98, 1]] := by
  obtain ⟨r, hrun, hr⟩ := exists_of_any
    (x := zeroed.build WritableFile.writeAll (addBefore []) none)
    (p := fun r => r.writtenBlocks.map Prod.fst = [[1, 1, 97, 97, 1]]) (by decide +kernel)
  obtain ⟨r', hrun', hr'⟩ := exists_of_any
    (x := zeroed.build WritableFile.writeAll (addBefore [98]) none)
    (p := fun r => r.writtenBlocks.map Prod.fst = [[2, 2, 97, 98, 97, 98, 1]]) (by decide +kernel)
  refine ⟨fun h => ?_, rfl, r, r', hrun, hrun', of_decide_eq_true hr, of_decide_eq_true hr'⟩
  exact absurd (congrArg Handed.dataKey h) (by decide)

end TableBuilder

end TinyLeveldb
