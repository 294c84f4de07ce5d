import TinyLeveldb.Table.Builder

/-!
# The calls of the table builder on its file

What a completed `Add` and a completed `Finish` have done, over any file (`addVia_eq_ok`,
`finishVia_eq_ok`), and what they keep: a property of the file and of the bytes appended to it that
`Append` and `FlushBUffer` keep is kept by every call of the builder.
-/

namespace TinyLeveldb

open Library

namespace TableBuilder

variable {δ : Type} {ops : FileOps δ} {m m' : Ambient} {r r' : TableBuilder δ} {s : Status}

/-- A completed `Add` emitted what was pending, stored the pair, and flushed a block that has
grown to 1000 bytes. -/
theorem addVia_eq_ok {key value : Slice} (h : r.addVia ops m key value = .ok (s, r')) :
    ∃ r₁, r.emitPending m = .ok r₁ ∧
      if (r₁.store m key value).dataBlock.currentSizeEstimate ≥ 1000 then
        (r₁.store m key value).flushVia ops m = .ok (s, r')
      else s = .ok ∧ r' = r₁.store m key value := by
  obtain ⟨r₁, hemit, h⟩ := bind_eq_ok.mp h
  refine ⟨r₁, hemit, ?_⟩
  simp only at h
  split at h
  · rename_i hfull
    rw [if_pos hfull]
    exact h
  · rename_i hfull
    rw [if_neg hfull]
    cases h
    exact ⟨rfl, rfl⟩

theorem writeIndexVia_eq_ok {locals : FinishLocals} {indexHandle : Pointer BlockHandle}
    (h : r.writeIndexVia ops m locals = .ok (indexHandle, r')) :
    (r.pendingIndexEntry = false ∧ indexHandle = locals.indexHandle ∧ r' = r) ∨
    ∃ handle coding s written, r.pendingIndexEntry = true ∧ r.pendingHandle = some handle ∧
      locals.handleCoding = some coding ∧ indexHandle = some written ∧
      (r.addIndexEntry m handle (handle.encodeTo coding)).writeBlockVia ops m .indexBlock
        locals.indexHandle = .ok (s, written, r') := by
  unfold writeIndexVia at h
  split at h
  · rename_i hpending
    obtain ⟨handle, hhandle, h⟩ := bind_eq_ok.mp h
    obtain ⟨coding, hcoding, h⟩ := bind_eq_ok.mp h
    obtain ⟨⟨s, written, r₁⟩, hwrite, h⟩ := bind_eq_ok.mp h
    cases h
    exact .inr ⟨handle, coding, s, written, hpending, deref_eq_ok hhandle, deref_eq_ok hcoding,
      rfl, hwrite⟩
  · rename_i hpending
    cases h
    exact .inl ⟨by simpa using hpending, rfl, rfl⟩

/-- A completed `Finish` flushed, wrote the index block if one was pending, and appended the
footer. -/
theorem finishVia_eq_ok {locals : FinishLocals}
    (h : r.finishVia ops m m' locals = .ok r') :
    ∃ s₁ r₁ handle r₂ coding footer s₂ file, r.flushVia ops m = .ok (s₁, r₁) ∧
      r₁.writeIndexVia ops m' locals = .ok (some handle, r₂) ∧
      locals.indexCoding = some coding ∧ footer.data = handle.encodeTo coding ∧
      ops.append r₂.file footer = .ok (s₂, file) ∧ r' = r₂.appendedTo file footer.data := by
  obtain ⟨⟨s₁, r₁⟩, hflush, h⟩ := bind_eq_ok.mp h
  obtain ⟨⟨indexHandle, r₂⟩, hindex, h⟩ := bind_eq_ok.mp h
  obtain ⟨handle, hhandle, h⟩ := bind_eq_ok.mp h
  obtain ⟨coding, hcoding, h⟩ := bind_eq_ok.mp h
  obtain ⟨footer, hfooter, h⟩ := bind_eq_ok.mp h
  obtain ⟨⟨s₂, r₃⟩, happend, h⟩ := bind_eq_ok.mp h
  obtain ⟨file, hfile, rfl⟩ := appendVia_eq_ok happend
  cases h
  rw [deref_eq_ok hhandle] at hindex
  exact ⟨s₁, r₁, handle, r₂, coding, footer, s₂, file, hflush, hindex, deref_eq_ok hcoding,
    Slice.ofString_eq_ok hfooter, hfile, rfl⟩

/-! ### What holds of the file -/

section File

/-- Both operations keep `P`. -/
structure Keeps (ops : FileOps δ) (P : WritableFile δ → Bytes → Prop) : Prop where
  append : ∀ {f f' : WritableFile δ} {data : Slice} {s : Status} {appended : Bytes},
    ops.append f data = .ok (s, f') → P f appended → P f' (appended ++ data.data)
  flushBuffer : ∀ {f f' : WritableFile δ} {s : Status} {appended : Bytes},
    ops.flushBuffer f = .ok (s, f') → P f appended → P f' appended

variable {P : WritableFile δ → Bytes → Prop} (hP : Keeps ops P)
include hP

theorem keep_writeBlockVia {block : BlockRef} {p : Pointer BlockHandle} {handle : BlockHandle}
    (h : r.writeBlockVia ops m block p = .ok (s, handle, r')) (hr : P r.file r.history.appended) :
    P r'.file r'.history.appended := by
  obtain ⟨-, contents, finished, s₁, file₁, file₂, -, -, hfile₁, hfile₂, -, rfl⟩ :=
    writeBlockVia_eq_ok h
  have hboth := hP.append hfile₂ (hP.append hfile₁ hr)
  have happended : (r.blockAppended m block contents finished file₂).history.appended =
      r.history.appended ++ contents.data ++ (trailer m contents.data).data := by
    cases block <;> exact (List.append_assoc _ _ _).symm
  split
  · change P file₂ (r.blockAppended m block contents finished file₂).history.appended
    rwa [happended]
  · change P file₂ (r.blockAppended m block contents finished file₂).history.appended
    rwa [happended]

theorem keep_flushVia (h : r.flushVia ops m = .ok (s, r')) (hr : P r.file r.history.appended) :
    P r'.file r'.history.appended := by
  obtain ⟨-, ⟨-, rfl⟩ | ⟨s₁, handle, r₁, s₂, file, filterBlock, -, hwrite, hflush, -, rfl⟩⟩ :=
    flushVia_eq_ok h
  · exact hr
  · exact hP.flushBuffer hflush (keep_writeBlockVia hP hwrite hr)

theorem keep_addVia {key value : Slice} (h : r.addVia ops m key value = .ok (s, r'))
    (hr : P r.file r.history.appended) : P r'.file r'.history.appended := by
  obtain ⟨r₁, hemit, h⟩ := addVia_eq_ok h
  have hr₁ : P r₁.file r₁.history.appended := by
    rcases emitPending_eq_ok hemit with ⟨-, rfl⟩ | ⟨handle, -, -, rfl⟩ <;> exact hr
  split at h
  · exact keep_flushVia hP h hr₁
  · obtain ⟨-, rfl⟩ := h
    exact hr₁

theorem keep_writeIndexVia {locals : FinishLocals} {indexHandle : Pointer BlockHandle}
    (h : r.writeIndexVia ops m locals = .ok (indexHandle, r'))
    (hr : P r.file r.history.appended) : P r'.file r'.history.appended := by
  rcases writeIndexVia_eq_ok h with ⟨-, -, rfl⟩ | ⟨handle, coding, s, written, -, -, -, -, hwrite⟩
  · exact hr
  · exact keep_writeBlockVia hP hwrite hr

end File

end TableBuilder

end TinyLeveldb
