import Mathlib.Order.Lattice
import Mathlib.Data.List.Induction

/-!
# Records of a sequence

The records of a sequence over a linear order are its strict left-to-right maxima: what an
append-only sorted list retains of the elements offered to it. `Decided earlier k` says that
`earlier` contains no or at least two elements from `k` on, so that the position of `k` among
them can be read off without looking past the largest one. For a sequence whose elements were
all decided when they came, being decided by the sequence and by its records is the same
(`Covered.decided_records_iff`).
-/

namespace Library

variable {κ : Type*} [LinearOrder κ]

/-- `k` is above every element of `earlier`, or not above one that is not the largest. -/
def Decided (earlier : List κ) (k : κ) : Prop :=
  (∀ e ∈ earlier, e < k) ∨ ∃ x ∈ earlier, ∃ y ∈ earlier, k ≤ x ∧ x < y

instance (earlier : List κ) (k : κ) : Decidable (Decided earlier k) :=
  inferInstanceAs (Decidable (_ ∨ _))

/-- Keep a new element when it is above all the others. -/
def addRecord (rs : List κ) (k : κ) : List κ := if ∀ r ∈ rs, r < k then rs ++ [k] else rs

/-- The strict left-to-right maxima of a sequence. -/
def records (ks : List κ) : List κ := ks.foldl addRecord []

theorem records_concat (ks : List κ) (k : κ) :
    records (ks ++ [k]) = addRecord (records ks) k := by
  simp [records]

theorem addRecord_of_forall_lt {rs : List κ} {k : κ} (h : ∀ r ∈ rs, r < k) :
    addRecord rs k = rs ++ [k] := if_pos h

theorem addRecord_of_le {rs : List κ} {k r : κ} (hr : r ∈ rs) (h : k ≤ r) :
    addRecord rs k = rs := if_neg fun hall => absurd (hall r hr) (not_lt.mpr h)

theorem subset_addRecord (rs : List κ) (k : κ) : rs ⊆ addRecord rs k := by
  unfold addRecord
  split_ifs
  · exact List.subset_append_left rs [k]
  · exact List.Subset.refl rs

theorem records_subset (ks : List κ) : records ks ⊆ ks := by
  induction ks using List.reverseRecOn with
  | nil => exact List.Subset.refl _
  | append_singleton ks k ih =>
    intro r hr
    rw [records_concat, addRecord] at hr
    split_ifs at hr
    · rcases List.mem_append.mp hr with hr | hr
      · exact List.mem_append_left _ (ih hr)
      · exact List.mem_append_right _ hr
    · exact List.mem_append_left _ (ih hr)

/-- Every element is at most some record. -/
theorem exists_record_ge {ks : List κ} {k : κ} (hk : k ∈ ks) : ∃ r ∈ records ks, k ≤ r := by
  induction ks using List.reverseRecOn generalizing k with
  | nil => simp at hk
  | append_singleton ks l ih =>
    rw [records_concat]
    rcases List.mem_append.mp hk with hk | hk
    · obtain ⟨r, hr, hle⟩ := ih hk
      exact ⟨r, subset_addRecord _ l hr, hle⟩
    · obtain rfl := List.mem_singleton.mp hk
      by_cases hall : ∀ r ∈ records ks, r < k
      · exact ⟨k, by simp [addRecord_of_forall_lt hall], le_rfl⟩
      · push Not at hall
        obtain ⟨r, hr, hle⟩ := hall
        exact ⟨r, subset_addRecord _ k hr, hle⟩

/-- Being above all records is being above all elements. -/
theorem forall_records_lt_iff {ks : List κ} {k : κ} :
    (∀ r ∈ records ks, r < k) ↔ ∀ e ∈ ks, e < k := by
  refine ⟨fun h e he => ?_, fun h r hr => h r (records_subset ks hr)⟩
  obtain ⟨r, hr, hle⟩ := exists_record_ge he
  exact hle.trans_lt (h r hr)

/-- Every element that is not a record is at most one that is not the largest. -/
def Covered (ks : List κ) : Prop :=
  ∀ e ∈ ks, e ∈ records ks ∨ ∃ x ∈ records ks, ∃ y ∈ records ks, e ≤ x ∧ x < y

theorem covered_nil : Covered ([] : List κ) := by simp [Covered]

/-- For a covered sequence the records decide exactly what the sequence decides. -/
theorem Covered.decided_records_iff {ks : List κ} (h : Covered ks) {k : κ} :
    Decided (records ks) k ↔ Decided ks k := by
  refine or_congr forall_records_lt_iff ⟨?_, ?_⟩
  · rintro ⟨x, hx, y, hy, hkx, hxy⟩
    exact ⟨x, records_subset ks hx, y, records_subset ks hy, hkx, hxy⟩
  · rintro ⟨x, hx, y, hy, hkx, hxy⟩
    rcases h x hx with hx' | ⟨x', hx', y', hy', hle, hlt⟩
    · obtain ⟨y', hy', hle⟩ := exists_record_ge hy
      exact ⟨x, hx', y', hy', hkx, hxy.trans_le hle⟩
    · exact ⟨x', hx', y', hy', hkx.trans hle, hlt⟩

/-- Covered sequences grow by decided elements. -/
theorem Covered.concat {ks : List κ} (h : Covered ks) {k : κ} (hk : Decided ks k) :
    Covered (ks ++ [k]) := by
  have hsub : records ks ⊆ records (ks ++ [k]) := by
    rw [records_concat]
    exact subset_addRecord _ k
  intro e he
  rcases List.mem_append.mp he with he | he
  · rcases h e he with hr | ⟨x, hx, y, hy, hle, hlt⟩
    · exact Or.inl (hsub hr)
    · exact Or.inr ⟨x, hsub hx, y, hsub hy, hle, hlt⟩
  · obtain rfl := List.mem_singleton.mp he
    rcases h.decided_records_iff.mpr hk with hall | ⟨x, hx, y, hy, hle, hlt⟩
    · left
      rw [records_concat, addRecord_of_forall_lt hall]
      simp
    · exact Or.inr ⟨x, hsub hx, y, hsub hy, hle, hlt⟩

end Library
