import TinyLeveldb.Filter.Block

/-!
# Reading untrusted filter blocks

The contents of a `FilterBlockReader` come from a file and may be anything. With checks that fail
in front of every read, remainder and shift, the constructor and `KeyMayMatch` complete, whatever
the contents, as long as the last byte of the contents, by which offsets are shifted, is at most 63
(`keyMayMatchChecked_new`).

Corrupt contents should not hide a key, and one kind of them does: a filter of length zero behind
the offset array (`cautious_iff`).
-/

namespace TinyLeveldb

open Library

/-- A check that fails. -/
def checked (ok : Bool) (v : Violation) : Except Violation Unit :=
  if ok then .ok () else .error v

theorem checked_true (v : Violation) : checked true v = pure () := rfl

namespace FilterBlockReader

/-- `FilterBlockReader::FilterBlockReader`. -/
def newChecked (policy : BloomFilterPolicy) (contents : Slice) :
    Except Violation FilterBlockReader :=
  newWith checked policy contents

/-- `KeyMayMatch`. -/
def keyMayMatchChecked (r : FilterBlockReader) (blockOffset : UInt64) (key : Slice) :
    Except Violation Bool :=
  r.keyMayMatchWith checked blockOffset key

/-! ### Nothing undefined happens -/

/-- The offset array of a reader, and the word behind it, lie inside its data. -/
def InBounds (r : FilterBlockReader) : Prop :=
  0 < r.num → r.offset + r.num * 4 + 4 ≤ r.data.size

theorem inBounds_new (policy : BloomFilterPolicy) (contents : Slice) :
    (new policy contents).InBounds := by
  intro hpos
  by_cases hposition : 5 ≤ contents.size ∧ arrayPosition contents ≤ contents.size - 5
  · rw [new_of_position hposition.1 hposition.2] at hpos ⊢
    simp only at hpos ⊢
    omega
  · rw [num_new_eq_zero hposition] at hpos
    exact absurd hpos (Nat.lt_irrefl 0)

section Checks

variable {μ : Type → Type} [Monad μ] [LawfulMonad μ] {require : Bool → Violation → μ Unit}

theorem decodeFixed32With_eq (hrequire : ∀ v, require true v = pure ()) (memory : Bytes) {i : ℕ}
    (hi : i + 4 ≤ memory.length) :
    decodeFixed32With require memory i = pure (decodeFixed32 (memory.drop i)) := by
  rw [decodeFixed32With, decide_eq_true hi, hrequire, pure_bind]

/-- The constructor does nothing undefined. -/
theorem newWith_eq (hrequire : ∀ v, require true v = pure ()) (policy : BloomFilterPolicy)
    (contents : Slice) : newWith require policy contents = pure (new policy contents) := by
  rw [newWith, new_eq]
  by_cases hshort : contents.size < 5
  · simp only [if_pos hshort]
  · have hlast : readByteWith require contents.data (contents.size - 1) =
        pure (contents.data.getD (contents.size - 1) 0) := by
      rw [readByteWith, decide_eq_true (by rw [Slice.size] at hshort ⊢; omega), hrequire,
        pure_bind]
    have hword := decodeFixed32With_eq hrequire contents.data
      (show contents.size - 5 + 4 ≤ contents.data.length by rw [Slice.size] at hshort ⊢; omega)
    simp only [if_neg hshort, hlast, hword, pure_bind]
    exact (apply_ite pure _ _ _).symm

/-- `KeyMayMatch` does nothing undefined with a reader whose array is in bounds. -/
theorem keyMayMatchWith_eq (hrequire : ∀ v, require true v = pure ()) {r : FilterBlockReader}
    (hr : r.InBounds) (hbase : r.baseLg < 64) (blockOffset : UInt64) (key : Slice) :
    r.keyMayMatchWith require blockOffset key = pure (r.keyMayMatch blockOffset key) := by
  rw [keyMayMatchWith, decide_eq_true hbase, hrequire, pure_bind]
  by_cases hindex : (blockOffset >>> r.baseLg).toNat < r.num
  · have hin := hr (by omega)
    have hstart := decodeFixed32With_eq hrequire r.data.data
      (i := r.offset + (blockOffset >>> r.baseLg).toNat * 4)
      (by rw [Slice.size] at hin; omega)
    have hlimit := decodeFixed32With_eq hrequire r.data.data
      (i := r.offset + (blockOffset >>> r.baseLg).toNat * 4 + 4)
      (by rw [Slice.size] at hin; omega)
    rw [keyMayMatch_eq (by omega)]
    simp only [if_pos hindex, hstart, hlimit, pure_bind]
    split
    · rename_i hrange
      exact BloomFilterPolicy.keyMayMatchWith_eq hrequire _ _ rfl
        (by rw [Slice.size] at hin; omega)
    · split <;> rfl
  · rw [keyMayMatch_of_num_le (not_lt.mp hindex)]
    simp only [if_neg hindex]

end Checks

/-- A byte up to 63 is read as the shift it stands for. -/
theorem shift_lt {b : UInt8} (hb : b ≤ 63) : b.toInt8.toInt64.toUInt64 < 64 := by
  have hle : b.toNat ≤ 63 := UInt8.le_iff_toNat_le.mp hb
  rw [← UInt8.ofNat_toNat (x := b)]
  generalize b.toNat = n at hle
  interval_cases n <;> decide

theorem baseLg_new_lt (policy : BloomFilterPolicy) (contents : Slice)
    (hlast : contents.data.getLastD 0 ≤ 63) : (new policy contents).baseLg < 64 := by
  have hbase : statedBase contents < 64 := by
    rw [statedBase, Slice.size, List.getD_eq_getElem?_getD, ← List.getLast?_eq_getElem?,
      ← List.getLastD_eq_getLast?]
    exact shift_lt hlast
  rw [new_eq]
  split
  · exact (by decide : (0 : UInt64) < 64)
  · split
    · exact hbase
    · exact hbase

/-- **Untrusted contents.** Whatever the contents, the block offset and the key are, the
constructor and `KeyMayMatch` read bytes of the contents only and take no remainder by zero, as
long as the last byte of the contents is a shift. -/
theorem keyMayMatchChecked_new (policy : BloomFilterPolicy) (contents : Slice)
    (hlast : contents.data.getLastD 0 ≤ 63) (blockOffset : UInt64) (key : Slice) :
    (do
      let r ← newChecked policy contents
      r.keyMayMatchChecked blockOffset key) =
      .ok ((new policy contents).keyMayMatch blockOffset key) := by
  rw [newChecked, newWith_eq checked_true]
  exact keyMayMatchWith_eq checked_true (inBounds_new policy contents)
    (baseLg_new_lt policy contents hlast) blockOffset key

/-- Two bytes of a filter without bits, the offsets of its two ends and of the array, and a shift
by 11. -/
def blankBlock : Slice := ⟨[0, 1, 0, 0, 0, 0, 2, 0, 0, 0, 2, 0, 0, 0, 11], [], by decide⟩

theorem keyMayMatchChecked_new_blankBlock :
    (do
      let r ← newChecked ⟨10, by decide⟩ blankBlock
      r.keyMayMatchChecked 2047 ⟨[97], [], by decide⟩) =
      .ok ((new ⟨10, by decide⟩ blankBlock).keyMayMatch 2047 ⟨[97], [], by decide⟩) :=
  keyMayMatchChecked_new ⟨10, by decide⟩ blankBlock (by decide) 2047 ⟨[97], [], by decide⟩

/-! ### What a corrupt block hides -/

section Corrupt

variable (contents : Slice) (blockOffset : UInt64)

/-- The number of the filter of a block offset. -/
def filterIndex : ℕ :=
  (blockOffset >>>
    (contents.data.getD (contents.size - 1) 0).toInt8.toInt64.toUInt64).toNat

/-- The start of the filter, as the contents state it. -/
def filterStart : ℕ :=
  (decodeFixed32 (contents.data.drop
    (arrayPosition contents + filterIndex contents blockOffset * 4))).toNat

/-- The limit of the filter. -/
def filterLimit : ℕ :=
  (decodeFixed32 (contents.data.drop
    (arrayPosition contents + filterIndex contents blockOffset * 4 + 4))).toNat

/-- The contents have an offset array, which lies inside them and has an entry for the block. -/
structure Indexed : Prop where
  size : 5 ≤ contents.size
  position : arrayPosition contents ≤ contents.size - 5
  index : filterIndex contents blockOffset < (contents.size - 5 - arrayPosition contents) / 4

/-- The filter range of the block is valid. -/
structure ValidRange : Prop extends Indexed contents blockOffset where
  le : filterStart contents blockOffset ≤ filterLimit contents blockOffset
  inside : filterLimit contents blockOffset ≤ arrayPosition contents

/-- The filter range of the block is empty and ends behind the position of the offset array. -/
structure EmptyBehind : Prop extends Indexed contents blockOffset where
  empty : filterStart contents blockOffset = filterLimit contents blockOffset
  behind : arrayPosition contents < filterLimit contents blockOffset

/-- A key is hidden only by a filter in a valid range that rejects it. -/
def Cautious (policy : BloomFilterPolicy) (key : Slice) : Prop :=
  (new policy contents).keyMayMatch blockOffset key = false →
    ValidRange contents blockOffset ∧
      policy.keyMayMatch key (subslice contents (filterStart contents blockOffset)
        (filterLimit contents blockOffset - filterStart contents blockOffset)) = false

variable {contents blockOffset} {policy : BloomFilterPolicy} {key : Slice}

/-- Without an entry for the block there is nothing to reject the key. -/
theorem keyMayMatch_not_indexed (h : ¬ Indexed contents blockOffset) :
    (new policy contents).keyMayMatch blockOffset key = true := by
  refine keyMayMatch_of_num_le (not_lt.mp ?_) key
  by_cases hposition : 5 ≤ contents.size ∧ arrayPosition contents ≤ contents.size - 5
  · rw [new_of_position hposition.1 hposition.2]
    exact fun hindex => h ⟨hposition.1, hposition.2, hindex⟩
  · rw [num_new_eq_zero hposition]
    exact Nat.not_lt_zero _

/-- With an entry, its two ends decide. -/
theorem keyMayMatch_indexed (h : Indexed contents blockOffset) :
    (new policy contents).keyMayMatch blockOffset key =
      if filterStart contents blockOffset ≤ filterLimit contents blockOffset ∧
          filterLimit contents blockOffset ≤ arrayPosition contents then
        policy.keyMayMatch key (subslice contents (filterStart contents blockOffset)
          (filterLimit contents blockOffset - filterStart contents blockOffset))
      else if filterStart contents blockOffset = filterLimit contents blockOffset then false
      else true := by
  have hoffset : arrayPosition contents ≤ contents.size := h.position.trans (Nat.sub_le _ _)
  rw [new_of_position h.size h.position, keyMayMatch_eq hoffset]
  exact if_pos h.index

/-- **When corrupt contents hide no key.** A `false` of `KeyMayMatch` comes from a valid filter
exactly when the range of the block is not an empty one behind the offset array. -/
theorem cautious_iff (policy : BloomFilterPolicy) (contents : Slice) (blockOffset : UInt64)
    (key : Slice) :
    Cautious contents blockOffset policy key ↔ ¬ EmptyBehind contents blockOffset := by
  rw [Cautious]
  by_cases hindexed : Indexed contents blockOffset
  · rw [keyMayMatch_indexed hindexed]
    constructor
    · rintro hcautious ⟨-, hempty, hbehind⟩
      rw [if_neg (by omega), if_pos hempty] at hcautious
      have hinside := (hcautious rfl).1.inside
      omega
    · intro hnot hfalse
      split at hfalse
      · rename_i hrange
        exact ⟨⟨hindexed, hrange.1, hrange.2⟩, hfalse⟩
      · rename_i hrange
        split at hfalse
        · rename_i hempty
          exact absurd ⟨hindexed, hempty, by omega⟩ hnot
        · cases hfalse
  · rw [keyMayMatch_not_indexed hindexed]
    exact iff_of_true (fun hfalse => by cases hfalse) fun hbehind => hindexed hbehind.toIndexed

/-- An offset array at position 0, whose first filter starts and ends at position 5. -/
def emptyBehindBlock : Slice := ⟨[5, 0, 0, 0, 5, 0, 0, 0, 0, 0, 0, 0, 11], [], by decide⟩

/-- Every key of the first 2 KB is hidden. -/
theorem not_cautious_emptyBehindBlock :
    ¬ Cautious emptyBehindBlock 0 ⟨10, by decide⟩ ⟨[97], [], by decide⟩ := by
  intro hcautious
  have hfalse : (new ⟨10, by decide⟩ emptyBehindBlock).keyMayMatch 0 ⟨[97], [], by decide⟩ =
      false := by decide
  exact absurd (hcautious hfalse).1.inside (by decide)

end Corrupt

end FilterBlockReader

end TinyLeveldb
