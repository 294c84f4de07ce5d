import Mathlib.Data.List.Basic
import Mathlib.Order.Basic
import Mathlib.Tactic.IntervalCases

/-!
# Bit arrays inside byte arrays

Bit `i` of the array that starts at byte `base` of `a` is bit `i % 8` of byte `base + i / 8`.
Setting bits never clears one, so what a loop has set stays set: `testBit_setBit_of_testBit`.
-/

namespace Library

/-- The byte whose only bit is bit `i % 8`. -/
def bitMask (i : ℕ) : UInt8 := UInt8.ofNat (1 <<< (i % 8))

/-- Read bit `i` of the array at `base`. -/
def testBit (a : List UInt8) (base i : ℕ) : Bool := a.getD (base + i / 8) 0 &&& bitMask i ≠ 0

/-- Set bit `i` of the array at `base`. -/
def setBit (a : List UInt8) (base i : ℕ) : List UInt8 :=
  a.modify (base + i / 8) (· ||| bitMask i)

variable {a : List UInt8} {base i j : ℕ}

theorem bitMask_ne_zero (i : ℕ) : bitMask i ≠ 0 := by
  have hlt : i % 8 < 8 := Nat.mod_lt i (by decide)
  rw [bitMask]
  generalize i % 8 = s at hlt
  interval_cases s <;> decide

@[simp]
theorem length_setBit : (setBit a base i).length = a.length := List.length_modify _ _ _

/-- A bit inside the array is set once it was set. -/
theorem testBit_setBit_self (h : base + i / 8 < a.length) :
    testBit (setBit a base i) base i = true := by
  have hmask : (a[base + i / 8] ||| bitMask i) &&& bitMask i = bitMask i := by
    rw [← UInt8.toBitVec_inj]
    ext k hk
    simp only [UInt8.toBitVec_and, UInt8.toBitVec_or, BitVec.getElem_and, BitVec.getElem_or]
    grind
  have hget : (setBit a base i).getD (base + i / 8) 0 = a[base + i / 8] ||| bitMask i := by
    simp [setBit, List.getD_eq_getElem?_getD, List.getElem?_eq_getElem h]
  rw [testBit, hget, hmask]
  simpa using bitMask_ne_zero i

/-- Setting a bit clears no bit. -/
theorem testBit_setBit_of_testBit (h : testBit a base j = true) :
    testBit (setBit a base i) base j = true := by
  rw [testBit, decide_eq_true_eq] at h ⊢
  by_cases hij : base + i / 8 = base + j / 8
  · have hmask : ∀ b : UInt8, b &&& bitMask j ≠ 0 → (b ||| bitMask i) &&& bitMask j ≠ 0 := by
      intro b hb hzero
      refine hb ?_
      have hdist : (b ||| bitMask i) &&& bitMask j =
          (b &&& bitMask j) ||| (bitMask i &&& bitMask j) := by
        rw [← UInt8.toBitVec_inj]
        ext k hk
        simp only [UInt8.toBitVec_and, UInt8.toBitVec_or, BitVec.getElem_and, BitVec.getElem_or]
        grind
      exact (UInt8.or_eq_zero_iff.mp (hdist ▸ hzero)).1
    rcases lt_or_ge (base + j / 8) a.length with hlt | hge
    · have hget : (setBit a base i).getD (base + j / 8) 0 =
          a.getD (base + j / 8) 0 ||| bitMask i := by
        simp [setBit, hij, List.getD_eq_getElem?_getD, List.getElem?_eq_getElem hlt]
      rw [hget]
      exact hmask _ h
    · simp [List.getD_eq_getElem?_getD, List.getElem?_eq_none hge] at h
  · have hget : (setBit a base i).getD (base + j / 8) 0 = a.getD (base + j / 8) 0 := by
      rw [setBit, List.getD_eq_getElem?_getD, List.getElem?_modify_ne _ _ hij,
        List.getD_eq_getElem?_getD]
    rw [hget]
    exact h

/-- The bytes before the array are not touched. -/
theorem take_setBit {n : ℕ} (h : n ≤ base) : (setBit a base i).take n = a.take n := by
  rw [setBit, List.take_modify, List.modify_eq_self]
  rw [List.length_take]
  omega

/-- Nor is a byte behind it. -/
theorem getD_setBit_of_lt {n : ℕ} (h : base + i / 8 < n) :
    (setBit a base i).getD n 0 = a.getD n 0 := by
  rw [setBit, List.getD_eq_getElem?_getD, List.getElem?_modify_ne _ _ (Nat.ne_of_lt h),
    List.getD_eq_getElem?_getD]

/-- Setting a bit behind a prefix leaves the prefix in place. -/
theorem setBit_append (pre a : List UInt8) (base i : ℕ) :
    setBit (pre ++ a) (pre.length + base) i = pre ++ setBit a base i := by
  rw [setBit, setBit]
  induction pre with
  | nil => simp
  | cons b pre ih =>
    have hindex : (b :: pre).length + base + i / 8 = pre.length + base + i / 8 + 1 := by
      rw [List.length_cons]
      omega
    rw [hindex, List.cons_append, List.modify_succ_cons, ih, List.cons_append]

/-- Reading an array that was cut out of its surroundings. -/
theorem testBit_drop : testBit (a.drop base) 0 i = testBit a base i := by
  simp [testBit, List.getD_eq_getElem?_getD]

end Library
