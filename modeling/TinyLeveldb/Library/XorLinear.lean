import Mathlib.Logic.Function.Iterate
import Mathlib.Algebra.Group.Nat.Even
import Mathlib.Data.Nat.Bitwise

/-!
# Maps of words that commute with exclusive or

A map with `f (a ^^^ b) = f a ^^^ f b` is fixed by its values at the powers of two
(`XorLinear.ext`), so an equation between two such maps is decided by 32 words, and a table of
such a map by a handful of its entries (`IsXorTable.getD_eq`).
-/

namespace Library

/-- The map `f` commutes with exclusive or. -/
def XorLinear (f : UInt32 → UInt32) : Prop := ∀ a b, f (a ^^^ b) = f a ^^^ f b

namespace XorLinear

variable {f g : UInt32 → UInt32}

theorem map_zero (hf : XorLinear f) : f 0 = 0 := by
  have h := hf 0 0
  rwa [UInt32.xor_self, UInt32.xor_self] at h

theorem id : XorLinear id := fun _ _ => rfl

theorem comp (hf : XorLinear f) (hg : XorLinear g) : XorLinear (f ∘ g) := by
  intro a b
  simp only [Function.comp_apply, hg a b, hf (g a) (g b)]

theorem iterate (hf : XorLinear f) (n : ℕ) : XorLinear f^[n] := by
  induction n with
  | zero => exact XorLinear.id
  | succ n ih =>
    rw [Function.iterate_succ]
    exact ih.comp hf

theorem xor (hf : XorLinear f) (hg : XorLinear g) : XorLinear fun a => f a ^^^ g a := by
  intro a b
  simp only [hf a b, hg a b]
  ac_rfl

theorem and (mask : UInt32) : XorLinear (· &&& mask) := by
  intro a b
  apply UInt32.toNat_inj.mp
  simp only [UInt32.toNat_and, UInt32.toNat_xor, Nat.and_xor_distrib_right]

theorem shiftLeft (k : UInt32) : XorLinear (· <<< k) := fun _ _ => UInt32.shiftLeft_xor

theorem shiftRight (k : UInt32) : XorLinear (· >>> k) := fun _ _ => UInt32.shiftRight_xor

/-- Four lanes in Horner form: the lane that steps four times at once reaches as far as if it had
stepped through the other three. -/
theorem interleave (hf : XorLinear f) (d c₀ c₁ c₂ c₃ : UInt32) :
    (d ^^^ f^[4] c₀) ^^^ f (c₃ ^^^ f (c₂ ^^^ f c₁)) =
      d ^^^ f (c₃ ^^^ f (c₂ ^^^ f (c₁ ^^^ f c₀))) := by
  have hxor (x y : UInt32) : f (x ^^^ y) = f x ^^^ f y := hf x y
  simp only [hxor, Function.iterate_succ_apply, Function.iterate_zero_apply]
  ac_rfl

end XorLinear

/-- A word with its high bits mixed into the low ones. -/
def xorShift (k w : UInt32) : UInt32 := w ^^^ w >>> k

theorem XorLinear.xorShift (k : UInt32) : XorLinear (xorShift k) :=
  XorLinear.id.xor (.shiftRight k)

/-! ### Bases -/

/-- The exclusive or of the entries of `basis` that the bits of `i` select, the last entry by
bit `0`. -/
def xorSum : List UInt32 → ℕ → UInt32
  | [], _ => 0
  | b :: basis, i => if i.testBit basis.length then b ^^^ xorSum basis i else xorSum basis i

/-- A linear map moves through a selected sum. -/
theorem xorSum_map {f : UInt32 → UInt32} (hf : XorLinear f) (basis : List UInt32) (i : ℕ) :
    xorSum (basis.map f) i = f (xorSum basis i) := by
  induction basis with
  | nil => exact hf.map_zero.symm
  | cons b basis ih =>
    simp only [List.map_cons, xorSum, List.length_map, ih]
    split
    · exact (hf b (xorSum basis i)).symm
    · rfl

/-- The powers of two from `2 ^ (n - 1)` down to `1`. -/
def bitBasis : ℕ → List UInt32
  | 0 => []
  | n + 1 => UInt32.ofNat (2 ^ n) :: bitBasis n

@[simp]
theorem length_bitBasis (n : ℕ) : (bitBasis n).length = n := by
  induction n with
  | zero => rfl
  | succ n ih => rw [bitBasis, List.length_cons, ih]

/-- The powers of two that the bits of `i` select sum up to the low bits of `i`. -/
theorem testBit_xorSum_bitBasis {n : ℕ} (hn : n ≤ 32) (i j : ℕ) :
    (xorSum (bitBasis n) i).toNat.testBit j = (decide (j < n) && i.testBit j) := by
  induction n with
  | zero => simp [bitBasis, xorSum]
  | succ n ih =>
    have hpow : (UInt32.ofNat (2 ^ n)).toNat = 2 ^ n := by
      rw [UInt32.toNat_ofNat', Nat.mod_eq_of_lt (Nat.pow_lt_pow_right (by decide) hn)]
    have ih := ih (Nat.le_of_succ_le hn)
    rw [bitBasis, xorSum, length_bitBasis]
    by_cases hbit : i.testBit n = true
    · rw [if_pos hbit, UInt32.toNat_xor, hpow, Nat.testBit_xor, ih, Nat.testBit_two_pow]
      by_cases hj : n = j
      · subst hj
        simp [hbit]
      · have hiff : j < n + 1 ↔ j < n := by omega
        simp [hj, hiff]
    · rw [if_neg hbit, ih]
      by_cases hj : n = j
      · subst hj
        simp [hbit]
      · have hiff : j < n + 1 ↔ j < n := by omega
        simp [hiff]

theorem xorSum_bitBasis {n : ℕ} (hn : n ≤ 32) {l : UInt32} (hl : l.toNat < 2 ^ n) :
    xorSum (bitBasis n) l.toNat = l := by
  apply UInt32.toNat_inj.mp
  refine Nat.eq_of_testBit_eq fun j => ?_
  rw [testBit_xorSum_bitBasis hn]
  by_cases hj : j < n
  · simp [hj]
  · have hzero : l.toNat.testBit j = false :=
      Nat.testBit_lt_two_pow (hl.trans_le (Nat.pow_le_pow_right (by decide) (by omega)))
    simp [hj, hzero]

/-- Linear maps that agree at the powers of two agree. -/
theorem XorLinear.ext {f g : UInt32 → UInt32} (hf : XorLinear f) (hg : XorLinear g)
    (h : (bitBasis 32).map f = (bitBasis 32).map g) : f = g := by
  funext l
  have hl : xorSum (bitBasis 32) l.toNat = l := xorSum_bitBasis le_rfl l.toNat_lt
  rw [← hl, ← xorSum_map hf, ← xorSum_map hg, h]

/-- `table` lists the values of a linear map at the words of `n` bits, when it does so at the
powers of two: every entry is the sum of the entries its index selects. -/
def IsXorTable (n : ℕ) (f : UInt32 → UInt32) (table : List UInt32) : Prop :=
  table = (List.range (2 ^ n)).map (xorSum ((bitBasis n).map f))

instance (n : ℕ) (f : UInt32 → UInt32) (table : List UInt32) : Decidable (IsXorTable n f table) :=
  inferInstanceAs (Decidable (_ = _))

theorem IsXorTable.getD_eq {n : ℕ} {f : UInt32 → UInt32} {table : List UInt32}
    (h : IsXorTable n f table) (hf : XorLinear f) (hn : n ≤ 32) {l : UInt32}
    (hl : l.toNat < 2 ^ n) : table.getD l.toNat 0 = f l := by
  rw [h, List.getD_eq_getElem?_getD, List.getElem?_map, List.getElem?_range hl, Option.map_some,
    Option.getD_some, xorSum_map hf, xorSum_bitBasis hn hl]

end Library
