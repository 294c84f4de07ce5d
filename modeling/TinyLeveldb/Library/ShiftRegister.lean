import TinyLeveldb.Library.XorLinear
import Mathlib.Data.List.Count
import Mathlib.Dynamics.PeriodicPts.Lemmas

/-!
# Shift registers that read bits

A linear register mixes one bit in at its low end and steps (`shiftIn`). Two registers that read
strings of the same length differ by what a register that starts at zero makes of the exclusive or
of the strings (`foldl_shiftIn_xor`), so a question about two inputs is one about an error pattern.

Three kinds of patterns leave a nonzero register behind:

* one within as many consecutive bits as the register has (`foldl_shiftIn_burst_ne_zero`), where a
  step undoes a shift to the left;
* one with an odd number of bits (`foldl_shiftIn_odd_ne_zero`), where the steps keep a parity;
* two bits whose distance is below the period of the register (`foldl_shiftIn_pair_ne_zero`).
-/

namespace Library

/-- A bit as a word. -/
def bitWord (bit : Bool) : UInt32 := if bit then 1 else 0

/-- One bit is mixed in at the low end, and the register steps. -/
def shiftIn (f : UInt32 → UInt32) (l : UInt32) (bit : Bool) : UInt32 := f (l ^^^ bitWord bit)

/-- The word of the given bits, the lowest first. -/
def wordOf : List Bool → UInt32
  | [] => 0
  | bit :: bits => bitWord bit ^^^ (wordOf bits <<< 1)

variable {f : UInt32 → UInt32}

theorem bitWord_xor (a b : Bool) : bitWord (a ^^ b) = bitWord a ^^^ bitWord b := by
  cases a <;> cases b <;> rfl

/-! ### Two inputs, one pattern -/

theorem shiftIn_xor (hf : XorLinear f) (l l' : UInt32) (a b : Bool) :
    shiftIn f (l ^^^ l') (a ^^ b) = shiftIn f l a ^^^ shiftIn f l' b := by
  rw [shiftIn, shiftIn, shiftIn, ← hf, bitWord_xor]
  congr 1
  ac_rfl

/-- **Superposition**: two registers that read strings of the same length differ by what the
difference of the two makes of the exclusive or of the strings. -/
theorem foldl_shiftIn_xor (hf : XorLinear f) {u u' : List Bool} (hlen : u.length = u'.length)
    (l l' : UInt32) : u.foldl (shiftIn f) l ^^^ u'.foldl (shiftIn f) l' =
      (u.zipWith xor u').foldl (shiftIn f) (l ^^^ l') := by
  induction u generalizing u' l l' with
  | nil =>
    obtain rfl : u' = [] := List.length_eq_zero_iff.mp hlen.symm
    rfl
  | cons a u ih =>
    rcases u' with _ | ⟨b, u'⟩
    · simp at hlen
    · rw [List.zipWith_cons_cons, List.foldl_cons, List.foldl_cons, List.foldl_cons,
        ih (by simpa using hlen), shiftIn_xor hf]

@[simp]
theorem foldl_shiftIn_replicate (f : UInt32 → UInt32) (n : ℕ) (l : UInt32) :
    (List.replicate n false).foldl (shiftIn f) l = f^[n] l := by
  induction n generalizing l with
  | zero => rfl
  | succ n ih =>
    rw [List.replicate_succ, List.foldl_cons, ih, Function.iterate_succ_apply, shiftIn, bitWord,
      if_neg (by decide), UInt32.xor_zero]

theorem XorLinear.iterate_zero (hf : XorLinear f) (n : ℕ) : f^[n] 0 = 0 := (hf.iterate n).map_zero

/-- A register that is not zero stays so while it reads zeros. -/
theorem XorLinear.iterate_ne_zero (hf : XorLinear f) (hinj : Function.Injective f) {l : UInt32}
    (hl : l ≠ 0) (n : ℕ) : f^[n] l ≠ 0 := by
  rw [← hf.iterate_zero n]
  exact fun h => hl (hinj.iterate n h)

/-! ### Bursts -/

section Burst

variable {u : List Bool}

theorem toNat_shiftLeft_one (w : UInt32) : (w <<< 1).toNat = 2 * w.toNat % 2 ^ 32 := by
  rw [UInt32.toNat_shiftLeft, Nat.shiftLeft_eq, Nat.mul_comm]
  rfl

/-- The bits fit the word. -/
theorem toNat_wordOf_lt (hlen : u.length ≤ 32) : (wordOf u).toNat < 2 ^ u.length := by
  induction u with
  | nil => simp [wordOf]
  | cons bit u ih =>
    have hlt := ih (Nat.le_of_succ_le hlen)
    rw [wordOf, List.length_cons, UInt32.toNat_xor]
    refine Nat.xor_lt_two_pow ?_ ?_
    · refine lt_of_le_of_lt (b := 1) ?_ (Nat.one_lt_two_pow (by omega))
      cases bit <;> decide
    · rw [toNat_shiftLeft_one, Nat.pow_succ]
      exact (Nat.mod_le _ _).trans_lt (by omega)

/-- Only zeros make the zero word. -/
theorem eq_false_of_wordOf_eq_zero (hlen : u.length ≤ 32) (hzero : wordOf u = 0) :
    ∀ bit ∈ u, bit = false := by
  induction u with
  | nil => simp
  | cons bit u ih =>
    have hlt := toNat_wordOf_lt (Nat.le_of_succ_le hlen)
    have hpow : 2 ^ u.length ≤ 2 ^ 31 :=
      Nat.pow_le_pow_right (by decide) (Nat.le_of_succ_le_succ hlen)
    have hshift : (wordOf u <<< 1).toNat = (bitWord bit).toNat := by
      rw [UInt32.xor_eq_zero_iff.mp hzero]
    rw [toNat_shiftLeft_one] at hshift
    rcases bit with _ | _
    · have hword : (wordOf u).toNat = 0 := by
        change _ = 0 at hshift
        omega
      have hrest := ih (Nat.le_of_succ_le hlen) (UInt32.toNat_inj.mp hword)
      simpa using hrest
    · -- a one at the low end is not undone by the shifted rest
      change _ = 1 at hshift
      omega

variable (hshift : ∀ w : UInt32, w.toNat < 2 ^ 31 → f (w <<< 1) = w)

include hshift in
/-- The bits that a register reads, no more than it has, might as well be in it from the
beginning. -/
theorem foldl_shiftIn_eq_iterate (hf : XorLinear f) (hlen : u.length ≤ 32) (l : UInt32) :
    u.foldl (shiftIn f) l = f^[u.length] (l ^^^ wordOf u) := by
  induction u generalizing l with
  | nil => simp [wordOf]
  | cons bit u ih =>
    have hlt := toNat_wordOf_lt (Nat.le_of_succ_le hlen)
    have hpow : 2 ^ u.length ≤ 2 ^ 31 :=
      Nat.pow_le_pow_right (by decide) (Nat.le_of_succ_le_succ hlen)
    have hword : f (l ^^^ wordOf (bit :: u)) = f (l ^^^ bitWord bit) ^^^ wordOf u := by
      rw [wordOf, ← UInt32.xor_assoc, hf, hshift _ (hlt.trans_le hpow)]
    rw [List.foldl_cons, ih (Nat.le_of_succ_le hlen), List.length_cons,
      Function.iterate_succ_apply, hword, shiftIn]

include hshift in
/-- **Bursts.** A pattern within as many bits as the register has leaves it nonzero. -/
theorem foldl_shiftIn_burst_ne_zero (hf : XorLinear f) (hinj : Function.Injective f)
    (hlen : u.length ≤ 32) (hu : true ∈ u) (n m : ℕ) :
    (List.replicate n false ++ u ++ List.replicate m false).foldl (shiftIn f) 0 ≠ 0 := by
  rw [List.foldl_append, List.foldl_append, foldl_shiftIn_replicate, foldl_shiftIn_replicate,
    hf.iterate_zero, foldl_shiftIn_eq_iterate hshift hf hlen, UInt32.zero_xor]
  refine hf.iterate_ne_zero hinj (hf.iterate_ne_zero hinj ?_ _) _
  intro hzero
  exact absurd (eq_false_of_wordOf_eq_zero hlen hzero true hu) (by decide)

end Burst

/-! ### Odd patterns -/

/-- A register keeps the parity `φ` of its word and of the bits it reads. -/
theorem foldl_shiftIn_parity {φ : UInt32 → Bool} (hφ : ∀ a b, φ (a ^^^ b) = (φ a ^^ φ b))
    (hone : φ 1 = true) (hstep : ∀ w, φ (f w) = φ w) (u : List Bool) (l : UInt32) :
    φ (u.foldl (shiftIn f) l) = (φ l ^^ decide (u.count true % 2 = 1)) := by
  have hzero : φ 0 = false := by simpa using hφ 0 0
  induction u generalizing l with
  | nil => simp
  | cons bit u ih =>
    rw [List.foldl_cons, ih, shiftIn, hstep, hφ, Bool.xor_assoc]
    congr 1
    rcases bit with _ | _
    · rw [bitWord, if_neg (by decide), hzero, Bool.false_xor]
      simp
    · rw [bitWord, if_pos rfl, hone, List.count_cons_self]
      rcases Nat.mod_two_eq_zero_or_one (u.count true) with h | h
      · simp [Nat.add_mod, h]
      · simp [Nat.add_mod, h]

/-- **Odd patterns** leave the register nonzero. -/
theorem foldl_shiftIn_odd_ne_zero {φ : UInt32 → Bool} (hφ : ∀ a b, φ (a ^^^ b) = (φ a ^^ φ b))
    (hone : φ 1 = true) (hstep : ∀ w, φ (f w) = φ w) {u : List Bool}
    (hu : u.count true % 2 = 1) : u.foldl (shiftIn f) 0 ≠ 0 := by
  have hzero : φ 0 = false := by simpa using hφ 0 0
  intro h
  have hparity := foldl_shiftIn_parity hφ hone hstep u 0
  rw [h, hzero] at hparity
  simp [hu] at hparity

/-! ### Pairs -/

/-- **Pairs** at a distance below the period of the register leave it nonzero. -/
theorem foldl_shiftIn_pair_ne_zero (hf : XorLinear f) (hinj : Function.Injective f) {k : ℕ}
    (hk : k + 1 < Function.minimalPeriod f 1) (n m : ℕ) :
    (List.replicate n false ++ true :: (List.replicate k false ++
      true :: List.replicate m false)).foldl (shiftIn f) 0 ≠ 0 := by
  have hfirst : shiftIn f 0 true = f 1 := by rw [shiftIn, UInt32.zero_xor]; rfl
  rw [List.foldl_append, foldl_shiftIn_replicate, hf.iterate_zero, List.foldl_cons,
    List.foldl_append, foldl_shiftIn_replicate, List.foldl_cons, foldl_shiftIn_replicate, hfirst,
    ← Function.iterate_succ_apply]
  refine hf.iterate_ne_zero hinj (fun hzero => ?_) m
  -- the register would be back at the bit that was mixed in first
  have hback : f^[k + 1] 1 = 1 := by
    refine UInt32.xor_eq_zero_iff.mp (hinj ?_)
    rw [hf.map_zero]
    exact hzero
  exact Function.not_isPeriodicPt_of_pos_of_lt_minimalPeriod (Nat.succ_ne_zero k) hk hback

/-! ### The shape of a pattern -/

section Pattern

variable {e : List Bool}

theorem eq_replicate_of_count_eq_zero (h : e.count true = 0) :
    e = List.replicate e.length false := by
  refine List.eq_replicate_iff.mpr ⟨rfl, fun bit hbit => ?_⟩
  rcases bit with _ | _
  · rfl
  · exact absurd hbit (List.count_eq_zero.mp h)

/-- A pattern up to its first one. -/
theorem exists_first_true (h : true ∈ e) :
    ∃ n rest, e = List.replicate n false ++ true :: rest := by
  induction e with
  | nil => simp at h
  | cons bit e ih =>
    rcases bit with _ | _
    · obtain ⟨n, rest, rfl⟩ := ih (by simpa using h)
      exact ⟨n + 1, rest, rfl⟩
    · exact ⟨0, e, rfl⟩

/-- A pattern whose ones lie within `k` consecutive bits. -/
theorem exists_burst (h : true ∈ e) {n k : ℕ}
    (hwithin : ∀ i, e[i]? = some true → n ≤ i ∧ i < n + k) :
    ∃ n u m, e = List.replicate n false ++ u ++ List.replicate m false ∧ u.length ≤ k ∧
      true ∈ u := by
  obtain ⟨n₀, rest, rfl⟩ := exists_first_true h
  have hfirst := (hwithin n₀ (by simp)).1
  have hrest : ((true :: rest).drop k).count true = 0 := by
    refine List.count_eq_zero.mpr fun hmem => ?_
    obtain ⟨j, hj⟩ := List.mem_iff_getElem?.mp hmem
    have := hwithin (n₀ + (k + j)) (by simpa [List.getElem?_append] using hj)
    omega
  have hk : 0 < k := by
    have := hwithin n₀ (by simp)
    omega
  refine ⟨n₀, (true :: rest).take k, ((true :: rest).drop k).length, ?_, by simp, ?_⟩
  · rw [← eq_replicate_of_count_eq_zero hrest, List.append_assoc, List.take_append_drop]
  · obtain ⟨k, rfl⟩ := Nat.exists_eq_succ_of_ne_zero hk.ne'
    simp

/-- A pattern with two ones. -/
theorem exists_pair (h : e.count true = 2) :
    ∃ n k m, e = List.replicate n false ++ true :: (List.replicate k false ++
      true :: List.replicate m false) := by
  have hmem : true ∈ e := List.count_pos_iff.mp (by omega)
  obtain ⟨n, rest, rfl⟩ := exists_first_true hmem
  have hcount : rest.count true = 1 := by simpa [List.count_replicate] using h
  obtain ⟨k, rest', rfl⟩ :=
    exists_first_true (List.count_pos_iff.mp (by omega : 0 < rest.count true))
  have hcount' : rest'.count true = 0 := by simpa [List.count_replicate] using hcount
  exact ⟨n, k, rest'.length, by rw [← eq_replicate_of_count_eq_zero hcount']⟩

end Pattern

/-! ### Iterates of a linear map -/

/-- The values of the `2 ^ j`-th iterate of a linear map at the powers of two, from those of the
map itself. -/
def squares (basis : List UInt32) : ℕ → List UInt32
  | 0 => basis
  | j + 1 => (squares basis j).map fun w => xorSum (squares basis j) w.toNat

theorem squares_eq (hf : XorLinear f) (j : ℕ) :
    squares ((bitBasis 32).map f) j = (bitBasis 32).map f^[2 ^ j] := by
  induction j with
  | zero => simp [squares]
  | succ j ih =>
    rw [squares, ih, List.map_map]
    refine List.map_congr_left fun w _ => ?_
    rw [Function.comp_apply, xorSum_map (hf.iterate _), xorSum_bitBasis le_rfl (UInt32.toNat_lt _),
      ← Function.iterate_add_apply, Nat.pow_succ, Nat.mul_two]

theorem xorSum_squares (hf : XorLinear f) (j : ℕ) (w : UInt32) :
    xorSum (squares ((bitBasis 32).map f) j) w.toNat = f^[2 ^ j] w := by
  rw [squares_eq hf, xorSum_map (hf.iterate _), xorSum_bitBasis le_rfl w.toNat_lt]

end Library
