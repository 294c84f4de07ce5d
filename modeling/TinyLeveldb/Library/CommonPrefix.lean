import Mathlib.Data.List.Basic

/-!
# The longest common prefix

The length of the longest common prefix of two lists is characterised by what is at most it:
the lengths `n` at which both lists have `n` elements, and the same ones
(`le_commonPrefixLength_iff`).
-/

namespace Library

variable {α : Type*} [DecidableEq α]

/-- The length of the longest common prefix. -/
def commonPrefixLength : List α → List α → ℕ
  | a :: as, b :: bs => if a = b then commonPrefixLength as bs + 1 else 0
  | _, _ => 0

theorem le_commonPrefixLength_iff {n : ℕ} {as bs : List α} :
    n ≤ commonPrefixLength as bs ↔ n ≤ as.length ∧ n ≤ bs.length ∧ as.take n = bs.take n := by
  induction as generalizing n bs with
  | nil =>
    simp only [commonPrefixLength, Nat.le_zero, List.length_nil, List.take_nil]
    exact ⟨fun h => by simp [h], And.left⟩
  | cons a as ih =>
    cases bs with
    | nil =>
      simp only [commonPrefixLength, Nat.le_zero, List.length_nil, List.take_nil]
      exact ⟨fun h => by simp [h], fun h => h.2.1⟩
    | cons b bs =>
      cases n with
      | zero => simp
      | succ n =>
        simp only [commonPrefixLength, List.length_cons, List.take_succ_cons, List.cons.injEq,
          Nat.add_le_add_iff_right]
        split_ifs with hab
        · simp [hab, ih]
        · simp [hab]

theorem commonPrefixLength_le_left (as bs : List α) : commonPrefixLength as bs ≤ as.length :=
  (le_commonPrefixLength_iff.mp (Nat.le_refl _)).1

theorem commonPrefixLength_le_right (as bs : List α) : commonPrefixLength as bs ≤ bs.length :=
  (le_commonPrefixLength_iff.mp (Nat.le_refl _)).2.1

theorem take_commonPrefixLength (as bs : List α) :
    as.take (commonPrefixLength as bs) = bs.take (commonPrefixLength as bs) :=
  (le_commonPrefixLength_iff.mp (Nat.le_refl _)).2.2

end Library
