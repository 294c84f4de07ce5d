import Mathlib.Algebra.BigOperators.Group.Finset.Piecewise
import Mathlib.Data.Fintype.Card

/-!
# Threads that move one at a time

A system of threads keeps a phase for each of them, and a step changes the phase of one thread.
Two kinds of facts about all threads survive such a change by a local check:

* how many threads are in a phase with a given property (`countWhere_update`);
* that the threads inside a critical section are exactly the holder of its lock (`Exclusive`).
-/

namespace Library

variable {ι α : Type*}

/-! ### Counting -/

section Count

variable [Fintype ι] (p : α → Prop) [DecidablePred p]

/-- The number of threads whose phase satisfies `p`. -/
def countWhere (phase : ι → α) : ℕ := (Finset.univ.filter fun t => p (phase t)).card

variable {p} {phase : ι → α} {t : ι} {a : α}

theorem countWhere_pos (h : p (phase t)) : 0 < countWhere p phase :=
  Finset.card_pos.mpr ⟨t, by simpa using h⟩

theorem countWhere_eq_zero (h : ∀ t, ¬ p (phase t)) : countWhere p phase = 0 := by
  simp [countWhere, h]

/-- One thread moves: the count changes by what that thread counts. -/
theorem countWhere_update [DecidableEq ι] :
    countWhere p (Function.update phase t a) + (if p (phase t) then 1 else 0) =
      countWhere p phase + if p a then 1 else 0 := by
  let counts (t : ι) : ℕ := if p (phase t) then 1 else 0
  have hupdate : (fun t' => if p (Function.update phase t a t') then 1 else 0) =
      Function.update counts t (if p a then 1 else 0) := by
    funext t'
    exact Function.apply_update (fun _ b => if p b then 1 else 0) phase t a t'
  have hmem : t ∈ Finset.univ := Finset.mem_univ t
  have hrest : ∑ t', counts t' = counts t + ∑ t' ∈ Finset.univ \ {t}, counts t' := by
    conv_lhs => rw [← Function.update_eq_self t counts, Finset.sum_update_of_mem hmem]
  rw [countWhere, countWhere, Finset.card_filter, Finset.card_filter, hupdate,
    Finset.sum_update_of_mem hmem]
  change _ + counts t = (∑ t', counts t') + _
  rw [hrest]
  omega

end Count

/-! ### A lock -/

section Lock

/-- The threads whose phase is inside the critical section are exactly the holder of the lock. -/
def Exclusive (inside : α → Prop) (lock : Option ι) (phase : ι → α) : Prop :=
  ∀ t, inside (phase t) ↔ lock = some t

variable {inside : α → Prop} {lock : Option ι} {phase : ι → α} {t : ι} {a : α}

theorem Exclusive.eq (h : Exclusive inside lock phase) {t' : ι} (ht : inside (phase t))
    (ht' : inside (phase t')) : t = t' :=
  Option.some.inj (((h t).mp ht).symm.trans ((h t').mp ht'))

variable [DecidableEq ι]

theorem Exclusive.acquire (h : Exclusive inside none phase) (ha : inside a) :
    Exclusive inside (some t) (Function.update phase t a) := by
  intro t'
  by_cases ht : t' = t
  · subst ht
    simpa using ha
  · rw [Function.update_of_ne ht]
    have hout : ¬ inside (phase t') := fun hin => by simpa using (h t').mp hin
    exact iff_of_false hout fun heq => ht (Option.some.inj heq).symm

theorem Exclusive.release (h : Exclusive inside lock phase) (ht : inside (phase t))
    (ha : ¬ inside a) : Exclusive inside none (Function.update phase t a) := by
  intro t'
  refine iff_of_false ?_ (by simp)
  by_cases heq : t' = t
  · subst heq
    simpa using ha
  · rw [Function.update_of_ne heq]
    exact fun hin => heq (h.eq hin ht)

theorem Exclusive.move (h : Exclusive inside lock phase) (ha : inside a ↔ inside (phase t)) :
    Exclusive inside lock (Function.update phase t a) := by
  intro t'
  by_cases heq : t' = t
  · subst heq
    rw [Function.update_self, ha]
    exact h t'
  · rw [Function.update_of_ne heq]
    exact h t'

end Lock

end Library
