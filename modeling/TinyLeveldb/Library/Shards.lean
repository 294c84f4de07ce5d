import Mathlib.Data.List.Basic
import Mathlib.Logic.Function.Basic
import TinyLeveldb.Library.Fallible

/-!
# A component that is split into shards

`exec` runs operations on a family of shards, and `part k op` is what the operation asks of
shard `k`, if anything. When a completed step is a completed step of every shard that is asked
(`Decomposes`), so is a completed run (`Decomposes.runAll_iff`), and operations that ask no
shard in common commute (`Decomposes.comm_iff`).
-/

namespace Library

universe u

variable {ε ι ο : Type*} {σ κ : Type u}

/-- A step of a shard that may not be asked anything. -/
def stepPart (step : σ → ο → Except ε σ) (s : σ) : Option ο → Except ε σ
  | none => .ok s
  | some o => step s o

@[simp]
theorem stepPart_none (step : σ → ο → Except ε σ) (s : σ) : stepPart step s none = .ok s := rfl

@[simp]
theorem stepPart_some (step : σ → ο → Except ε σ) (s : σ) (o : ο) :
    stepPart step s (some o) = step s o := rfl

/-- In the states that satisfy `Inv`, a step of `exec` is a step of every shard. -/
structure Decomposes (step : σ → ο → Except ε σ) (part : κ → ι → Option ο)
    (exec : (κ → σ) → ι → Except ε (κ → σ)) (Inv : (κ → σ) → Prop) : Prop where
  exec_iff : ∀ {s i s'}, Inv s →
    (exec s i = .ok s' ↔ ∀ k, stepPart step (s k) (part k i) = .ok (s' k))
  inv : ∀ {s i s'}, Inv s → exec s i = .ok s' → Inv s'

section Decomposes

variable {step : σ → ο → Except ε σ} {part : κ → ι → Option ο}
  {exec : (κ → σ) → ι → Except ε (κ → σ)} {Inv : (κ → σ) → Prop}

theorem runAll_filterMap_cons (s : σ) (i : ι) (is : List ι) (k : κ) :
    runAll step s ((i :: is).filterMap (part k)) =
      stepPart step s (part k i) >>= fun s' => runAll step s' (is.filterMap (part k)) := by
  rcases h : part k i with _ | o
  · rw [List.filterMap_cons_none h]
    rfl
  · rw [List.filterMap_cons_some h, runAll_cons]
    rfl

theorem Decomposes.run_inv (hd : Decomposes step part exec Inv) {s s' : κ → σ} {is : List ι}
    (hs : Inv s) (hrun : runAll exec s is = .ok s') : Inv s' :=
  runAll_inv (P := fun _ s => Inv s) (fun _ _ _ _ h hstep => hd.inv h hstep) hs hrun

/-- **Run rule.** A run of the family is a run of every shard on what it is asked. -/
theorem Decomposes.runAll_iff (hd : Decomposes step part exec Inv) {s s' : κ → σ} {is : List ι}
    (hs : Inv s) :
    runAll exec s is = .ok s' ↔ ∀ k, runAll step (s k) (is.filterMap (part k)) = .ok (s' k) := by
  induction is generalizing s with
  | nil =>
    simp only [runAll_nil, List.filterMap_nil, Except.ok.injEq]
    exact funext_iff
  | cons i is ih =>
    simp only [runAll_filterMap_cons, runAll_cons, bind_eq_ok]
    constructor
    · rintro ⟨t, hi, hrest⟩ k
      exact ⟨t k, (hd.exec_iff hs).mp hi k, (ih (hd.inv hs hi)).mp hrest k⟩
    · intro h
      -- the states of the shards after the first step make a state of the family
      choose t hi hrest using h
      have hstep := (hd.exec_iff hs).mpr hi
      exact ⟨t, hstep, (ih (hd.inv hs hstep)).mpr hrest⟩

/-- **Commutation rule.** Operations that ask no shard in common commute. -/
theorem Decomposes.comm_iff (hd : Decomposes step part exec Inv) {s s' : κ → σ} {i j : ι}
    (hs : Inv s) (hdisjoint : ∀ k, part k i = none ∨ part k j = none) :
    runAll exec s [i, j] = .ok s' ↔ runAll exec s [j, i] = .ok s' := by
  rw [hd.runAll_iff hs, hd.runAll_iff hs]
  refine forall_congr' fun k => ?_
  rcases hdisjoint k with h | h <;>
    simp [runAll_filterMap_cons, h]

end Decomposes

/-! ### Asking one shard, or all -/

section Update

variable [DecidableEq κ] {step : σ → ο → Except ε σ} {s s' : κ → σ} {o : ο}

/-- A step of one shard, written back to the family. -/
theorem bind_update_iff {k : κ} :
    (step (s k) o >>= fun t => .ok (Function.update s k t)) = .ok s' ↔
      ∀ k', stepPart step (s k') (if k = k' then some o else none) = .ok (s' k') := by
  rw [bind_eq_ok]
  constructor
  · rintro ⟨t, ht, hs'⟩ k'
    obtain rfl : Function.update s k t = s' := by simpa using hs'
    by_cases hk : k = k'
    · subst hk
      simpa using ht
    · rw [if_neg hk, stepPart_none, Function.update_of_ne (Ne.symm hk)]
  · intro h
    have hk := h k
    rw [if_pos rfl] at hk
    refine ⟨s' k, hk, congrArg Except.ok ?_⟩
    funext k'
    by_cases hkk : k' = k
    · rw [hkk, Function.update_self]
    · have hother := h k'
      rw [if_neg (Ne.symm hkk), stepPart_none] at hother
      rw [Function.update_of_ne hkk]
      simpa using hother

/-- Steps of the shards of a list, one after the other. -/
theorem foldlM_update_iff {step : σ → Except ε σ} {l : List κ} (hl : l.Nodup) :
    l.foldlM (fun s k => step (s k) >>= fun t => .ok (Function.update s k t)) s = .ok s' ↔
      ∀ k, if k ∈ l then step (s k) = .ok (s' k) else s' k = s k := by
  induction l generalizing s with
  | nil =>
    simp only [List.foldlM_nil, List.not_mem_nil, if_false]
    refine ⟨fun h k => ?_, fun h => congrArg Except.ok (funext h).symm⟩
    obtain rfl : s = s' := by simpa [pure, Except.pure] using h
    rfl
  | cons k₀ l ih =>
    obtain ⟨hk₀, hl⟩ := List.nodup_cons.mp hl
    rw [List.foldlM_cons, bind_eq_ok]
    constructor
    · rintro ⟨s₁, hs₁, hrest⟩ k
      obtain ⟨t, ht, hup⟩ := bind_eq_ok.mp hs₁
      obtain rfl : Function.update s k₀ t = s₁ := by simpa using hup
      have hk := (ih hl).mp hrest k
      by_cases hkk : k = k₀
      · subst hkk
        rw [if_neg hk₀, Function.update_self] at hk
        rw [if_pos (by simp), hk, ht]
      · rw [Function.update_of_ne hkk] at hk
        simpa [hkk] using hk
    · intro h
      have hfirst := h k₀
      rw [if_pos (by simp)] at hfirst
      refine ⟨_, bind_eq_ok.mpr ⟨_, hfirst, rfl⟩, (ih hl).mpr fun k => ?_⟩
      have hk := h k
      by_cases hkk : k = k₀
      · subst hkk
        rw [if_neg hk₀, Function.update_self]
      · rw [Function.update_of_ne hkk]
        simpa [hkk] using hk

end Update

end Library
