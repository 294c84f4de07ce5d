import Mathlib.Data.List.Induction

/-!
# Runs of a fallible step function

A component is a step function `step : σ → ι → Except ε σ`: an operation either completes in
a new state or fails. `runAll step s ops` executes a list of operations, stopping at the first
failure. Three rules carry every whole-run result:

* `runAll_inv`: what each completed step preserves, a completed run preserves. The invariant
  may mention the operations executed so far;
* `runAll_isOk_iff`: when a predicate `Good` on the history decides at every step whether the
  step completes, the run completes exactly when every operation of it is `Good`;
* `runAll_map`: what the steps do to the image of a state and an operation, a run does to the
  images.

`EveryStep` speaks of every step of a run whose operations return something
(`everyStep_iff`), and `ReachableWithin` and `RunWithin` are the relational forms, for a component
whose operations are not always available to its environment and whose invariant holds only while
the states stay inside a given bound.
-/

namespace Library

universe u

variable {ε ι : Type*} {σ : Type u}

/-! ### Inverting a bind -/

section Bind

variable {α β : Type u} {f : α → Except ε β}

@[simp]
theorem ok_bind (a : α) : (Except.ok a >>= f) = f a := rfl

@[simp]
theorem error_bind (e : ε) : ((Except.error e : Except ε α) >>= f) = .error e := rfl

theorem exists_of_isOk {x : Except ε α} (h : x.isOk = true) : ∃ a, x = .ok a := by
  rcases x with e | a
  · cases h
  · exact ⟨a, rfl⟩

theorem exists_of_any {x : Except ε α} {p : α → Bool} (h : x.toOption.any p = true) :
    ∃ a, x = .ok a ∧ p a = true := by
  rcases x with e | a
  · cases h
  · exact ⟨a, rfl, h⟩

/-- A sequence of two fallible computations completes exactly when both do. -/
theorem bind_eq_ok {x : Except ε α} {b : β} :
    (x >>= f) = .ok b ↔ ∃ a, x = .ok a ∧ f a = .ok b := by
  rcases x with e | a
  · exact iff_of_false (by simp) (by simp)
  · simp

/-- A sequence of two computations does not fail with `e` when neither does. -/
theorem bind_ne_error {x : Except ε α} {e : ε} (hx : x ≠ .error e)
    (hf : ∀ a, x = .ok a → f a ≠ .error e) : (x >>= f) ≠ .error e := by
  rcases x with e' | a
  · rw [error_bind]
    rintro ⟨⟩
    exact hx rfl
  · exact hf a rfl

/-- Mapping a computation that completes on every element, read through `k`. -/
theorem mapM_eq_ok {γ : Type*} {g : α → γ} {k : β → γ} {l : List α}
    (h : ∀ a ∈ l, ∃ b, f a = .ok b ∧ k b = g a) :
    ∃ bs, l.mapM f = .ok bs ∧ bs.map k = l.map g := by
  induction l with
  | nil => exact ⟨[], rfl, rfl⟩
  | cons a l ih =>
    obtain ⟨b, hb, hk⟩ := h a (by simp)
    obtain ⟨bs, hbs, hks⟩ := ih fun a' ha' => h a' (List.mem_cons_of_mem a ha')
    refine ⟨b :: bs, ?_, by rw [List.map_cons, List.map_cons, hk, hks]⟩
    rw [List.mapM_cons, hb, ok_bind, hbs, ok_bind]
    rfl

/-- Where the rest of a computation maps what it is given, so does the whole. -/
theorem map_bind_eq {α' β' : Type u} {x : Except ε α} {g : α → α'} {g' : β → β'}
    {f' : α' → Except ε β'} (h : ∀ a, f' (g a) = (f a).map g') :
    (x.map g >>= f') = (x >>= f).map g' := by
  rcases x with e | a
  · rfl
  · exact h a

/-- The same for a first computation that both have in common. -/
theorem bind_eq_map {β' : Type u} {x : Except ε α} {g' : β → β'} {f' : α → Except ε β'}
    (h : ∀ a, f' a = (f a).map g') : (x >>= f') = (x >>= f).map g' := by
  rcases x with e | a
  · rfl
  · exact h a

end Bind

/-! ### Runs -/

section Runs

variable (step : σ → ι → Except ε σ)

/-- Execute the operations in order, stopping at the first failure. -/
def runAll (s : σ) (ops : List ι) : Except ε σ := ops.foldlM step s

@[simp]
theorem runAll_nil (s : σ) : runAll step s [] = .ok s := rfl

theorem runAll_cons (s : σ) (i : ι) (ops : List ι) :
    runAll step s (i :: ops) = step s i >>= fun s' => runAll step s' ops := rfl

theorem runAll_append (s : σ) (ops ops' : List ι) :
    runAll step s (ops ++ ops') = runAll step s ops >>= fun s' => runAll step s' ops' := by
  simp only [runAll, List.foldlM_append]

theorem runAll_concat (s : σ) (ops : List ι) (i : ι) :
    runAll step s (ops ++ [i]) = runAll step s ops >>= fun s' => step s' i := by
  rw [runAll_append]
  congr 1
  funext s'
  rw [runAll_cons]
  cases step s' i <;> rfl

variable {step}

/-- **Invariant rule.** An invariant of the history and the state that every completed step
preserves holds after every completed run. -/
theorem runAll_inv {P : List ι → σ → Prop}
    (hstep : ∀ pre i s s', P pre s → step s i = .ok s' → P (pre ++ [i]) s')
    {s s' : σ} {ops : List ι} (h₀ : P [] s) (hrun : runAll step s ops = .ok s') :
    P ops s' := by
  induction ops using List.reverseRecOn generalizing s' with
  | nil =>
    obtain rfl : s = s' := by simpa using hrun
    exact h₀
  | append_singleton ops i ih =>
    rw [runAll_concat, bind_eq_ok] at hrun
    obtain ⟨t, ht, hi⟩ := hrun
    exact hstep ops i t s' (ih ht) hi

/-- **Mapping rule.** Where every step maps, a run maps. -/
theorem runAll_map {g : σ → σ} {k : ι → ι} {ops : List ι}
    (hstep : ∀ s, ∀ i ∈ ops, step (g s) (k i) = (step s i).map g) (s : σ) :
    runAll step (g s) (ops.map k) = (runAll step s ops).map g := by
  induction ops generalizing s with
  | nil => rfl
  | cons i ops ih =>
    rw [List.map_cons, runAll_cons, runAll_cons, hstep s i List.mem_cons_self]
    exact map_bind_eq fun s' => ih (fun t j hj => hstep t j (List.mem_cons_of_mem i hj)) s'

/-- Every operation of `ops` satisfies `Good` against the operations before it. -/
def AllSteps (Good : List ι → ι → Prop) (ops : List ι) : Prop :=
  ∀ pre i post, ops = pre ++ i :: post → Good pre i

@[simp]
theorem allSteps_nil (Good : List ι → ι → Prop) : AllSteps Good [] := by
  intro pre i post h
  simp at h

theorem allSteps_concat {Good : List ι → ι → Prop} {ops : List ι} {i : ι} :
    AllSteps Good (ops ++ [i]) ↔ AllSteps Good ops ∧ Good ops i := by
  constructor
  · intro h
    refine ⟨fun pre j post hj => h pre j (post ++ [i]) (by simp [hj]), h ops i [] rfl⟩
  · rintro ⟨h, hi⟩ pre j post hj
    rcases List.eq_nil_or_concat post with rfl | ⟨post', k, rfl⟩
    · obtain ⟨rfl, hij⟩ := List.append_inj' hj rfl
      obtain rfl : i = j := by simpa using hij
      exact hi
    · have hj' : ops ++ [i] = (pre ++ j :: post') ++ [k] := by simp [hj]
      exact h pre j post' (List.append_inj' hj' rfl).1

theorem AllSteps.mono {Good Good' : List ι → ι → Prop} {ops : List ι}
    (hG : ∀ pre i, Good pre i → Good' pre i) (h : AllSteps Good ops) : AllSteps Good' ops :=
  fun pre i post hops => hG pre i (h pre i post hops)

/-- **Completion rule.** A run all of whose operations are `Good` completes, in a state that
satisfies the invariant. -/
theorem runAll_ok_of_allSteps {P : List ι → σ → Prop} {Good : List ι → ι → Prop}
    (hok : ∀ pre i s, P pre s → Good pre i → ∃ s', step s i = .ok s' ∧ P (pre ++ [i]) s')
    {s : σ} {ops : List ι} (h₀ : P [] s) (h : AllSteps Good ops) :
    ∃ s', runAll step s ops = .ok s' ∧ P ops s' := by
  induction ops using List.reverseRecOn with
  | nil => exact ⟨s, rfl, h₀⟩
  | append_singleton ops i ih =>
    obtain ⟨hops, hi⟩ := allSteps_concat.mp h
    obtain ⟨t, ht, hP⟩ := ih hops
    obtain ⟨s', hs', hP'⟩ := hok ops i t hP hi
    exact ⟨s', by rw [runAll_concat, bind_eq_ok]; exact ⟨t, ht, hs'⟩, hP'⟩

/-- **Exactness rule.** If moreover an operation that is not `Good` fails, a run completes
exactly when all of its operations are `Good`. -/
theorem runAll_isOk_iff {P : List ι → σ → Prop} {Good : List ι → ι → Prop}
    (hok : ∀ pre i s, P pre s → Good pre i → ∃ s', step s i = .ok s' ∧ P (pre ++ [i]) s')
    (hfail : ∀ pre i s s', P pre s → step s i = .ok s' → Good pre i)
    {s : σ} {ops : List ι} (h₀ : P [] s) :
    (∃ s', runAll step s ops = .ok s') ↔ AllSteps Good ops := by
  refine ⟨?_, fun h => (runAll_ok_of_allSteps hok h₀ h).imp fun _ h => h.1⟩
  induction ops using List.reverseRecOn with
  | nil => exact fun _ => allSteps_nil Good
  | append_singleton ops i ih =>
    rintro ⟨s', hs'⟩
    rw [runAll_concat, bind_eq_ok] at hs'
    obtain ⟨t, ht, hi⟩ := hs'
    have hops : AllSteps Good ops := ih ⟨t, ht⟩
    obtain ⟨t', ht', hP⟩ := runAll_ok_of_allSteps hok h₀ hops
    obtain rfl : t = t' := by simpa using ht.symm.trans ht'
    exact allSteps_concat.mpr ⟨hops, hfail ops i t s' hP hi⟩

end Runs

/-! ### Steps that return something -/

section EveryStep

variable {ο : Type u} (step : σ → ι → Except ε (ο × σ))

/-- Every step that a run of `ops` from `s` completes, with the state before it, the operation,
what it returns and the state after it, satisfies `P`. -/
def EveryStep (P : σ → ι → ο → σ → Prop) (s : σ) : List ι → Prop
  | [] => True
  | i :: ops => ∀ o s', step s i = .ok (o, s') → P s i o s' ∧ EveryStep P s' ops

variable {step}

/-- A completed first step, and the steps of the rest. -/
theorem everyStep_cons {P : σ → ι → ο → σ → Prop} {s s' : σ} {i : ι} {o : ο} {ops : List ι}
    (h : step s i = .ok (o, s')) :
    EveryStep step P s (i :: ops) ↔ P s i o s' ∧ EveryStep step P s' ops := by
  constructor
  · intro hevery
    exact hevery o s' h
  · intro hboth o' s'' h'
    obtain ⟨rfl, rfl⟩ := Prod.mk.inj (Except.ok.inj (h.symm.trans h'))
    exact hboth

/-- **Condition rule.** Where an invariant makes a property of a step equivalent to a condition on
the state before it, and the condition keeps the invariant, a run has the property at every step
exactly when it meets the condition at every step. -/
theorem everyStep_iff {Inv : σ → Prop} {P Good : σ → ι → ο → σ → Prop}
    (hiff : ∀ s i o s', Inv s → step s i = .ok (o, s') → (P s i o s' ↔ Good s i o s'))
    (hinv : ∀ s i o s', Inv s → step s i = .ok (o, s') → Good s i o s' → Inv s')
    {s : σ} {ops : List ι} (h₀ : Inv s) :
    EveryStep step P s ops ↔ EveryStep step Good s ops := by
  induction ops generalizing s with
  | nil => exact Iff.rfl
  | cons i ops ih =>
    refine forall_congr' fun o => forall_congr' fun s' => forall_congr' fun hs' => ?_
    constructor
    · rintro ⟨hP, hrest⟩
      have hgood := (hiff s i o s' h₀ hs').mp hP
      exact ⟨hgood, (ih (hinv s i o s' h₀ hs' hgood)).mp hrest⟩
    · rintro ⟨hgood, hrest⟩
      exact ⟨(hiff s i o s' h₀ hs').mpr hgood, (ih (hinv s i o s' h₀ hs' hgood)).mpr hrest⟩

end EveryStep

/-! ### Reachable states -/

/-- States reachable from `init` through enabled, completed operations, all of them (the
initial one included) inside `Fits`. -/
inductive ReachableWithin (Fits : σ → Prop) (init : σ) (enabled : σ → ι → Prop)
    (step : σ → ι → Except ε σ) : σ → Prop
  | init : Fits init → ReachableWithin Fits init enabled step init
  | step {s s' : σ} {i : ι} : ReachableWithin Fits init enabled step s → enabled s i →
      step s i = .ok s' → Fits s' → ReachableWithin Fits init enabled step s'

/-- Reachability with no bound on the states. -/
abbrev Reachable (init : σ) (enabled : σ → ι → Prop) (step : σ → ι → Except ε σ) : σ → Prop :=
  ReachableWithin (fun _ => True) init enabled step

section Reachable

variable {Fits : σ → Prop} {init : σ} {enabled : σ → ι → Prop} {step : σ → ι → Except ε σ}

/-- The runs that reach those states, with the operations they executed. -/
inductive RunWithin (Fits : σ → Prop) (init : σ) (enabled : σ → ι → Prop)
    (step : σ → ι → Except ε σ) : List ι → σ → Prop
  | init : Fits init → RunWithin Fits init enabled step [] init
  | step {ops : List ι} {s s' : σ} {i : ι} : RunWithin Fits init enabled step ops s →
      enabled s i → step s i = .ok s' → Fits s' → RunWithin Fits init enabled step (ops ++ [i]) s'

/-- Runs with no bound on the states. -/
abbrev Run (init : σ) (enabled : σ → ι → Prop) (step : σ → ι → Except ε σ) : List ι → σ → Prop :=
  RunWithin (fun _ => True) init enabled step

/-- **Invariant rule for runs**: the invariant may mention the operations executed so far. -/
theorem RunWithin.inv {P : List ι → σ → Prop} (h₀ : P [] init)
    (hstep : ∀ ops s i s', P ops s → enabled s i → step s i = .ok s' → Fits s' →
      P (ops ++ [i]) s')
    {ops : List ι} {s : σ} (h : RunWithin Fits init enabled step ops s) : P ops s := by
  induction h with
  | init _ => exact h₀
  | step _ he hi hf ih => exact hstep _ _ _ _ ih he hi hf

/-- A run with one more operation at its start. -/
theorem RunWithin.cons {s₁ s : σ} {i : ι} {ops : List ι} (hf : Fits init) (he : enabled init i)
    (hi : step init i = .ok s₁) (h : RunWithin Fits s₁ enabled step ops s) :
    RunWithin Fits init enabled step (i :: ops) s := by
  induction h with
  | init hf₁ => exact (RunWithin.init hf).step he hi hf₁
  | step _ he' hi' hf' ih => exact ih.step he' hi' hf'

theorem RunWithin.reachable {ops : List ι} {s : σ} (h : RunWithin Fits init enabled step ops s) :
    ReachableWithin Fits init enabled step s := by
  induction h with
  | init hf => exact .init hf
  | step _ he hi hf ih => exact ih.step he hi hf

theorem ReachableWithin.exists_run {s : σ} (h : ReachableWithin Fits init enabled step s) :
    ∃ ops, RunWithin Fits init enabled step ops s := by
  induction h with
  | init hf => exact ⟨[], .init hf⟩
  | step _ he hi hf ih =>
    obtain ⟨ops, hrun⟩ := ih
    exact ⟨_, hrun.step he hi hf⟩

end Reachable

end Library
