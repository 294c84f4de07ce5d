import Mathlib.Data.List.Basic
import Mathlib.Logic.Function.Basic
import Mathlib.Data.List.Nodup

/-!
# Linked lists through a successor function

A linked structure in memory is a successor function `f : α → Option α` (the `next` field of
each cell, `none` for a null pointer). `Path f a l e` says that following `f` from `a` visits
exactly the cells `l` and then yields `e`: a null-terminated list has `e = none`, a circular
one ends in `some h` for its head `h`.

Pointer updates are `Function.update`s of `f`. The rules say what splicing a cell in behind
another and unlinking a cell do to a path, and that updates elsewhere do nothing. `IsRing` is
a circular doubly linked list with a head cell, a path of `next` and, in the other direction,
a path of `prev`; its rules are the path rules applied in both directions.
-/

namespace Library

variable {α : Type*}

/-! ### Paths -/

/-- Following `f` from `a` visits exactly the cells of `l`, then yields `e`. -/
def Path (f : α → Option α) : α → List α → Option α → Prop
  | a, [], e => f a = e
  | a, x :: l, e => f a = some x ∧ Path f x l e

section Path

variable {f g : α → Option α} {a x : α} {l l₁ l₂ : List α} {e e' : Option α}

@[simp]
theorem path_nil : Path f a [] e ↔ f a = e := Iff.rfl

@[simp]
theorem path_cons : Path f a (x :: l) e ↔ f a = some x ∧ Path f x l e := Iff.rfl

/-- A path splits at every cell it visits. -/
theorem path_append_cons :
    Path f a (l₁ ++ x :: l₂) e ↔ Path f a l₁ (some x) ∧ Path f x l₂ e := by
  induction l₁ generalizing a with
  | nil => simp
  | cons y l₁ ih => simp [ih, and_assoc]

theorem path_concat : Path f a (l ++ [x]) e ↔ Path f a l (some x) ∧ f x = e :=
  path_append_cons

/-- A path only reads `f` at its start and at the cells it visits. -/
theorem Path.congr (h : Path f a l e) (hfg : ∀ y ∈ a :: l, g y = f y) : Path g a l e := by
  induction l generalizing a with
  | nil => exact (hfg a (by simp)).trans h
  | cons x l ih =>
    refine ⟨(hfg a (by simp)).trans h.1, ih h.2 fun y hy => hfg y ?_⟩
    exact List.mem_cons_of_mem a hy

/-- A path that ends in `none` visits all cells from its start on, so there is only one. -/
theorem Path.unique (h : Path f a l₁ none) (h' : Path f a l₂ none) : l₁ = l₂ := by
  induction l₁ generalizing a l₂ with
  | nil =>
    cases l₂ with
    | nil => rfl
    | cons y l₂ => cases h.symm.trans h'.1
  | cons x l₁ ih =>
    cases l₂ with
    | nil => cases h.1.symm.trans h'
    | cons y l₂ =>
      obtain rfl := Option.some.inj (h.1.symm.trans h'.1)
      rw [ih h.2 h'.2]

/-- The last cell of a path, its start when it visits none, carries the end pointer. -/
theorem Path.getLastD (h : Path f a l e) : f (l.getLastD a) = e := by
  induction l generalizing a with
  | nil => exact h
  | cons x l ih =>
    rw [List.getLastD_cons]
    exact ih h.2

/-- The first pointer of a path. -/
theorem Path.head (h : Path f a l e) : f a = l.head?.or e := by
  cases l with
  | nil => simpa using h
  | cons x l => simpa using h.1

/-- The pointers of a path lead to the cells it visits, and to its end. -/
theorem Path.mem_of_eq_some (h : Path f a l (some x)) {y z : α} (hy : y ∈ a :: l)
    (hz : f y = some z) : z ∈ l ∨ z = x := by
  induction l generalizing a with
  | nil =>
    obtain rfl : y = a := by simpa using hy
    exact .inr (Option.some.inj (hz.symm.trans h))
  | cons b l ih =>
    rcases List.mem_cons.mp hy with rfl | hy
    · obtain rfl : b = z := Option.some.inj (h.1.symm.trans hz)
      exact .inl (by simp)
    · exact (ih h.2 hy).imp_left fun hmem => List.mem_cons_of_mem b hmem

theorem headD_mem_cons (a : α) (l : List α) : l.headD a ∈ a :: l := by
  cases l <;> simp

/-! ### Pointer updates -/

variable [DecidableEq α]

/-- An update away from the path does nothing to it. -/
theorem Path.update_of_notMem (h : Path f a l e) {y : α} (hy : y ∉ a :: l) (e' : Option α) :
    Path (Function.update f y e') a l e :=
  h.congr fun _ hz => Function.update_of_ne (ne_of_mem_of_not_mem hz hy) _ _

/-- Redirecting the last cell of a path redirects the end of the path. -/
theorem Path.update_getLastD (h : Path f a l e) (hnd : (a :: l).Nodup) (e' : Option α) :
    Path (Function.update f (l.getLastD a) e') a l e' := by
  induction l generalizing a with
  | nil => simp
  | cons x l ih =>
    have hnd' := List.nodup_cons.mp hnd
    have hne : a ≠ l.getLastD x := fun heq =>
      hnd'.1 (heq ▸ List.getLastD_mem_cons)
    rw [List.getLastD_cons]
    exact ⟨by rw [Function.update_of_ne hne]; exact h.1, ih h.2 hnd'.2⟩

/-- **Unlinking.** Redirecting the cell before `x` to what `x` points at removes `x`. -/
theorem Path.unlink (h : Path f a (l₁ ++ x :: l₂) e) (hnd : (a :: (l₁ ++ x :: l₂)).Nodup) :
    Path (Function.update f (l₁.getLastD a) (f x)) a (l₁ ++ l₂) e := by
  obtain ⟨h₁, h₂⟩ := path_append_cons.mp h
  have hnd₁ : (a :: l₁).Nodup :=
    hnd.sublist ((List.sublist_append_left l₁ _).cons_cons a)
  cases l₂ with
  | nil =>
    rw [path_nil.mp h₂, List.append_nil]
    exact h₁.update_getLastD hnd₁ e
  | cons y l₂ =>
    have hdisj : l₁.getLastD a ∉ y :: l₂ := by
      have hnd' : ((a :: l₁) ++ x :: y :: l₂).Nodup := by simpa using hnd
      have hd := (List.nodup_append'.mp hnd').2.2
      exact fun hc => hd List.getLastD_mem_cons (List.mem_cons_of_mem x hc)
    rw [h₂.1]
    exact path_append_cons.mpr
      ⟨h₁.update_getLastD hnd₁ _, h₂.2.update_of_notMem hdisj _⟩

/-- **Splicing in.** A new cell `x` that takes over the pointer of the cell `l₁.getLastD a` and
is then pointed at by it stands behind that cell. -/
theorem Path.splice (h : Path f a (l₁ ++ l₂) e) (hnd : (a :: (l₁ ++ l₂)).Nodup)
    (hx : x ∉ a :: (l₁ ++ l₂)) :
    Path (Function.update (Function.update f x (f (l₁.getLastD a))) (l₁.getLastD a) (some x))
      a (l₁ ++ x :: l₂) e := by
  have hsub : a :: l₁ ⊆ a :: (l₁ ++ l₂) := List.cons_subset_cons a (by simp)
  have hnd₁ : (a :: l₁).Nodup :=
    hnd.sublist ((List.sublist_append_left l₁ _).cons_cons a)
  have hp : l₁.getLastD a ∈ a :: l₁ := List.getLastD_mem_cons
  have hxp : x ≠ l₁.getLastD a := fun heq => hx (heq ▸ hsub hp)
  cases l₂ with
  | nil =>
    have h' : Path f a l₁ e := by simpa using h
    refine path_concat.mpr ⟨?_, ?_⟩
    · exact (h'.update_of_notMem (fun hc => hx (hsub hc)) _).update_getLastD hnd₁ _
    · rw [Function.update_of_ne hxp, Function.update_self, h'.getLastD]
  | cons y l₂ =>
    obtain ⟨h₁, h₂⟩ := path_append_cons.mp h
    have hnd' : ((a :: l₁) ++ y :: l₂).Nodup := by simpa using hnd
    have hdisj : l₁.getLastD a ∉ y :: l₂ := fun hc => (List.nodup_append'.mp hnd').2.2 hp hc
    have hxy : x ∉ y :: l₂ := fun hc =>
      hx (List.mem_cons_of_mem a (List.mem_append_right l₁ hc))
    refine path_append_cons.mpr ⟨?_, ?_, ?_⟩
    · exact (h₁.update_of_notMem (fun hc => hx (hsub hc)) _).update_getLastD hnd₁ _
    · rw [Function.update_of_ne hxp, Function.update_self, h₁.getLastD]
    · exact (h₂.update_of_notMem hxy _).update_of_notMem hdisj _

end Path

/-! ### Rings -/

/-- A circular doubly linked list with head cell `h` and further cells `l`: `next` runs through
`l` and back to `h`, `prev` runs the other way, and no cell occurs twice. -/
structure IsRing (next prev : α → Option α) (h : α) (l : List α) : Prop where
  forth : Path next h l (some h)
  back : Path prev h l.reverse (some h)
  nodup : (h :: l).Nodup

section Ring

variable {next prev next' prev' : α → Option α} {h x : α} {l l₁ l₂ : List α}

/-- A ring only depends on the pointers of its own cells. -/
theorem IsRing.congr (hr : IsRing next prev h l) (hn : ∀ y ∈ h :: l, next' y = next y)
    (hp : ∀ y ∈ h :: l, prev' y = prev y) : IsRing next' prev' h l :=
  ⟨hr.forth.congr hn, hr.back.congr fun y hy => hp y (by simpa using hy), hr.nodup⟩

/-- No pointer leads out of a ring. -/
theorem IsRing.mem_of_points (hr : IsRing next prev h l) {y z : α} (hy : y ∈ h :: l)
    (hz : next y = some z ∨ prev y = some z) : z ∈ h :: l := by
  rcases hz with hz | hz
  · rcases hr.forth.mem_of_eq_some hy hz with hmem | rfl
    · exact List.mem_cons_of_mem h hmem
    · exact List.mem_cons_self
  · rcases hr.back.mem_of_eq_some (by simpa using hy) hz with hmem | rfl
    · exact List.mem_cons_of_mem h (List.mem_reverse.mp hmem)
    · exact List.mem_cons_self

theorem isRing_nil (hn : next h = some h) (hp : prev h = some h) : IsRing next prev h [] :=
  ⟨hn, hp, by simp⟩

theorem IsRing.next_head (hr : IsRing next prev h l) : next h = some (l.headD h) := by
  rw [hr.forth.head]
  cases l <;> rfl

theorem IsRing.prev_head (hr : IsRing next prev h l) : prev h = some (l.getLastD h) := by
  rw [hr.back.head, List.head?_reverse, List.getLastD_eq_getLast?]
  cases l.getLast? <;> rfl

/-- A ring is empty exactly when its head points at itself. -/
theorem IsRing.next_head_eq_iff (hr : IsRing next prev h l) : next h = some h ↔ l = [] := by
  rw [hr.next_head]
  cases l with
  | nil => simp
  | cons y l =>
    have : y ≠ h := fun heq => (List.nodup_cons.mp hr.nodup).1 (by simp [heq])
    simpa using this

theorem IsRing.next_mem (hr : IsRing next prev h (l₁ ++ x :: l₂)) :
    next x = some (l₂.headD h) := by
  have := (path_append_cons.mp hr.forth).2.head
  rw [this]
  cases l₂ <;> rfl

theorem IsRing.prev_mem (hr : IsRing next prev h (l₁ ++ x :: l₂)) :
    prev x = some (l₁.getLastD h) := by
  have hb : Path prev h (l₂.reverse ++ x :: l₁.reverse) (some h) := by
    simpa using hr.back
  rw [(path_append_cons.mp hb).2.head, List.head?_reverse, List.getLastD_eq_getLast?]
  cases l₁.getLast? <;> rfl

/-- No further cell points at itself. -/
theorem IsRing.next_ne_self (hr : IsRing next prev h l) (hx : x ∈ l) : next x ≠ some x := by
  obtain ⟨l₁, l₂, rfl⟩ := List.append_of_mem hx
  obtain ⟨hh, hnd⟩ := List.nodup_cons.mp hr.nodup
  rw [hr.next_mem]
  intro heq
  cases l₂ with
  | nil =>
    obtain rfl : h = x := Option.some.inj heq
    exact hh hx
  | cons y l₂ =>
    obtain rfl : y = x := Option.some.inj heq
    exact (List.nodup_cons.mp (List.nodup_append.mp hnd).2.1).1 List.mem_cons_self

variable [DecidableEq α]

/-- **Unlinking from a ring**: the two neighbours of `x` are made to point at each other. -/
theorem IsRing.unlink (hr : IsRing next prev h (l₁ ++ x :: l₂)) :
    IsRing (Function.update next (l₁.getLastD h) (next x))
      (Function.update prev (l₂.headD h) (prev x)) h (l₁ ++ l₂) where
  forth := hr.forth.unlink hr.nodup
  back := by
    have hb : Path prev h (l₂.reverse ++ x :: l₁.reverse) (some h) := by
      simpa using hr.back
    have hnd : (h :: (l₂.reverse ++ x :: l₁.reverse)).Nodup := by
      have hperm : (l₁ ++ x :: l₂).reverse = l₂.reverse ++ x :: l₁.reverse := by simp
      rw [← hperm, List.nodup_cons, List.mem_reverse, List.nodup_reverse, ← List.nodup_cons]
      exact hr.nodup
    simpa using hb.unlink hnd
  nodup := by
    refine hr.nodup.sublist (List.Sublist.cons_cons h ?_)
    exact (List.sublist_cons_self x l₂).append_left l₁

/-- **Linking in before the head**: the new cell becomes the last of the ring. -/
theorem IsRing.append (hr : IsRing next prev h l) (hx : x ∉ h :: l) :
    IsRing (Function.update (Function.update next x (some h)) (l.getLastD h) (some x))
      (Function.update (Function.update prev x (some (l.getLastD h))) h (some x))
      h (l ++ [x]) where
  forth := by
    have hf : Path next h (l ++ []) (some h) := by simpa using hr.forth
    have := hf.splice (by simpa using hr.nodup) (x := x) (by simpa using hx)
    rwa [hr.forth.getLastD] at this
  back := by
    have hb : Path prev h ([] ++ l.reverse) (some h) := by simpa using hr.back
    have hnd : (h :: ([] ++ l.reverse)).Nodup := by
      simpa [List.nodup_cons, List.nodup_reverse] using hr.nodup
    have := hb.splice hnd (x := x) (by simpa using hx)
    simpa [hr.prev_head] using this
  nodup := by
    have hperm : (h :: (l ++ [x])).Perm (x :: h :: l) := by
      have := (List.perm_append_singleton x (h :: l))
      simpa using this
    exact hperm.nodup_iff.mpr (List.nodup_cons.mpr ⟨hx, hr.nodup⟩)

end Ring

end Library
