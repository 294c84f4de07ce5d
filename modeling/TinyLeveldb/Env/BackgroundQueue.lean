import TinyLeveldb.Library.Threads
import Mathlib.Logic.Relation

/-!
# The queue of background work

`env::Schedule` and `env::BackgroundThreadMain`. The locked section of `Schedule`, a `push` and a
`sem_post`, is one step here, which any client can take while the mutex is free; a background
thread takes its steps one by one, and holds the mutex from `front` until its item has run. The
threads `ι` are the background threads, all of them before their first `sem_wait` at the start:
a thread that has not been created yet is one that has not moved. What the functions of the items
do is left out; `BackgroundWork` has it, and the steps of `Schedule`.

`sem_init` is not part of the source; the semaphore starts at `0`. `sem_wait` and `sem_post` are
modelled by their success paths: a `sem_wait` that a signal interrupts (`EINTR`) and a `sem_post`
at the largest value (`EOVERFLOW`), whose results the source does not look at, are left out.
-/

namespace TinyLeveldb

open Library

/-- Where a background thread is in its loop. -/
inductive Phase (ω : Type)
  /-- Before `sem_wait`. -/
  | waiting
  /-- Past `sem_wait`, before the mutex. -/
  | woken
  /-- It holds the mutex and calls `front` next. -/
  | locked
  /-- It has read `item` and calls `pop` next. -/
  | fronted (item : ω)
  /-- It has popped and runs `item` next. -/
  | popped (item : ω)
  /-- Its item has run, and it unlocks next. -/
  | done
  /-- It called `front` or `pop` on an empty queue. -/
  | undefined

namespace Phase

variable {ω : Type}

/-- Past `sem_wait`, and not yet past `pop`. -/
def Passed : Phase ω → Prop
  | woken | locked | fronted _ => True
  | _ => False

/-- The next call is one of `front` or `pop`. -/
def Taking : Phase ω → Prop
  | locked | fronted _ => True
  | _ => False

/-- Between the lock and the unlock. -/
def Inside : Phase ω → Prop
  | locked | fronted _ | popped _ | done | undefined => True
  | waiting | woken => False

/-- The item that left the queue and has not run yet. -/
def inHand : Phase ω → List ω
  | popped item => [item]
  | _ => []

instance : DecidablePred (Passed : Phase ω → Prop)
  | waiting => isFalse id
  | woken => isTrue trivial
  | locked => isTrue trivial
  | fronted _ => isTrue trivial
  | popped _ => isFalse id
  | done => isFalse id
  | undefined => isFalse id

end Phase

/-- The members of `env` that the background work uses, the phases of the threads, and the items
scheduled and run so far. -/
structure BackgroundQueue (ι ω : Type) where
  bgQueue : List ω
  bgQueueSemaphore : ℕ
  bgQueueMutex : Option ι
  phase : ι → Phase ω
  scheduled : List ω
  ran : List ω

namespace BackgroundQueue

variable {ι ω : Type}

/-- Nothing is scheduled, and no thread has moved. -/
def init (ι ω : Type) : BackgroundQueue ι ω where
  bgQueue := []
  bgQueueSemaphore := 0
  bgQueueMutex := none
  phase := fun _ => .waiting
  scheduled := []
  ran := []

/-- The threads that have passed `sem_wait` and have not popped. -/
def passed [Fintype ι] (s : BackgroundQueue ι ω) : ℕ := countWhere Phase.Passed s.phase

/-- The item that the holder of the mutex has popped and not run. -/
def inHand (s : BackgroundQueue ι ω) : List ω :=
  match s.bgQueueMutex with
  | none => []
  | some t => (s.phase t).inHand

theorem inHand_of_holder {s : BackgroundQueue ι ω} {t : ι} (h : s.bgQueueMutex = some t) :
    s.inHand = (s.phase t).inHand := by
  rw [inHand, h]

variable [DecidableEq ι]

/-- A thread moves to the phase `p`. -/
def setPhase (s : BackgroundQueue ι ω) (t : ι) (p : Phase ω) : BackgroundQueue ι ω :=
  { s with phase := Function.update s.phase t p }

/-- The steps of the clients and of the background threads. -/
inductive Step : BackgroundQueue ι ω → BackgroundQueue ι ω → Prop
  /-- The locked section of `Schedule`. -/
  | schedule {s : BackgroundQueue ι ω} (item : ω) : s.bgQueueMutex = none →
      Step s { s with
        bgQueue := s.bgQueue ++ [item]
        bgQueueSemaphore := s.bgQueueSemaphore + 1
        scheduled := s.scheduled ++ [item] }
  | semWait {s : BackgroundQueue ι ω} {t : ι} : s.phase t = .waiting → 0 < s.bgQueueSemaphore →
      Step s ({ s with bgQueueSemaphore := s.bgQueueSemaphore - 1 }.setPhase t .woken)
  | lock {s : BackgroundQueue ι ω} {t : ι} : s.phase t = .woken → s.bgQueueMutex = none →
      Step s ({ s with bgQueueMutex := some t }.setPhase t .locked)
  | front {s : BackgroundQueue ι ω} {t : ι} {item : ω} : s.phase t = .locked →
      s.bgQueue.head? = some item → Step s (s.setPhase t (.fronted item))
  | frontEmpty {s : BackgroundQueue ι ω} {t : ι} : s.phase t = .locked → s.bgQueue = [] →
      Step s (s.setPhase t .undefined)
  | pop {s : BackgroundQueue ι ω} {t : ι} {item : ω} : s.phase t = .fronted item →
      s.bgQueue ≠ [] → Step s ({ s with bgQueue := s.bgQueue.tail }.setPhase t (.popped item))
  | popEmpty {s : BackgroundQueue ι ω} {t : ι} {item : ω} : s.phase t = .fronted item →
      s.bgQueue = [] → Step s (s.setPhase t .undefined)
  | run {s : BackgroundQueue ι ω} {t : ι} {item : ω} : s.phase t = .popped item →
      Step s ({ s with ran := s.ran ++ [item] }.setPhase t .done)
  | unlock {s : BackgroundQueue ι ω} {t : ι} : s.phase t = .done →
      Step s ({ s with bgQueueMutex := none }.setPhase t .waiting)

/-- What holds in every reachable state. -/
structure Inv [Fintype ι] (s : BackgroundQueue ι ω) : Prop where
  exclusive : Exclusive Phase.Inside s.bgQueueMutex s.phase
  count : s.bgQueueSemaphore + s.passed = s.bgQueue.length
  fronted : ∀ t item, s.phase t = .fronted item → s.bgQueue.head? = some item
  order : s.scheduled = s.ran ++ s.inHand ++ s.bgQueue
  defined : ∀ t, s.phase t ≠ .undefined

/-! ### One thread moves -/

section Move

variable {s : BackgroundQueue ι ω} {t t' : ι} {p : Phase ω}

@[simp]
theorem phase_setPhase_self : (s.setPhase t p).phase t = p := by
  simp [setPhase]

theorem phase_setPhase_of_ne (h : t' ≠ t) : (s.setPhase t p).phase t' = s.phase t' := by
  simp [setPhase, h]

theorem inHand_setPhase_holder (h : s.bgQueueMutex = some t) :
    (s.setPhase t p).inHand = p.inHand := by
  have hmutex : (s.setPhase t p).bgQueueMutex = some t := h
  rw [inHand_of_holder hmutex, phase_setPhase_self]

theorem inHand_setPhase_of_ne (h : s.bgQueueMutex ≠ some t) :
    (s.setPhase t p).inHand = s.inHand := by
  have hmutex : (s.setPhase t p).bgQueueMutex = s.bgQueueMutex := rfl
  rw [inHand, inHand, hmutex]
  rcases holder : s.bgQueueMutex with _ | t'
  · rfl
  · simp only
    rw [phase_setPhase_of_ne]
    intro heq
    exact h (by rw [holder, heq])

theorem defined_setPhase (h : ∀ t, s.phase t ≠ .undefined) (hp : p ≠ .undefined) (t' : ι) :
    (s.setPhase t p).phase t' ≠ .undefined := by
  by_cases heq : t' = t
  · subst heq
    rwa [phase_setPhase_self]
  · rw [phase_setPhase_of_ne heq]
    exact h t'

theorem passed_setPhase [Fintype ι] :
    (s.setPhase t p).passed + (if (s.phase t).Passed then 1 else 0) =
      s.passed + if p.Passed then 1 else 0 := countWhere_update

theorem passed_setPhase_of_iff [Fintype ι] (h : (s.phase t).Passed ↔ p.Passed) :
    (s.setPhase t p).passed = s.passed := by
  have hmoved : (s.setPhase t p).passed + _ = s.passed + _ := passed_setPhase
  simp only [h] at hmoved
  exact Nat.add_right_cancel hmoved

end Move

/-! ### The steps keep the invariant -/

section Inv

variable [Fintype ι] {s s' : BackgroundQueue ι ω} {t : ι} {p : Phase ω} {item : ω}

omit [DecidableEq ι] in
/-- A thread that is about to take an item finds one. -/
theorem Inv.ne_nil (h : s.Inv) (ht : (s.phase t).Taking) : s.bgQueue ≠ [] := by
  intro hnil
  have hpassed : (s.phase t).Passed := by
    revert ht
    rcases s.phase t <;> simp [Phase.Taking, Phase.Passed]
  have hpos : 0 < s.passed := countWhere_pos hpassed
  have hcount := h.count
  rw [hnil, List.length_nil] at hcount
  omega

omit [DecidableEq ι] in
/-- Only the holder of the mutex has read an item. -/
theorem Inv.holder_of_fronted (h : s.Inv) (ht : s.phase t = .fronted item) :
    s.bgQueueMutex = some t :=
  (h.exclusive t).mp (by rw [ht]; trivial)

/-- When the holder of the mutex moves on, only its own phase can say that it has read an item. -/
theorem Inv.fronted_setPhase (h : s.Inv) (ht : s.bgQueueMutex = some t) {queue : List ω}
    (hp : ∀ item, p = .fronted item → queue.head? = some item) (t' : ι) (item : ω)
    (hfronted : (s.setPhase t p).phase t' = .fronted item) : queue.head? = some item := by
  by_cases heq : t' = t
  · subst heq
    rw [phase_setPhase_self] at hfronted
    exact hp item hfronted
  · rw [phase_setPhase_of_ne heq] at hfronted
    have hholder := h.holder_of_fronted hfronted
    rw [ht] at hholder
    exact absurd (Option.some.inj hholder).symm heq

omit [DecidableEq ι] in
theorem inv_init : (init ι ω).Inv where
  exclusive := fun t => iff_of_false id (by simp [init])
  count := by
    have hnone : (init ι ω).passed = 0 := countWhere_eq_zero fun _ => id
    rw [hnone]
    rfl
  fronted := fun t item h => by cases h
  order := rfl
  defined := fun t h => by cases h

omit [DecidableEq ι] in
theorem Inv.schedule (h : s.Inv) (hfree : s.bgQueueMutex = none) :
    ({ s with
      bgQueue := s.bgQueue ++ [item]
      bgQueueSemaphore := s.bgQueueSemaphore + 1
      scheduled := s.scheduled ++ [item] } : BackgroundQueue ι ω).Inv where
  exclusive := h.exclusive
  count := by
    have hcount := h.count
    rw [List.length_append, ← hcount, List.length_singleton, Nat.add_right_comm]
    rfl
  fronted := by
    intro t item' ht
    have hholder := h.holder_of_fronted ht
    rw [hfree] at hholder
    cases hholder
  order := by
    change s.scheduled ++ [item] = s.ran ++ s.inHand ++ (s.bgQueue ++ [item])
    rw [h.order, List.append_assoc]
  defined := h.defined

/-- The semaphore hands one of its units to the thread. -/
theorem Inv.semWait (h : s.Inv) (ht : s.phase t = .waiting) (hpos : 0 < s.bgQueueSemaphore) :
    ({ s with bgQueueSemaphore := s.bgQueueSemaphore - 1 }.setPhase t .woken).Inv where
  exclusive := h.exclusive.move (by rw [ht]; exact Iff.rfl)
  count := by
    have hmoved : (s.setPhase t .woken).passed + _ = s.passed + _ := passed_setPhase
    rw [ht] at hmoved
    have hcount := h.count
    change s.bgQueueSemaphore - 1 + (s.setPhase t .woken).passed = s.bgQueue.length
    change _ + 0 = _ + 1 at hmoved
    omega
  fronted := by
    intro t' item' ht'
    by_cases heq : t' = t
    · subst heq
      rw [phase_setPhase_self] at ht'
      cases ht'
    · rw [phase_setPhase_of_ne heq] at ht'
      exact h.fronted t' item' ht'
  order := by
    have hne : s.bgQueueMutex ≠ some t := by
      intro hholder
      have hinside := (h.exclusive t).mpr hholder
      rw [ht] at hinside
      exact hinside
    change s.scheduled = s.ran ++ (s.setPhase t .woken).inHand ++ s.bgQueue
    rw [inHand_setPhase_of_ne hne, h.order]
  defined := defined_setPhase h.defined (by simp)

theorem Inv.lock (h : s.Inv) (ht : s.phase t = .woken) (hfree : s.bgQueueMutex = none) :
    ({ s with bgQueueMutex := some t }.setPhase t .locked).Inv where
  exclusive := by
    have hexclusive := h.exclusive
    rw [hfree] at hexclusive
    exact hexclusive.acquire trivial
  count := by
    change s.bgQueueSemaphore + (s.setPhase t .locked).passed = s.bgQueue.length
    rw [passed_setPhase_of_iff (by rw [ht]; exact Iff.rfl), h.count]
  fronted := by
    intro t' item' ht'
    by_cases heq : t' = t
    · subst heq
      rw [phase_setPhase_self] at ht'
      cases ht'
    · rw [phase_setPhase_of_ne heq] at ht'
      exact h.fronted t' item' ht'
  order := by
    have horder := h.order
    rw [inHand, hfree] at horder
    rw [inHand_setPhase_holder rfl]
    exact horder
  defined := defined_setPhase h.defined (by simp)

theorem Inv.front (h : s.Inv) (ht : s.phase t = .locked) (hitem : s.bgQueue.head? = some item) :
    (s.setPhase t (.fronted item)).Inv := by
  have hholder : s.bgQueueMutex = some t := (h.exclusive t).mp (by rw [ht]; trivial)
  refine ⟨h.exclusive.move (by rw [ht]; exact Iff.rfl), ?_, ?_, ?_,
    defined_setPhase h.defined (by simp)⟩
  · change s.bgQueueSemaphore + (s.setPhase t (.fronted item)).passed = s.bgQueue.length
    rw [passed_setPhase_of_iff (by rw [ht]; exact Iff.rfl), h.count]
  · refine h.fronted_setPhase hholder fun item' hitem' => ?_
    obtain rfl := Phase.fronted.inj hitem'
    exact hitem
  · change s.scheduled = s.ran ++ (s.setPhase t (.fronted item)).inHand ++ s.bgQueue
    rw [inHand_setPhase_holder hholder, h.order, inHand_of_holder hholder, ht]
    rfl

/-- The item that was read moves from the queue into the hand of its thread. -/
theorem Inv.pop (h : s.Inv) (ht : s.phase t = .fronted item) :
    ({ s with bgQueue := s.bgQueue.tail }.setPhase t (.popped item)).Inv := by
  have hholder := h.holder_of_fronted ht
  obtain ⟨rest, hqueue⟩ := List.head?_eq_some_iff.mp (h.fronted t item ht)
  refine ⟨h.exclusive.move (by rw [ht]; exact Iff.rfl), ?_, ?_, ?_,
    defined_setPhase h.defined (by simp)⟩
  · have hmoved : (s.setPhase t (.popped item)).passed + _ = s.passed + _ := passed_setPhase
    rw [ht] at hmoved
    have hcount := h.count
    change s.bgQueueSemaphore + (s.setPhase t (.popped item)).passed = s.bgQueue.tail.length
    change _ + 1 = _ + 0 at hmoved
    rw [hqueue, List.length_cons] at hcount
    rw [hqueue, List.tail_cons]
    omega
  · exact h.fronted_setPhase hholder fun item' hitem' => by cases hitem'
  · change s.scheduled = s.ran ++ (s.setPhase t (.popped item)).inHand ++ s.bgQueue.tail
    rw [inHand_setPhase_holder hholder, h.order, inHand_of_holder hholder, ht, hqueue,
      List.tail_cons, Phase.inHand, Phase.inHand, List.append_nil, List.append_assoc,
      List.singleton_append]
    simp

theorem Inv.run (h : s.Inv) (ht : s.phase t = .popped item) :
    ({ s with ran := s.ran ++ [item] }.setPhase t .done).Inv := by
  have hholder : s.bgQueueMutex = some t := (h.exclusive t).mp (by rw [ht]; trivial)
  refine ⟨h.exclusive.move (by rw [ht]; exact Iff.rfl), ?_, ?_, ?_,
    defined_setPhase h.defined (by simp)⟩
  · change s.bgQueueSemaphore + (s.setPhase t .done).passed = s.bgQueue.length
    rw [passed_setPhase_of_iff (by rw [ht]; exact Iff.rfl), h.count]
  · exact h.fronted_setPhase hholder fun item' hitem' => by cases hitem'
  · change s.scheduled = s.ran ++ [item] ++ (s.setPhase t .done).inHand ++ s.bgQueue
    rw [inHand_setPhase_holder hholder, h.order, inHand_of_holder hholder, ht, Phase.inHand,
      Phase.inHand, List.append_nil]
    simp

theorem Inv.unlock (h : s.Inv) (ht : s.phase t = .done) :
    ({ s with bgQueueMutex := none }.setPhase t .waiting).Inv := by
  have hholder : s.bgQueueMutex = some t := (h.exclusive t).mp (by rw [ht]; trivial)
  refine ⟨h.exclusive.release (by rw [ht]; trivial) id, ?_, ?_, ?_,
    defined_setPhase h.defined (by simp)⟩
  · change s.bgQueueSemaphore + (s.setPhase t .waiting).passed = s.bgQueue.length
    rw [passed_setPhase_of_iff (by rw [ht]; exact Iff.rfl), h.count]
  · exact h.fronted_setPhase hholder fun item' hitem' => by cases hitem'
  · change s.scheduled = s.ran ++ [] ++ s.bgQueue
    rw [h.order, inHand_of_holder hholder, ht]
    rfl

theorem Inv.step (h : s.Inv) (hstep : Step s s') : s'.Inv := by
  rcases hstep with ⟨item, hfree⟩ | ⟨ht, hpos⟩ | ⟨ht, hfree⟩ | ⟨ht, hitem⟩ | ⟨ht, hnil⟩ |
    ⟨ht, -⟩ | ⟨ht, hnil⟩ | ht | ht
  · exact h.schedule hfree
  · exact h.semWait ht hpos
  · exact h.lock ht hfree
  · exact h.front ht hitem
  · exact absurd hnil (h.ne_nil (by rw [ht]; trivial))
  · exact h.pop ht
  · exact absurd hnil (h.ne_nil (by rw [ht]; trivial))
  · exact h.run ht
  · exact h.unlock ht

theorem inv_of_reachable (h : Relation.ReflTransGen Step (init ι ω) s) : s.Inv := by
  induction h with
  | refl => exact inv_init
  | tail _ hstep ih => exact ih.step hstep

/-- **The queue never runs dry under a thread.** In every reachable state the units of the
semaphore and the threads that have taken one and not popped are as many as the items in the
queue; so no thread calls `front` or `pop` on an empty queue, and pops the item it has read; and
the items run so far are the first ones scheduled, followed by the item in hand and the queue. -/
theorem queue_safe (h : Relation.ReflTransGen Step (init ι ω) s) :
    s.bgQueueSemaphore + s.passed = s.bgQueue.length ∧
    (∀ t, (s.phase t).Taking → s.bgQueue ≠ []) ∧ (∀ t, s.phase t ≠ .undefined) ∧
    (∀ t item, s.phase t = .fronted item → s.bgQueue.head? = some item) ∧
    s.ran <+: s.scheduled ∧ s.scheduled = s.ran ++ s.inHand ++ s.bgQueue := by
  have hinv := inv_of_reachable h
  refine ⟨hinv.count, fun t ht => hinv.ne_nil ht, hinv.defined, hinv.fronted, ?_, hinv.order⟩
  exact ⟨s.inHand ++ s.bgQueue, by rw [hinv.order, List.append_assoc]⟩

end Inv

/-- Two items are scheduled, and one of two threads has read the first. -/
def firstRead : BackgroundQueue Bool ℕ :=
  let woken : BackgroundQueue Bool ℕ :=
    { init Bool ℕ with
      bgQueue := [7, 8], bgQueueSemaphore := 1, scheduled := [7, 8] }.setPhase true .woken
  ({ woken with bgQueueMutex := some true }.setPhase true .locked).setPhase true (.fronted 7)

theorem reachable_firstRead : Relation.ReflTransGen Step (init Bool ℕ) firstRead := by
  refine .tail (.tail (.tail (.tail (.tail .refl (.schedule 7 rfl)) (.schedule 8 rfl))
    (.semWait (t := true) rfl (by decide))) (.lock (t := true) rfl rfl)) ?_
  exact .front rfl rfl

theorem queue_safe_firstRead :
    firstRead.bgQueueSemaphore + firstRead.passed = firstRead.bgQueue.length ∧
    (∀ t, (firstRead.phase t).Taking → firstRead.bgQueue ≠ []) ∧
    (∀ t, firstRead.phase t ≠ .undefined) ∧
    (∀ t item, firstRead.phase t = .fronted item → firstRead.bgQueue.head? = some item) ∧
    firstRead.ran <+: firstRead.scheduled ∧
    firstRead.scheduled = firstRead.ran ++ firstRead.inHand ++ firstRead.bgQueue :=
  queue_safe reachable_firstRead

end BackgroundQueue

end TinyLeveldb
