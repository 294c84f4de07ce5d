import TinyLeveldb.Env.BackgroundQueue

/-!
# Background work that schedules more work

`env::Schedule` and `env::BackgroundThreadMain` statement by statement, where the function of an
item may call `Schedule` on the same `env`. `bg_queue_mutex` is a plain `std::mutex`: it can be
locked only while it is free, whoever holds it. The threads are clients `κ` and the background
threads, numbered as they are created; both run the same `Schedule`, a client on its own and a
background thread from within the function of an item.

The `lock_guard` of `BackgroundThreadMain` lives to the end of the loop's body, so `item.function`
runs under the mutex, whereas `Schedule` gives its own guard a block to end with. A function that
calls `Schedule` therefore waits for the mutex its own thread holds (`Inv.selfWaiting_iff`), and
does so for ever (`SelfWaiting.forever`). This is out of reach exactly when no function of an item
that clients schedule calls `Schedule` (`not_selfWaiting_iff`).

As in `BackgroundQueue`, the semaphore starts at `0`.
-/

namespace TinyLeveldb

open Library

namespace BackgroundWork

/-- Where a thread is in a call of `Schedule`. -/
inductive Call (ω : Type)
  /-- It waits for the mutex. -/
  | entering (item : ω)
  /-- It holds the mutex and pushes next. -/
  | locked (item : ω)
  /-- It has pushed and calls `sem_post` next. -/
  | pushed
  /-- It has posted and leaves the block of its guard next. -/
  | posted
  /-- It reads `is_background_thread_started` next. -/
  | unlocked
  /-- It has read `false` and sets the flag next. -/
  | unstarted
  /-- It creates a background thread next. -/
  | starting

/-- Where a thread is outside of `Schedule`. -/
inductive Outer (ω : Type)
  /-- A client. -/
  | client
  /-- In `BackgroundThreadMain`, and not in the function of an item. -/
  | loop (phase : Phase ω)
  /-- In the function of an item, which will call `Schedule` with these items in turn. -/
  | running (calls : List ω)

/-- Where a thread is. -/
structure Control (ω : Type) where
  outer : Outer ω
  call : Option (Call ω)

variable {κ ω : Type}

/-- It holds the mutex. -/
@[simp]
def Call.Inside : Call ω → Prop
  | locked _ | pushed | posted => True
  | entering _ | unlocked | unstarted | starting => False

/-- It holds the mutex. -/
@[simp]
def Outer.Inside : Outer ω → Prop
  | client => False
  | loop phase => phase.Inside
  | running _ => True

namespace Control

/-- It holds the mutex, here or further out. -/
def Inside (c : Control ω) : Prop := c.outer.Inside ∨ ∃ call, c.call = some call ∧ call.Inside

/-- It is at one of the two `lock_guard`s. -/
def Waits (c : Control ω) : Prop :=
  (∃ item, c.call = some (.entering item)) ∨ (c.outer = .loop .woken ∧ c.call = none)

/-- A call of `Schedule` is that of a client, or of a function and at its `lock_guard`. -/
def Sound (c : Control ω) : Prop :=
  c.call ≠ none → c.outer = .client ∨
    (∃ calls, c.outer = .running calls) ∧ ∃ item, c.call = some (.entering item)

@[simp]
theorem inside_outer {outer : Outer ω} : (⟨outer, none⟩ : Control ω).Inside ↔ outer.Inside := by
  simp [Inside]

@[simp]
theorem inside_call {outer : Outer ω} {call : Call ω} :
    (⟨outer, some call⟩ : Control ω).Inside ↔ outer.Inside ∨ call.Inside := by
  simp [Inside]

@[simp]
theorem waits_outer {outer : Outer ω} :
    (⟨outer, none⟩ : Control ω).Waits ↔ outer = .loop .woken := by
  simp [Waits]

@[simp]
theorem waits_call {outer : Outer ω} {call : Call ω} :
    (⟨outer, some call⟩ : Control ω).Waits ↔ ∃ item, call = .entering item := by
  simp [Waits]

@[simp]
theorem sound_outer {outer : Outer ω} : (⟨outer, none⟩ : Control ω).Sound := fun h => absurd rfl h

@[simp]
theorem sound_client {call : Option (Call ω)} : (⟨.client, call⟩ : Control ω).Sound :=
  fun _ => .inl rfl

end Control

end BackgroundWork

open BackgroundWork

/-- The members of `env` that the background work uses, the number of background threads created
so far, and where each thread is. -/
structure BackgroundWork (κ ω : Type) where
  bgQueue : List ω
  bgQueueSemaphore : ℕ
  bgQueueMutex : Option (κ ⊕ ℕ)
  isBackgroundThreadStarted : Bool
  created : ℕ
  control : κ ⊕ ℕ → Control ω

namespace BackgroundWork

variable {κ ω : Type}

/-- Nothing is scheduled, and no background thread has been created. -/
def init (κ ω : Type) : BackgroundWork κ ω where
  bgQueue := []
  bgQueueSemaphore := 0
  bgQueueMutex := none
  isBackgroundThreadStarted := false
  created := 0
  control
    | .inl _ => ⟨.client, none⟩
    | .inr _ => ⟨.loop .waiting, none⟩

/-- Some thread waits for the mutex and holds it. -/
def SelfWaiting (s : BackgroundWork κ ω) : Prop :=
  ∃ t, (s.control t).Waits ∧ s.bgQueueMutex = some t

variable [DecidableEq κ]

/-- A thread moves on. -/
def setControl (s : BackgroundWork κ ω) (t : κ ⊕ ℕ) (c : Control ω) : BackgroundWork κ ω :=
  { s with control := Function.update s.control t c }

/-- The steps of the threads. Clients schedule the given items, and the function of an item may
make the given sequences of calls of `Schedule`. -/
inductive Step (items : Set ω) (mayCall : ω → List ω → Prop) :
    BackgroundWork κ ω → BackgroundWork κ ω → Prop
  /-- A client calls `Schedule`. -/
  | call {s : BackgroundWork κ ω} {t : κ ⊕ ℕ} {item : ω} : s.control t = ⟨.client, none⟩ →
      item ∈ items → Step items mayCall s (s.setControl t ⟨.client, some (.entering item)⟩)
  /-- The function of an item calls `Schedule`. -/
  | callNested {s : BackgroundWork κ ω} {t : κ ⊕ ℕ} {item : ω} {calls : List ω} :
      s.control t = ⟨.running (item :: calls), none⟩ →
      Step items mayCall s (s.setControl t ⟨.running calls, some (.entering item)⟩)
  | lock {s : BackgroundWork κ ω} {t : κ ⊕ ℕ} {outer : Outer ω} {item : ω} :
      s.control t = ⟨outer, some (.entering item)⟩ → s.bgQueueMutex = none →
      Step items mayCall s
        ({ s with bgQueueMutex := some t }.setControl t ⟨outer, some (.locked item)⟩)
  | push {s : BackgroundWork κ ω} {t : κ ⊕ ℕ} {outer : Outer ω} {item : ω} :
      s.control t = ⟨outer, some (.locked item)⟩ →
      Step items mayCall s
        ({ s with bgQueue := s.bgQueue ++ [item] }.setControl t ⟨outer, some .pushed⟩)
  | semPost {s : BackgroundWork κ ω} {t : κ ⊕ ℕ} {outer : Outer ω} :
      s.control t = ⟨outer, some .pushed⟩ →
      Step items mayCall s
        ({ s with bgQueueSemaphore := s.bgQueueSemaphore + 1 }.setControl t ⟨outer, some .posted⟩)
  | unlock {s : BackgroundWork κ ω} {t : κ ⊕ ℕ} {outer : Outer ω} :
      s.control t = ⟨outer, some .posted⟩ →
      Step items mayCall s
        ({ s with bgQueueMutex := none }.setControl t ⟨outer, some .unlocked⟩)
  | readStarted {s : BackgroundWork κ ω} {t : κ ⊕ ℕ} {outer : Outer ω} :
      s.control t = ⟨outer, some .unlocked⟩ → s.isBackgroundThreadStarted = true →
      Step items mayCall s (s.setControl t ⟨outer, none⟩)
  | readUnstarted {s : BackgroundWork κ ω} {t : κ ⊕ ℕ} {outer : Outer ω} :
      s.control t = ⟨outer, some .unlocked⟩ → s.isBackgroundThreadStarted = false →
      Step items mayCall s (s.setControl t ⟨outer, some .unstarted⟩)
  | setStarted {s : BackgroundWork κ ω} {t : κ ⊕ ℕ} {outer : Outer ω} :
      s.control t = ⟨outer, some .unstarted⟩ →
      Step items mayCall s
        ({ s with isBackgroundThreadStarted := true }.setControl t ⟨outer, some .starting⟩)
  /-- The background threads that have been created are those with the first numbers. -/
  | create {s : BackgroundWork κ ω} {t : κ ⊕ ℕ} {outer : Outer ω} :
      s.control t = ⟨outer, some .starting⟩ →
      Step items mayCall s ({ s with created := s.created + 1 }.setControl t ⟨outer, none⟩)
  | semWait {s : BackgroundWork κ ω} {n : ℕ} : s.control (.inr n) = ⟨.loop .waiting, none⟩ →
      n < s.created → 0 < s.bgQueueSemaphore →
      Step items mayCall s
        ({ s with bgQueueSemaphore := s.bgQueueSemaphore - 1 }.setControl (.inr n)
          ⟨.loop .woken, none⟩)
  | lockLoop {s : BackgroundWork κ ω} {t : κ ⊕ ℕ} : s.control t = ⟨.loop .woken, none⟩ →
      s.bgQueueMutex = none →
      Step items mayCall s
        ({ s with bgQueueMutex := some t }.setControl t ⟨.loop .locked, none⟩)
  | front {s : BackgroundWork κ ω} {t : κ ⊕ ℕ} {item : ω} :
      s.control t = ⟨.loop .locked, none⟩ → s.bgQueue.head? = some item →
      Step items mayCall s (s.setControl t ⟨.loop (.fronted item), none⟩)
  | frontEmpty {s : BackgroundWork κ ω} {t : κ ⊕ ℕ} : s.control t = ⟨.loop .locked, none⟩ →
      s.bgQueue = [] → Step items mayCall s (s.setControl t ⟨.loop .undefined, none⟩)
  | pop {s : BackgroundWork κ ω} {t : κ ⊕ ℕ} {item : ω} :
      s.control t = ⟨.loop (.fronted item), none⟩ → s.bgQueue ≠ [] →
      Step items mayCall s
        ({ s with bgQueue := s.bgQueue.tail }.setControl t ⟨.loop (.popped item), none⟩)
  | popEmpty {s : BackgroundWork κ ω} {t : κ ⊕ ℕ} {item : ω} :
      s.control t = ⟨.loop (.fronted item), none⟩ → s.bgQueue = [] →
      Step items mayCall s (s.setControl t ⟨.loop .undefined, none⟩)
  /-- `item.function(item.arg)` is called, with the guard of the mutex in scope. -/
  | run {s : BackgroundWork κ ω} {t : κ ⊕ ℕ} {item : ω} {calls : List ω} :
      s.control t = ⟨.loop (.popped item), none⟩ → mayCall item calls →
      Step items mayCall s (s.setControl t ⟨.running calls, none⟩)
  | finish {s : BackgroundWork κ ω} {t : κ ⊕ ℕ} : s.control t = ⟨.running [], none⟩ →
      Step items mayCall s (s.setControl t ⟨.loop .done, none⟩)
  | unlockLoop {s : BackgroundWork κ ω} {t : κ ⊕ ℕ} : s.control t = ⟨.loop .done, none⟩ →
      Step items mayCall s
        ({ s with bgQueueMutex := none }.setControl t ⟨.loop .waiting, none⟩)

/-- The states that a run can reach. -/
def Reachable (items : Set ω) (mayCall : ω → List ω → Prop) (s : BackgroundWork κ ω) : Prop :=
  Relation.ReflTransGen (Step items mayCall) (init κ ω) s

/-! ### What a step does -/

section Invariant

variable {items : Set ω} {mayCall : ω → List ω → Prop} {s s' : BackgroundWork κ ω}

/-- What holds in every reachable state, whatever the functions do. -/
structure Inv (s : BackgroundWork κ ω) : Prop where
  exclusive : Exclusive Control.Inside s.bgQueueMutex s.control
  sound : ∀ t, (s.control t).Sound

omit [DecidableEq κ] in
theorem inv_init : (init κ ω).Inv where
  exclusive t := by
    rcases t with t | t <;> simp [init, Control.Inside, Outer.Inside, Phase.Inside]
  sound t := by
    rcases t with t | t <;> simp [init, Control.Sound]

omit [DecidableEq κ] in
/-- Past its `lock_guard`, or while the mutex is free, a call of `Schedule` is that of a client: the
function of an item runs under the mutex. -/
theorem Inv.eq_client (h : s.Inv) {t : κ ⊕ ℕ} {outer : Outer ω} {call : Call ω}
    (ht : s.control t = ⟨outer, some call⟩)
    (hcall : (∀ item, call ≠ .entering item) ∨ s.bgQueueMutex = none) : outer = .client := by
  have hsound := h.sound t
  rw [ht] at hsound
  rcases hsound (Option.some_ne_none call) with hclient | ⟨⟨calls, hrunning⟩, item, hitem⟩
  · exact hclient
  · exfalso
    rcases hcall with hcall | hfree
    · exact hcall item (Option.some.inj hitem)
    · obtain rfl : outer = .running calls := hrunning
      have hinside : (s.control t).Inside := by simp [ht]
      rw [h.exclusive t, hfree] at hinside
      cases hinside

/-- A thread moves from `c` to `c'`: it locks the mutex, unlocks it, or does neither. -/
inductive Moves (t : κ ⊕ ℕ) (c c' : Control ω) : Option (κ ⊕ ℕ) → Option (κ ⊕ ℕ) → Prop
  | lock : c'.Inside → Moves t c c' none (some t)
  | unlock {mutex : Option (κ ⊕ ℕ)} : c.Inside → ¬ c'.Inside → ¬ c.Waits → Moves t c c' mutex none
  | stay {mutex : Option (κ ⊕ ℕ)} : (c'.Inside ↔ c.Inside) → ¬ c.Waits → Moves t c c' mutex mutex

/-- **What a step does**: one thread moves, and only the mutex matters to the others. -/
theorem Step.exists_moves (h : Step items mayCall s s') (hinv : s.Inv) :
    ∃ t c', s'.control = Function.update s.control t c' ∧ c'.Sound ∧
      Moves t (s.control t) c' s.bgQueueMutex s'.bgQueueMutex := by
  cases h with
  | call ht =>
    exact ⟨_, _, rfl, by simp, ht ▸ .stay (by simp) (by simp)⟩
  | callNested ht =>
    exact ⟨_, _, rfl, fun _ => .inr ⟨⟨_, rfl⟩, _, rfl⟩, ht ▸ .stay (by simp) (by simp)⟩
  | lock ht hfree =>
    obtain rfl := hinv.eq_client ht (.inr hfree)
    exact ⟨_, _, rfl, by simp, hfree ▸ .lock (by simp)⟩
  | unlock ht =>
    obtain rfl := hinv.eq_client ht (.inl (by simp))
    exact ⟨_, _, rfl, by simp, ht ▸ .unlock (by simp) (by simp) (by simp)⟩
  -- the other steps in `Schedule`, on the same side of its guard
  | push ht | semPost ht | readStarted ht | readUnstarted ht | setStarted ht | create ht =>
    obtain rfl := hinv.eq_client ht (.inl (by simp))
    exact ⟨_, _, rfl, by simp, ht ▸ .stay (by simp) (by simp)⟩
  | lockLoop ht hfree => exact ⟨_, _, rfl, by simp, hfree ▸ .lock (by simp [Phase.Inside])⟩
  | unlockLoop ht =>
    exact ⟨_, _, rfl, by simp,
      ht ▸ .unlock (by simp [Phase.Inside]) (by simp [Phase.Inside]) (by simp)⟩
  -- the other steps of the loop, on the same side of its guard
  | semWait ht | front ht | frontEmpty ht | pop ht | popEmpty ht | run ht | finish ht =>
    exact ⟨_, _, rfl, by simp, ht ▸ .stay (by simp [Phase.Inside]) (by simp)⟩

theorem Inv.step (h : s.Inv) (hstep : Step items mayCall s s') : s'.Inv := by
  obtain ⟨t, c', hcontrol, hsound, hmoves⟩ := hstep.exists_moves h
  refine ⟨?_, fun t' => ?_⟩
  · have hexclusive := h.exclusive
    rw [hcontrol]
    generalize s.bgQueueMutex = mutex, s'.bgQueueMutex = mutex' at hexclusive hmoves
    rcases hmoves with hinside | ⟨hinside, hout, -⟩ | ⟨hiff, -⟩
    · exact hexclusive.acquire hinside
    · exact hexclusive.release hinside hout
    · exact hexclusive.move hiff
  · rw [hcontrol]
    exact (Function.forall_update_iff s.control fun _ c => c.Sound).mpr
      ⟨hsound, fun t' _ => h.sound t'⟩ t'

theorem Reachable.inv (h : Reachable items mayCall s) : s.Inv := by
  induction h with
  | refl => exact inv_init
  | tail _ hstep ih => exact ih.step hstep

/-! ### Who waits for the mutex it holds -/

omit [DecidableEq κ] in
/-- The threads that wait for the mutex they hold are those in a function that calls `Schedule`. -/
theorem Inv.selfWaiting_iff (h : s.Inv) : s.SelfWaiting ↔
    ∃ t calls item, s.control t = ⟨.running calls, some (.entering item)⟩ := by
  constructor
  · rintro ⟨t, hwaits, hmutex⟩
    have hinside := (h.exclusive t).mpr hmutex
    have hsound := h.sound t
    rcases hcontrol : s.control t with ⟨outer, _ | call⟩
    · -- at the `lock_guard` of the loop it holds nothing
      rw [hcontrol, Control.waits_outer] at hwaits
      simp [hcontrol, hwaits, Phase.Inside] at hinside
    · rw [hcontrol, Control.waits_call] at hwaits
      obtain ⟨item, rfl⟩ := hwaits
      rw [hcontrol] at hsound
      rcases hsound (Option.some_ne_none _) with hclient | ⟨⟨calls, hrunning⟩, -⟩
      · obtain rfl : outer = .client := hclient
        simp [hcontrol] at hinside
      · obtain rfl : outer = .running calls := hrunning
        exact ⟨t, calls, item, hcontrol⟩
  · rintro ⟨t, calls, item, ht⟩
    exact ⟨t, by simp [ht], (h.exclusive t).mp (by simp [ht])⟩

/-- No step of any thread moves a thread that waits for the mutex it holds, or unlocks the mutex. -/
theorem Inv.waits_step (h : s.Inv) (hstep : Step items mayCall s s') {t : κ ⊕ ℕ}
    (hwaits : (s.control t).Waits) (hmutex : s.bgQueueMutex = some t) :
    s'.control t = s.control t ∧ s'.bgQueueMutex = some t := by
  obtain ⟨t', c', hcontrol, -, hmoves⟩ := hstep.exists_moves h
  have hholder : (s.control t').Inside → t = t' := fun hinside =>
    Option.some.inj (hmutex.symm.trans ((h.exclusive t').mp hinside))
  have hne : ¬ (s.control t').Waits → t ≠ t' := by
    rintro hnot rfl
    exact hnot hwaits
  rw [hcontrol]
  rw [hmutex] at hmoves
  generalize s'.bgQueueMutex = mutex' at hmoves ⊢
  rcases hmoves with _ | ⟨hinside, -, hnot⟩ | ⟨-, hnot⟩
  · exact absurd (hholder hinside) (hne hnot)
  · exact ⟨Function.update_of_ne (hne hnot) _ _, rfl⟩

/-- **A thread that waits for the mutex it holds does so for ever**, and with it every thread that
comes to either `lock_guard`. -/
theorem SelfWaiting.forever (h : s.SelfWaiting) (hs : Reachable items mayCall s)
    (hrun : Relation.ReflTransGen (Step items mayCall) s s') : s'.SelfWaiting := by
  induction hrun with
  | refl => exact h
  | tail hrun hstep ih =>
    obtain ⟨t, hwaits, hmutex⟩ := ih
    obtain ⟨hcontrol, hmutex'⟩ := (Reachable.inv (hs.trans hrun)).waits_step hstep hwaits hmutex
    exact ⟨t, hcontrol ▸ hwaits, hmutex'⟩

end Invariant

/-! ### Functions that call nothing -/

section Quiet

variable {items : Set ω} {mayCall : ω → List ω → Prop} {s s' : BackgroundWork κ ω}

/-- The item that a call pushes is one of the given ones. -/
@[simp]
def Call.Quiet (items : Set ω) : Call ω → Prop
  | entering item | locked item => item ∈ items
  | _ => True

/-- The item that a thread has taken is one of the given ones, and a function has no call to
make. -/
@[simp]
def Outer.Quiet (items : Set ω) : Outer ω → Prop
  | loop (.fronted item) | loop (.popped item) => item ∈ items
  | running calls => calls = []
  | _ => True

/-- Only the given items are at hand, and only clients call `Schedule`. -/
def Control.Quiet (items : Set ω) (c : Control ω) : Prop :=
  c.outer.Quiet items ∧ ∀ call, c.call = some call → c.outer = .client ∧ call.Quiet items

@[simp]
theorem Control.quiet_outer {outer : Outer ω} :
    (⟨outer, none⟩ : Control ω).Quiet items ↔ outer.Quiet items := by
  simp [Control.Quiet]

@[simp]
theorem Control.quiet_call {outer : Outer ω} {call : Call ω} :
    (⟨outer, some call⟩ : Control ω).Quiet items ↔ outer = .client ∧ call.Quiet items := by
  constructor
  · exact fun h => h.2 call rfl
  · rintro ⟨rfl, hcall⟩
    exact ⟨trivial, fun call' h => ⟨rfl, Option.some.inj h ▸ hcall⟩⟩

theorem Control.Quiet.outer {outer : Outer ω} {call : Call ω}
    (h : (⟨outer, some call⟩ : Control ω).Quiet items) :
    (⟨outer, none⟩ : Control ω).Quiet items := by
  rw [Control.quiet_outer]
  exact h.1

/-- Only the given items are in the queue and at hand. -/
structure Quiet (items : Set ω) (s : BackgroundWork κ ω) : Prop where
  queue : ∀ item ∈ s.bgQueue, item ∈ items
  control : ∀ t, (s.control t).Quiet items

omit [DecidableEq κ] in
theorem quiet_init : (init κ ω).Quiet items where
  queue := by simp [init]
  control t := by rcases t with t | t <;> simp [init]

theorem Quiet.setControl (h : s.Quiet items) {t : κ ⊕ ℕ} {c' : Control ω}
    (hc' : c'.Quiet items) (t' : κ ⊕ ℕ) : ((s.setControl t c').control t').Quiet items :=
  (Function.forall_update_iff s.control fun _ c => c.Quiet items).mpr
    ⟨hc', fun t' _ => h.control t'⟩ t'

/-- **Step lemma.** Items whose functions call nothing keep the system quiet. -/
theorem Quiet.step (hnone : ∀ item ∈ items, ∀ calls, mayCall item calls → calls = [])
    (h : s.Quiet items) (hstep : Step items mayCall s s') : s'.Quiet items := by
  -- what the moving thread has at hand
  have hquiet : ∀ {t : κ ⊕ ℕ} {c : Control ω}, s.control t = c → c.Quiet items := by
    rintro t c rfl
    exact h.control t
  cases hstep with
  | call ht hitem => exact ⟨h.queue, h.setControl (by simpa using hitem)⟩
  | callNested ht => simpa using hquiet ht
  | push ht =>
    obtain ⟨rfl, hitem⟩ := Control.quiet_call.mp (hquiet ht)
    refine ⟨fun item hmem => ?_, h.setControl (by simp)⟩
    rcases List.mem_append.mp hmem with hmem | hmem
    · exact h.queue item hmem
    · rw [List.mem_singleton.mp hmem]
      exact hitem
  | lock ht | semPost ht | unlock ht | readUnstarted ht | setStarted ht =>
    exact ⟨h.queue, h.setControl (by simpa using hquiet ht)⟩
  | readStarted ht | create ht => exact ⟨h.queue, h.setControl (hquiet ht).outer⟩
  | front _ hhead =>
    have hitem := h.queue _ (List.mem_of_head? hhead)
    exact ⟨h.queue, h.setControl (by simpa using hitem)⟩
  | pop ht =>
    refine ⟨fun item hmem => h.queue item (List.mem_of_mem_tail hmem), h.setControl ?_⟩
    simpa using hquiet ht
  | @run t item calls ht hcalls =>
    have hitem : item ∈ items := by simpa using hquiet ht
    exact ⟨h.queue, h.setControl (by simpa using hnone item hitem calls hcalls)⟩
  -- these phases have no item
  | semWait | lockLoop | frontEmpty | popEmpty | finish | unlockLoop =>
    exact ⟨h.queue, h.setControl (by simp)⟩

theorem Reachable.quiet (hnone : ∀ item ∈ items, ∀ calls, mayCall item calls → calls = [])
    (h : Reachable items mayCall s) : s.Quiet items := by
  induction h with
  | refl => exact quiet_init
  | tail _ hstep ih => exact ih.step hnone hstep

/-- Where no function calls `Schedule`, no thread waits for itself. -/
theorem Reachable.not_selfWaiting
    (hnone : ∀ item ∈ items, ∀ calls, mayCall item calls → calls = [])
    (h : Reachable items mayCall s) : ¬ s.SelfWaiting := by
  rw [h.inv.selfWaiting_iff]
  rintro ⟨t, calls, item, ht⟩
  have hquiet := (h.quiet hnone).control t
  simp [ht] at hquiet

end Quiet

/-! ### A function that calls `Schedule` -/

section Nested

variable {items : Set ω} {mayCall : ω → List ω → Prop} {s : BackgroundWork κ ω} {t : κ ⊕ ℕ}
  {item : ω}

@[simp]
theorem control_setControl_self {c : Control ω} : (s.setControl t c).control t = c := by
  simp [setControl]

/-- The first call of `Schedule`, with no other thread in between. -/
theorem steps_schedule (ht : s.control t = ⟨.client, none⟩) (hitem : item ∈ items)
    (hfree : s.bgQueueMutex = none) (hstarted : s.isBackgroundThreadStarted = false) :
    Relation.ReflTransGen (Step items mayCall) s
      { s with
        bgQueue := s.bgQueue ++ [item]
        bgQueueSemaphore := s.bgQueueSemaphore + 1
        bgQueueMutex := none
        isBackgroundThreadStarted := true
        created := s.created + 1 } := by
  have hcall : Relation.ReflTransGen (Step items mayCall) s _ := .single (.call ht hitem)
  have hlock := hcall.tail (.lock control_setControl_self hfree)
  have hpush := hlock.tail (.push control_setControl_self)
  have hpost := hpush.tail (.semPost control_setControl_self)
  have hunlock := hpost.tail (.unlock control_setControl_self)
  have hread := hunlock.tail (.readUnstarted control_setControl_self hstarted)
  have hset := hread.tail (.setStarted control_setControl_self)
  have hcreate := hset.tail (.create control_setControl_self)
  have hback : Function.update s.control t ⟨.client, none⟩ = s.control := by
    rw [← ht, Function.update_eq_self]
  simpa only [setControl, Function.update_idem, hback] using hcreate

/-- A background thread takes the item in front and calls its function, with no other thread in
between. -/
theorem steps_run {n : ℕ} {calls : List ω} (ht : s.control (.inr n) = ⟨.loop .waiting, none⟩)
    (hcreated : n < s.created) (hpos : 0 < s.bgQueueSemaphore) (hfree : s.bgQueueMutex = none)
    (hitem : s.bgQueue.head? = some item) (hcalls : mayCall item calls) :
    ∃ s', Relation.ReflTransGen (Step items mayCall) s s' ∧
      s'.control (.inr n) = ⟨.running calls, none⟩ ∧ s'.bgQueueMutex = some (.inr n) := by
  have hne : s.bgQueue ≠ [] := by
    rintro hnil
    simp [hnil] at hitem
  have hwait : Relation.ReflTransGen (Step items mayCall) s _ :=
    .single (.semWait ht hcreated hpos)
  have hlock := hwait.tail (.lockLoop control_setControl_self hfree)
  have hfront := hlock.tail (.front control_setControl_self hitem)
  have hpop := hfront.tail (.pop control_setControl_self hne)
  have hrun := hpop.tail (.run control_setControl_self hcalls)
  exact ⟨_, hrun, control_setControl_self, rfl⟩

/-- A function that may call `Schedule` can come to wait for its own thread. -/
theorem exists_selfWaiting [Inhabited κ] {nested : ω} {calls : List ω} (hitem : item ∈ items)
    (hcalls : mayCall item (nested :: calls)) :
    ∃ s : BackgroundWork κ ω, Reachable items mayCall s ∧ s.SelfWaiting := by
  let scheduled : BackgroundWork κ ω :=
    { init κ ω with
      bgQueue := [item], bgQueueSemaphore := 1, isBackgroundThreadStarted := true, created := 1 }
  have hschedule : Relation.ReflTransGen (Step items mayCall) (init κ ω) scheduled :=
    steps_schedule (t := .inl default) rfl hitem rfl rfl
  obtain ⟨s, hrun, ht, hmutex⟩ : ∃ s, Relation.ReflTransGen (Step items mayCall) scheduled s ∧
      s.control (.inr 0) = ⟨.running (nested :: calls), none⟩ ∧ s.bgQueueMutex = some (.inr 0) :=
    steps_run rfl Nat.zero_lt_one Nat.zero_lt_one rfl rfl hcalls
  refine ⟨_, (hschedule.trans hrun).tail (.callNested ht), .inr 0, ?_, hmutex⟩
  simp

/-- **Background work may schedule more work only if it does not call `Schedule` itself.** In no
reachable state does a thread wait for the mutex it holds, if and only if no function of an item
that clients schedule ever calls `Schedule`. -/
theorem not_selfWaiting_iff [Inhabited κ] (items : Set ω) (mayCall : ω → List ω → Prop) :
    (∀ s : BackgroundWork κ ω, Reachable items mayCall s → ¬ s.SelfWaiting) ↔
      ∀ item ∈ items, ∀ calls, mayCall item calls → calls = [] := by
  constructor
  · intro hnever item hitem calls hcalls
    by_contra hne
    obtain ⟨nested, rest, rfl⟩ := List.exists_cons_of_ne_nil hne
    obtain ⟨s, hs, hself⟩ := exists_selfWaiting (κ := κ) hitem hcalls
    exact hnever s hs hself
  · exact fun hnone s hs => hs.not_selfWaiting hnone

/-- One client, and an item whose function schedules another, which does nothing. -/
theorem not_forall_not_selfWaiting :
    ¬ ∀ (items : Set Bool) (mayCall : Bool → List Bool → Prop) (s : BackgroundWork Unit Bool),
      Reachable items mayCall s → ¬ s.SelfWaiting := by
  intro h
  let mayCall (item : Bool) (calls : List Bool) : Prop := calls = if item then [false] else []
  obtain ⟨s, hs, hself⟩ : ∃ s : BackgroundWork Unit Bool,
      Reachable {true} mayCall s ∧ s.SelfWaiting := exists_selfWaiting rfl rfl
  exact h _ _ s hs hself

end Nested

end BackgroundWork

end TinyLeveldb
