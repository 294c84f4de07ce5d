import TinyLeveldb.Cache.LRUCache
import TinyLeveldb.Library.Path

/-!
# The two circular lists of a cache

`Linked cells lists`: the rings of `lru_` and `in_use_` hold the handles `lists .lru` and
`lists .inUse`. `Cells.entry` is what a handle holds besides its links, so each list operation
has a specification that says what it does to `lists` and that it leaves every `entry` alone.
-/

namespace TinyLeveldb

open Library

/-- A handle without its links. -/
def LRUHandle.unlinked (h : LRUHandle) : LRUHandle := { h with next := none, prev := none }

section Unlinked

variable (h : LRUHandle)

@[simp] theorem LRUHandle.unlinked_refs : h.unlinked.refs = h.refs := rfl

@[simp] theorem LRUHandle.unlinked_inCache : h.unlinked.inCache = h.inCache := rfl

@[simp] theorem LRUHandle.unlinked_charge : h.unlinked.charge = h.charge := rfl

@[simp] theorem LRUHandle.unlinked_key : h.unlinked.key = h.key := rfl

variable {h} in
theorem LRUHandle.unlinked_eq_self (hnext : h.next = none) (hprev : h.prev = none) :
    h.unlinked = h := by
  cases h
  subst hnext hprev
  rfl

end Unlinked

namespace Cells

/-- The `next` pointers. -/
def next (cells : Cells) (a : Addr) : Pointer Addr := (cells a).bind LRUHandle.next

/-- The `prev` pointers. -/
def prev (cells : Cells) (a : Addr) : Pointer Addr := (cells a).bind LRUHandle.prev

/-- What an allocation holds besides its links; `none` before it is made and once it is
freed. -/
def entry (cells : Cells) (n : ℕ) : Option LRUHandle :=
  (cells (.handle n)).map LRUHandle.unlinked

variable {cells : Cells} {a : Addr} {h : LRUHandle} {n : ℕ}

theorem next_eq (hc : cells a = some h) : cells.next a = h.next := by simp [next, hc]

theorem prev_eq (hc : cells a = some h) : cells.prev a = h.prev := by simp [prev, hc]

theorem exists_of_next {p : Addr} (hn : cells.next a = some p) :
    ∃ h, cells a = some h ∧ h.next = some p :=
  Option.bind_eq_some_iff.mp hn

theorem exists_of_entry (he : cells.entry n = some h) :
    ∃ h', cells (.handle n) = some h' ∧ h'.unlinked = h :=
  Option.map_eq_some_iff.mp he

theorem live_of_entry (he : cells.entry n = some h) : cells (.handle n) ≠ none := by
  obtain ⟨h', hc, -⟩ := exists_of_entry he
  simp [hc]

theorem deref_of_entry (he : cells.entry n = some h) :
    ∃ h', cells.deref (some (.handle n)) = .ok h' ∧ h'.unlinked = h := by
  obtain ⟨h', hc, hu⟩ := exists_of_entry he
  exact ⟨h', deref_some hc, hu⟩

theorem entry_update (cells : Cells) (n : ℕ) (v : Option LRUHandle) :
    entry (Function.update cells (.handle n) v) =
      Function.update cells.entry n (v.map LRUHandle.unlinked) := by
  funext m
  by_cases hm : m = n
  · subst hm
    simp [entry]
  · simp [entry, hm]

/-- An assignment to a cell that keeps its links. -/
theorem links_update (hc : cells a = some h) (h' : LRUHandle) (hn : h'.next = h.next)
    (hp : h'.prev = h.prev) :
    next (Function.update cells a (some h')) = cells.next ∧
      prev (Function.update cells a (some h')) = cells.prev := by
  constructor
  · funext b
    by_cases hb : b = a
    · subst hb
      simp [next, hc, hn]
    · simp [next, hb]
  · funext b
    by_cases hb : b = a
    · subst hb
      simp [prev, hc, hp]
    · simp [prev, hb]

/-- The allocated cells. -/
def Live (cells : Cells) (a : Addr) : Prop := cells a ≠ none

theorem live_of_next {p : Addr} (hn : cells.next a = some p) : cells.Live a := by
  obtain ⟨h, hc, -⟩ := exists_of_next hn
  simp [Live, hc]

theorem Live.deref (hl : cells.Live a) :
    ∃ h, cells.deref (some a) = .ok h ∧ h.next = cells.next a ∧ h.prev = cells.prev a := by
  obtain ⟨h, hc⟩ := Option.ne_none_iff_exists'.mp hl
  exact ⟨h, deref_some hc, (next_eq hc).symm, (prev_eq hc).symm⟩

/-- Assigning a `next` pointer. -/
theorem Live.modify_next (hl : cells.Live a) (v : Pointer Addr) :
    ∃ cells', cells.modify (some a) (fun h => { h with next := v }) = .ok cells' ∧
      cells'.next = Function.update cells.next a v ∧ cells'.prev = cells.prev ∧
      cells'.entry = cells.entry ∧ ∀ b, cells'.Live b ↔ cells.Live b := by
  obtain ⟨h, hc⟩ := Option.ne_none_iff_exists'.mp hl
  refine ⟨_, modify_some hc _, ?_, ?_, ?_, ?_⟩
  · funext b
    by_cases hb : b = a <;> simp [next, hb]
  · funext b
    by_cases hb : b = a <;> simp [prev, hb, hc]
  · funext m
    by_cases hb : Addr.handle m = a <;> simp [entry, hb, hc, LRUHandle.unlinked]
  · intro b
    by_cases hb : b = a <;> simp [Live, hb, hc]

/-- Assigning a `prev` pointer. -/
theorem Live.modify_prev (hl : cells.Live a) (v : Pointer Addr) :
    ∃ cells', cells.modify (some a) (fun h => { h with prev := v }) = .ok cells' ∧
      cells'.next = cells.next ∧ cells'.prev = Function.update cells.prev a v ∧
      cells'.entry = cells.entry ∧ ∀ b, cells'.Live b ↔ cells.Live b := by
  obtain ⟨h, hc⟩ := Option.ne_none_iff_exists'.mp hl
  refine ⟨_, modify_some hc _, ?_, ?_, ?_, ?_⟩
  · funext b
    by_cases hb : b = a <;> simp [next, hb, hc]
  · funext b
    by_cases hb : b = a <;> simp [prev, hb]
  · funext m
    by_cases hb : Addr.handle m = a <;> simp [entry, hb, hc, LRUHandle.unlinked]
  · intro b
    by_cases hb : b = a <;> simp [Live, hb, hc]

/-- `LRU_Remove` makes the two neighbours of the cell point at each other. -/
theorem lruRemove_links {e p₁ p₂ : Addr} (he : cells.Live e) (hp₁ : cells.Live p₁)
    (hp₂ : cells.Live p₂) (hprev : cells.prev e = some p₁) (hnext : cells.next e = some p₂)
    (hne : p₂ ≠ e) :
    ∃ cells', cells.lruRemove e = .ok cells' ∧
      cells'.next = Function.update cells.next p₁ (some p₂) ∧
      cells'.prev = Function.update cells.prev p₂ (some p₁) ∧ cells'.entry = cells.entry := by
  obtain ⟨h, hd, hhn, hhp⟩ := he.deref
  rw [hnext] at hhn
  rw [hprev] at hhp
  obtain ⟨cells₁, hm₁, hn₁, hpr₁, he₁, hl₁⟩ := hp₂.modify_prev h.prev
  -- `e` is dereferenced again, after the assignment to `p₂`
  obtain ⟨h', hd', hhn', hhp'⟩ := ((hl₁ e).mpr he).deref
  rw [hn₁, hnext] at hhn'
  rw [hpr₁, Function.update_of_ne hne.symm, hprev] at hhp'
  obtain ⟨cells₂, hm₂, hn₂, hpr₂, he₂, -⟩ := ((hl₁ p₁).mpr hp₁).modify_next h'.next
  refine ⟨cells₂, ?_, by rw [hn₂, hn₁, hhn'], by rw [hpr₂, hpr₁, hhp], by rw [he₂, he₁]⟩
  simp only [lruRemove, hd, ok_bind, hhn, hm₁, hd', hhp', hm₂]

/-- `LRU_Append` links the cell in between `p`, the one before the head, and the head. -/
theorem lruAppend_links {e p : Addr} {side : Side} (he : cells.Live e)
    (hhead : cells.Live (.head side)) (hp : cells.Live p)
    (hprev : cells.prev (.head side) = some p) (hne : p ≠ e) :
    ∃ cells', cells.lruAppend side e = .ok cells' ∧
      cells'.next =
        Function.update (Function.update cells.next e (some (.head side))) p (some e) ∧
      cells'.prev =
        Function.update (Function.update cells.prev e (some p)) (.head side) (some e) ∧
      cells'.entry = cells.entry := by
  obtain ⟨cells₁, hm₁, hn₁, hpr₁, he₁, hl₁⟩ := he.modify_next (some (.head side))
  obtain ⟨list, hd₁, -, hprev₁⟩ := ((hl₁ _).mpr hhead).deref
  rw [hpr₁, hprev] at hprev₁
  obtain ⟨cells₂, hm₂, hn₂, hpr₂, he₂, hl₂⟩ := ((hl₁ _).mpr he).modify_prev list.prev
  obtain ⟨h₂, hd₂, -, hprev₂⟩ := ((hl₂ _).mpr ((hl₁ _).mpr he)).deref
  rw [hpr₂, Function.update_self, hprev₁] at hprev₂
  obtain ⟨cells₃, hm₃, hn₃, hpr₃, he₃, hl₃⟩ :=
    ((hl₂ p).mpr ((hl₁ _).mpr hp)).modify_next (some e)
  obtain ⟨h₃, hd₃, hnext₃, -⟩ := ((hl₃ e).mpr ((hl₂ _).mpr ((hl₁ _).mpr he))).deref
  rw [hn₃, Function.update_of_ne hne.symm, hn₂, hn₁, Function.update_self] at hnext₃
  obtain ⟨cells₄, hm₄, hn₄, hpr₄, he₄, -⟩ :=
    ((hl₃ _).mpr ((hl₂ _).mpr ((hl₁ _).mpr hhead))).modify_prev (some e)
  refine ⟨cells₄, ?_, by rw [hn₄, hn₃, hn₂, hn₁], by rw [hpr₄, hpr₃, hpr₂, hpr₁, hprev₁],
    by rw [he₄, he₃, he₂, he₁]⟩
  simp only [lruAppend, hm₁, ok_bind, hd₁, hm₂, hd₂, hprev₂, hm₃, hd₃, hnext₃, hm₄]

end Cells

open Cells

/-- The lists after a handle was put on one of them. -/
theorem mem_append_iff {lists : Side → List ℕ} {side side' : Side} {m n : ℕ} :
    m ∈ Function.update lists side (lists side ++ [n]) side' ↔
      m ∈ lists side' ∨ m = n ∧ side' = side := by
  by_cases hside : side' = side
  · subst hside
    simp
  · simp [hside]

/-- The cells before and after a handle on its ring are on the ring, and not the handle. -/
theorem neighbour_mem (side : Side) {l₁ l₂ : List ℕ} {n : ℕ} (hnd : (l₁ ++ n :: l₂).Nodup)
    {a : Addr}
    (ha : a ∈ Addr.head side :: l₁.map .handle ∨ a ∈ Addr.head side :: l₂.map .handle) :
    a ∈ Addr.head side :: (l₁ ++ n :: l₂).map .handle ∧ a ≠ .handle n := by
  have hn₁ : n ∉ l₁ := fun hn => (List.nodup_append'.mp hnd).2.2 hn (by simp)
  have hn₂ : n ∉ l₂ := (List.nodup_cons.mp (List.nodup_append'.mp hnd).2.1).1
  simp only [List.mem_cons, List.mem_map, List.mem_append] at ha ⊢
  rcases ha with (rfl | ⟨m, hm, rfl⟩) | rfl | ⟨m, hm, rfl⟩
  · exact ⟨.inl rfl, by simp⟩
  · exact ⟨.inr ⟨m, .inl hm, rfl⟩, by rintro ⟨⟩; exact hn₁ hm⟩
  · exact ⟨.inl rfl, by simp⟩
  · exact ⟨.inr ⟨m, .inr (.inr hm), rfl⟩, by rintro ⟨⟩; exact hn₂ hm⟩

/-- The two rings hold the given handles, no handle is on both, and no handle points at itself,
which is what `LRUHandle::key` asserts. -/
structure Linked (cells : Cells) (lists : Side → List ℕ) : Prop where
  ring : ∀ side, IsRing cells.next cells.prev (.head side) ((lists side).map .handle)
  disjoint : ∀ n, n ∈ lists .lru → n ∉ lists .inUse
  next_ne_self : ∀ n, cells.next (.handle n) ≠ some (.handle n)

namespace Linked

variable {cells : Cells} {lists : Side → List ℕ} {side : Side} {n : ℕ}

theorem nodup (hl : Linked cells lists) (side : Side) : (lists side).Nodup :=
  ((hl.ring side).nodup.of_cons).of_map

theorem side_eq (hl : Linked cells lists) {side' : Side} (h : n ∈ lists side)
    (h' : n ∈ lists side') : side = side' := by
  cases side <;> cases side'
  · rfl
  · exact absurd h' (hl.disjoint n h)
  · exact absurd h (hl.disjoint n h')
  · rfl

/-- The cells of one ring are not on the other. -/
theorem notMem_ring (hl : Linked cells lists) {side' : Side} (hside : side ≠ side') {a : Addr}
    (ha : a ∈ Addr.head side :: (lists side).map .handle) :
    a ∉ Addr.head side' :: (lists side').map .handle := by
  intro ha'
  simp only [List.mem_cons, List.mem_map] at ha ha'
  rcases ha with rfl | ⟨m, hm, rfl⟩
  · rcases ha' with heq | ⟨m, -, heq⟩
    · cases heq
      exact hside rfl
    · cases heq
  · rcases ha' with heq | ⟨m', hm', heq⟩
    · cases heq
    · cases heq
      exact hside (hl.side_eq hm hm')

theorem live_head (hl : Linked cells lists) (side : Side) : cells.Live (.head side) :=
  live_of_next (hl.ring side).next_head

theorem live_of_mem (hl : Linked cells lists) (hn : n ∈ lists side) :
    cells.Live (.handle n) := by
  obtain ⟨l₁, l₂, heq⟩ := List.append_of_mem (List.mem_map_of_mem (f := Addr.handle) hn)
  have hring := hl.ring side
  rw [heq] at hring
  exact live_of_next hring.next_mem

theorem live_of_mem_ring (hl : Linked cells lists) {a : Addr}
    (ha : a ∈ Addr.head side :: (lists side).map .handle) : cells.Live a := by
  rcases List.mem_cons.mp ha with rfl | ha
  · exact hl.live_head side
  · obtain ⟨m, hm, rfl⟩ := List.mem_map.mp ha
    exact hl.live_of_mem hm

/-- A handle that stays on its list. -/
theorem mem_iff_of_mem (hl : Linked cells lists) (hn : n ∈ lists side) {side' : Side} {m : ℕ} :
    m ∈ lists side' ↔ m ∈ lists side' ∧ m ≠ n ∨ m = n ∧ side' = side := by
  by_cases hm : m = n
  · subst hm
    simp only [ne_eq, not_true_eq_false, and_false, true_and, false_or]
    exact ⟨fun hmem => hl.side_eq hmem hn, fun hside => hside ▸ hn⟩
  · simp [hm]

/-- The lists after a handle was taken off one of them. -/
theorem mem_erase_iff (hl : Linked cells lists) (hn : n ∈ lists side) {side' : Side} {m : ℕ} :
    m ∈ Function.update lists side ((lists side).erase n) side' ↔ m ∈ lists side' ∧ m ≠ n := by
  by_cases hside : side' = side
  · subst hside
    rw [Function.update_self, (hl.nodup side').mem_erase_iff, and_comm]
  · rw [Function.update_of_ne hside, iff_self_and]
    rintro hm rfl
    exact hside (hl.side_eq hm hn)

/-- The rings only depend on the links. -/
theorem congr (hl : Linked cells lists) {cells' : Cells} (hn : cells'.next = cells.next)
    (hp : cells'.prev = cells.prev) : Linked cells' lists where
  ring side := by
    rw [hn, hp]
    exact hl.ring side
  disjoint := hl.disjoint
  next_ne_self := by
    rw [hn]
    exact hl.next_ne_self

/-- Allocating, assigning to or freeing a handle on neither ring. -/
theorem update_detached (hl : Linked cells lists) (hn : ∀ side, n ∉ lists side)
    {v : Option LRUHandle} (hv : v.bind LRUHandle.next ≠ some (.handle n)) :
    Linked (Function.update cells (.handle n) v) lists where
  ring side := by
    have hne : ∀ a ∈ Addr.head side :: (lists side).map .handle, a ≠ .handle n := by
      rintro a ha rfl
      exact hn side (by simpa using ha)
    refine (hl.ring side).congr (fun a ha => ?_) fun a ha => ?_
    · simp [next, hne a ha]
    · simp [prev, hne a ha]
  disjoint := hl.disjoint
  next_ne_self m := by
    by_cases hm : m = n
    · subst hm
      simpa [next] using hv
    · have := hl.next_ne_self m
      simpa [next, hm] using this

/-- Assigning to a handle on or off the lists, but not to its links. -/
theorem modify (hl : Linked cells lists) {h : LRUHandle} (he : cells.entry n = some h)
    {f : LRUHandle → LRUHandle}
    (hf : ∀ h', f h' = { f h'.unlinked with next := h'.next, prev := h'.prev }) :
    ∃ cells', cells.modify (some (.handle n)) f = .ok cells' ∧
      cells'.entry = Function.update cells.entry n (some (f h)) ∧ Linked cells' lists := by
  obtain ⟨h', hc, rfl⟩ := exists_of_entry he
  have hlinks := links_update hc (f h') (by rw [hf]) (by rw [hf])
  refine ⟨_, modify_some hc f, ?_, hl.congr hlinks.1 hlinks.2⟩
  rw [entry_update, Option.map_some, hf h', hf h'.unlinked]
  rfl

/-- The key of a handle is readable: no handle points at itself. -/
theorem key_eq (hl : Linked cells lists) {h : LRUHandle} (he : cells.entry n = some h) :
    cells.key (.handle n) = .ok h.key := by
  obtain ⟨h', hc, rfl⟩ := exists_of_entry he
  have hne : h'.next ≠ some (.handle n) := next_eq hc ▸ hl.next_ne_self n
  simp [Cells.key, hc, hne]

/-- A replacement of one list by which that ring changes as it should, and everything outside
it stays. -/
theorem of_ring (hl : Linked cells lists) {cells' : Cells} {l : List ℕ}
    (hring : IsRing cells'.next cells'.prev (.head side) (l.map .handle))
    (hdisj : ∀ side', side' ≠ side → ∀ m ∈ l, m ∉ lists side')
    (hn : ∀ a, a ∉ Addr.head side :: (lists side).map .handle → a ∉ l.map .handle →
      cells'.next a = cells.next a)
    (hp : ∀ a, a ∉ Addr.head side :: (lists side).map .handle → a ∉ l.map .handle →
      cells'.prev a = cells.prev a)
    (hself : ∀ m ∈ lists side, m ∉ l → cells'.next (.handle m) = cells.next (.handle m)) :
    Linked cells' (Function.update lists side l) where
  ring side' := by
    by_cases hside : side' = side
    · subst hside
      rw [Function.update_self]
      exact hring
    · rw [Function.update_of_ne hside]
      have hout : ∀ a ∈ Addr.head side' :: (lists side').map .handle,
          a ∉ Addr.head side :: (lists side).map .handle ∧ a ∉ l.map .handle := by
        intro a ha
        refine ⟨hl.notMem_ring hside ha, fun hal => ?_⟩
        obtain ⟨m, hm, rfl⟩ := List.mem_map.mp hal
        exact hdisj side' hside m hm (by simpa using ha)
      exact (hl.ring side').congr (fun a ha => hn a (hout a ha).1 (hout a ha).2)
        fun a ha => hp a (hout a ha).1 (hout a ha).2
  disjoint m hm hm' := by
    cases side with
    | lru =>
      simp only [Function.update_self, ne_eq, reduceCtorEq, not_false_eq_true,
        Function.update_of_ne] at hm hm'
      exact hdisj .inUse (by simp) m hm hm'
    | inUse =>
      simp only [Function.update_self, ne_eq, reduceCtorEq, not_false_eq_true,
        Function.update_of_ne] at hm hm'
      exact hdisj .lru (by simp) m hm' hm
  next_ne_self m := by
    by_cases hm : m ∈ l
    · exact hring.next_ne_self (List.mem_map_of_mem hm)
    · by_cases hm' : m ∈ lists side
      · rw [hself m hm' hm]
        exact hl.next_ne_self m
      · rw [hn _ (by simpa using hm') (by simpa using hm)]
        exact hl.next_ne_self m

/-- `LRU_Remove` takes a handle off its list. -/
theorem lruRemove (hl : Linked cells lists) (hn : n ∈ lists side) :
    ∃ cells', cells.lruRemove (.handle n) = .ok cells' ∧ cells'.entry = cells.entry ∧
      Linked cells' (Function.update lists side ((lists side).erase n)) := by
  obtain ⟨l₁, l₂, heq⟩ := List.append_of_mem hn
  have hnd := hl.nodup side
  rw [heq] at hnd
  have herase : (lists side).erase n = l₁ ++ l₂ := by
    have hnotin : n ∉ l₁ := fun hc => (List.nodup_append'.mp hnd).2.2 hc (by simp)
    rw [heq, List.erase_append_right _ hnotin, List.erase_cons_head]
  have hring := hl.ring side
  rw [heq, List.map_append, List.map_cons] at hring
  -- the neighbours of the handle: cells of its ring other than itself
  obtain ⟨p₁, hp₁eq⟩ : ∃ p₁, (l₁.map Addr.handle).getLastD (.head side) = p₁ := ⟨_, rfl⟩
  obtain ⟨p₂, hp₂eq⟩ : ∃ p₂, (l₂.map Addr.handle).headD (.head side) = p₂ := ⟨_, rfl⟩
  have hnextn : cells.next (.handle n) = some p₂ := by rw [hring.next_mem, hp₂eq]
  have hprevn : cells.prev (.handle n) = some p₁ := by rw [hring.prev_mem, hp₁eq]
  obtain ⟨hp₁, hp₁n⟩ := neighbour_mem side hnd
    (.inl (hp₁eq ▸ List.getLastD_mem_cons))
  obtain ⟨hp₂, hp₂n⟩ := neighbour_mem side hnd
    (.inr (hp₂eq ▸ headD_mem_cons (Addr.head side) (l₂.map .handle)))
  rw [← heq] at hp₁ hp₂
  obtain ⟨cells', hok, hnext, hprev, hentry⟩ := lruRemove_links (hl.live_of_mem hn)
    (hl.live_of_mem_ring hp₁) (hl.live_of_mem_ring hp₂) hprevn hnextn hp₂n
  refine ⟨cells', hok, hentry, ?_⟩
  have hunlink := hring.unlink
  rw [hnextn, hprevn, hp₁eq, hp₂eq, ← List.map_append] at hunlink
  rw [herase]
  refine hl.of_ring ?_ ?_ ?_ ?_ ?_
  · rw [hnext, hprev]
    exact hunlink
  · intro side' hside m hm hm'
    exact hside (hl.side_eq hm' (List.mem_of_mem_erase (herase ▸ hm)))
  · intro a ha _
    rw [hnext, Function.update_of_ne (ne_of_mem_of_not_mem hp₁ ha).symm]
  · intro a ha _
    rw [hprev, Function.update_of_ne (ne_of_mem_of_not_mem hp₂ ha).symm]
  · intro m hm hml
    have hmn : m = n := by
      by_contra hne
      exact hml (herase ▸ (List.mem_erase_of_ne hne).mpr hm)
    rw [hnext, hmn, Function.update_of_ne hp₁n.symm]

/-- `LRU_Append` makes a handle on neither list the newest of a list. -/
theorem lruAppend (hl : Linked cells lists) (hlive : cells.Live (.handle n))
    (hn : ∀ side, n ∉ lists side) (side : Side) :
    ∃ cells', cells.lruAppend side (.handle n) = .ok cells' ∧ cells'.entry = cells.entry ∧
      Linked cells' (Function.update lists side (lists side ++ [n])) := by
  have hring := hl.ring side
  have hx : Addr.handle n ∉ Addr.head side :: (lists side).map .handle := by
    simpa using hn side
  -- the newest entry so far, or the head
  obtain ⟨p, hpeq⟩ : ∃ p, ((lists side).map Addr.handle).getLastD (.head side) = p := ⟨_, rfl⟩
  have hprevh : cells.prev (.head side) = some p := by rw [hring.prev_head, hpeq]
  have hp : p ∈ Addr.head side :: (lists side).map .handle := hpeq ▸ List.getLastD_mem_cons
  obtain ⟨cells', hok, hnext, hprev, hentry⟩ := lruAppend_links hlive (hl.live_head side)
    (hl.live_of_mem_ring hp) hprevh (ne_of_mem_of_not_mem hp hx)
  refine ⟨cells', hok, hentry, ?_⟩
  refine hl.of_ring ?_ ?_ ?_ ?_ ?_
  · rw [hnext, hprev, List.map_append, List.map_singleton, ← hpeq]
    exact hring.append hx
  · intro side' hside m hm hm'
    rcases List.mem_append.mp hm with hm | hm
    · exact hside (hl.side_eq hm' hm)
    · obtain rfl : m = n := by simpa using hm
      exact hn side' hm'
  · intro a ha han
    have hne : a ≠ .handle n := by
      rintro rfl
      exact han (by simp)
    rw [hnext, Function.update_of_ne (ne_of_mem_of_not_mem hp ha).symm,
      Function.update_of_ne hne]
  · intro a ha han
    have hne : a ≠ .handle n := by
      rintro rfl
      exact han (by simp)
    have hhead : a ≠ .head side := by
      rintro rfl
      exact ha (by simp)
    rw [hprev, Function.update_of_ne hhead, Function.update_of_ne hne]
  · intro m hm hml
    exact absurd (List.mem_append_left [n] hm) hml

end Linked

end TinyLeveldb
