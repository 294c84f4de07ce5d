import TinyLeveldb.Cache.Lists
import Mathlib.Algebra.BigOperators.Group.Finset.Piecewise
import Mathlib.Algebra.Order.BigOperators.Group.Finset

/-!
# The representation invariant of the cache

`Inv x c out lists` is the invariant of a cache `c` whose clients hold `out n` references to
handle `n`. Inside `Insert`, `Erase` and `Prune` there is a moment when a cached handle was
already taken out of the table but is still on its list: `x` is that handle. Every operation
is a composition of the changes of one handle that `Inv.update` describes and of changes of
the table.
-/

namespace TinyLeveldb

open Library Cells

/-- The list a cached handle belongs on. -/
def LRUHandle.side (h : LRUHandle) : Side := if h.refs = 1 then .lru else .inUse

theorem LRUHandle.side_of_two_le {h : LRUHandle} (hrefs : 2 ≤ h.refs.toNat) :
    h.side = .inUse := by
  have hne : h.refs ≠ 1 := by
    rintro heq
    rw [heq] at hrefs
    exact absurd hrefs (by decide)
  rw [LRUHandle.side, if_neg hne]

/-- What a handle contributes to `usage_`. -/
def LRUHandle.charged : Option LRUHandle → ℕ
  | none => 0
  | some h => if h.inCache then h.charge.toNat else 0

namespace LRUCache

/-- The sum of the charges of the cached entries. -/
def cachedCharge (c : LRUCache) : ℕ :=
  ∑ n ∈ Finset.range c.fresh, LRUHandle.charged (c.cells.entry n)

/-- The invariant, but for a handle `x` that the table does not have any more. -/
structure Inv (x : Pointer Addr) (c : LRUCache) (out : ℕ → ℕ) (lists : Side → List ℕ) :
    Prop where
  linked : Linked c.cells lists
  lt_fresh : ∀ {n h}, c.cells.entry n = some h → n < c.fresh
  mem_lists : ∀ {side n}, n ∈ lists side ↔
    ∃ h, c.cells.entry n = some h ∧ h.inCache = true ∧ h.side = side
  lookup_iff : ∀ {k a}, c.table.lookup k = some a ↔
    (∃ n h, a = .handle n ∧ c.cells.entry n = some h ∧ h.inCache = true ∧ h.key = k) ∧
      x ≠ some a
  refs : ∀ {n h}, c.cells.entry n = some h → h.refs.toNat = out n + h.inCache.toNat
  released : ∀ {n}, c.cells.entry n = none → out n = 0
  usage : c.usage.toNat = c.cachedCharge % 2 ^ 64

section Update

variable {x x' : Pointer Addr} {c c' : LRUCache} {out out' : ℕ → ℕ} {lists lists' : Side → List ℕ}
  {n : ℕ} {v : Option LRUHandle}

/-- A sum in which one term changes. -/
theorem sum_range_update {α : Type*} {f : α → ℕ} {g g' : ℕ → α} {m : ℕ} {a : α}
    (hg : g' = Function.update g n a) (hn : n < m) :
    ∑ i ∈ Finset.range m, f (g' i) + f (g n) = ∑ i ∈ Finset.range m, f (g i) + f a := by
  have hmem : n ∈ Finset.range m := Finset.mem_range.mpr hn
  have hrest : ∑ i ∈ (Finset.range m).erase n, f (Function.update g n a i) =
      ∑ i ∈ (Finset.range m).erase n, f (g i) := by
    refine Finset.sum_congr rfl fun i hi => ?_
    rw [Function.update_of_ne (Finset.ne_of_mem_erase hi)]
  rw [hg, ← Finset.add_sum_erase _ _ hmem,
    ← Finset.add_sum_erase (Finset.range m) (fun i => f (g i)) hmem, hrest, Function.update_self]
  omega

theorem cachedCharge_update (hentry : c'.cells.entry = Function.update c.cells.entry n v)
    (hfresh : c'.fresh = c.fresh) (hn : n < c.fresh) :
    c'.cachedCharge + LRUHandle.charged (c.cells.entry n) =
      c.cachedCharge + LRUHandle.charged v := by
  rw [cachedCharge, cachedCharge, hfresh]
  exact sum_range_update hentry hn

theorem cachedCharge_alloc (hentry : c'.cells.entry = Function.update c.cells.entry c.fresh v)
    (hfresh : c'.fresh = c.fresh + 1) :
    c'.cachedCharge = c.cachedCharge + LRUHandle.charged v := by
  have hrest : ∑ m ∈ Finset.range c.fresh,
        LRUHandle.charged (Function.update c.cells.entry c.fresh v m) = c.cachedCharge := by
    refine Finset.sum_congr rfl fun m hm => ?_
    rw [Function.update_of_ne (by simpa using (Finset.mem_range.mp hm).ne)]
  rw [cachedCharge, hentry, hfresh, Finset.sum_range_succ, hrest, Function.update_self]

/-- **One handle changes.** The rest of the cache keeps the invariant if the lists change
accordingly, the table need not, and the references to the handle are counted. -/
theorem Inv.update (hi : Inv x c out lists) (hlinked : Linked c'.cells lists')
    (hentry : c'.cells.entry = Function.update c.cells.entry n v)
    (hfresh : c.fresh ≤ c'.fresh) (hn : n < c'.fresh) (htable : c'.table = c.table)
    (hlists : ∀ side m, m ≠ n → (m ∈ lists' side ↔ m ∈ lists side))
    (hmem : ∀ side, n ∈ lists' side ↔ ∃ h, v = some h ∧ h.inCache = true ∧ h.side = side)
    (hx : ∀ a, a ≠ .handle n → (x' = some a ↔ x = some a))
    (hkey : ∀ k, (∃ h, v = some h ∧ h.inCache = true ∧ h.key = k) ∧ x' ≠ some (.handle n) ↔
      (∃ h, c.cells.entry n = some h ∧ h.inCache = true ∧ h.key = k) ∧ x ≠ some (.handle n))
    (hrefs : ∀ h, v = some h → h.refs.toNat = out' n + h.inCache.toNat)
    (hnone : v = none → out' n = 0) (hout : ∀ m, m ≠ n → out' m = out m)
    (husage : c'.usage.toNat = c'.cachedCharge % 2 ^ 64) : Inv x' c' out' lists' where
  linked := hlinked
  lt_fresh {m h} hm := by
    by_cases hmn : m = n
    · exact hmn ▸ hn
    · rw [hentry, Function.update_of_ne hmn] at hm
      exact (hi.lt_fresh hm).trans_le hfresh
  mem_lists {side m} := by
    by_cases hmn : m = n
    · subst hmn
      rw [hentry, Function.update_self]
      exact hmem side
    · rw [hentry, Function.update_of_ne hmn, hlists side m hmn]
      exact hi.mem_lists
  lookup_iff {k a} := by
    rw [htable, hi.lookup_iff, hentry]
    by_cases ha : a = .handle n
    · subst ha
      simpa using (hkey k).symm
    · rw [ne_eq, ne_eq, hx a ha]
      -- an address other than the handle's means the same as before
      refine and_congr_left fun _ => exists_congr fun m => exists_congr fun h =>
        and_congr_right fun ham => ?_
      have hmn : m ≠ n := fun hmn => ha (hmn ▸ ham)
      rw [Function.update_of_ne hmn]
  refs {m h} hm := by
    by_cases hmn : m = n
    · subst hmn
      rw [hentry, Function.update_self] at hm
      exact hrefs h hm
    · rw [hentry, Function.update_of_ne hmn] at hm
      rw [hout m hmn]
      exact hi.refs hm
  released {m} hm := by
    by_cases hmn : m = n
    · subst hmn
      rw [hentry, Function.update_self] at hm
      exact hnone hm
    · rw [hentry, Function.update_of_ne hmn] at hm
      rw [hout m hmn]
      exact hi.released hm
  usage := husage

end Update

/-! ### The table -/

section Table

variable {x : Pointer Addr} {c : LRUCache} {out : ℕ → ℕ} {lists : Side → List ℕ} {n : ℕ}
  {h : LRUHandle}

/-- `table_.Insert` of the handle that the table does not have: now it does not have the one
that was displaced. -/
theorem Inv.tableInsert (hi : Inv (some (.handle n)) c out lists)
    (he : c.cells.entry n = some h) (hc : h.inCache = true) :
    c.tableInsert (.handle n) =
        .ok (c.table.lookup h.key, { c with table := c.table.insert h.key (.handle n) }) ∧
      Inv (c.table.lookup h.key) { c with table := c.table.insert h.key (.handle n) } out
        lists := by
  constructor
  · simp only [LRUCache.tableInsert, hi.linked.key_eq he, ok_bind]
  · refine { hi with lookup_iff := ?_ }
    intro k a
    by_cases hk : k = h.key
    · subst hk
      rw [Finmap.lookup_insert]
      constructor
      · rintro ⟨⟩
        refine ⟨⟨n, h, rfl, he, hc, rfl⟩, fun hc => ?_⟩
        exact (hi.lookup_iff.mp hc).2 rfl
      · rintro ⟨hex, hne⟩
        by_contra ha
        exact hne (hi.lookup_iff.mpr ⟨hex, ha⟩)
    · rw [Finmap.lookup_insert_of_ne _ hk, hi.lookup_iff]
      refine and_congr_right ?_
      rintro ⟨m, h', rfl, he', hc', rfl⟩
      refine iff_of_true (fun hnm => ?_) fun hold => ?_
      · cases hnm
        rw [he] at he'
        cases he'
        exact hk rfl
      · obtain ⟨⟨_, h'', ⟨⟩, he'', -, hkey⟩, -⟩ := hi.lookup_iff.mp hold
        rw [he'] at he''
        cases he''
        exact hk hkey

/-- `table_.Remove`: now the table does not have the handle that was under the key. -/
theorem Inv.tableRemove (hi : Inv none c out lists) (key : Bytes) :
    Inv (c.tableRemove key).1 (c.tableRemove key).2 out lists := by
  refine { hi with lookup_iff := ?_ }
  intro k a
  simp only [LRUCache.tableRemove]
  by_cases hk : k = key
  · subst hk
    rw [Finmap.lookup_erase]
    refine iff_of_false (by simp) ?_
    rintro ⟨hex, hne⟩
    exact hne (hi.lookup_iff.mpr ⟨hex, by simp⟩)
  · rw [Finmap.lookup_erase_ne hk, hi.lookup_iff]
    refine and_congr_right ?_
    rintro ⟨m, h', rfl, he', hc', rfl⟩
    refine iff_of_true (by simp) fun hold => ?_
    obtain ⟨⟨_, h'', ⟨⟩, he'', -, hkey⟩, -⟩ := hi.lookup_iff.mp hold
    rw [he'] at he''
    cases he''
    exact hk hkey

/-- What the table has is cached, and on the list of its reference count. -/
theorem Inv.exists_of_lookup (hi : Inv x c out lists) {k : Bytes} {a : Addr}
    (hk : c.table.lookup k = some a) :
    ∃ n h, a = .handle n ∧ c.cells.entry n = some h ∧ h.inCache = true ∧ h.key = k :=
  (hi.lookup_iff.mp hk).1

end Table

end LRUCache

end TinyLeveldb
