import TinyLeveldb.Cache.Invariant
import TinyLeveldb.Library.LruHistory
import Mathlib.Logic.Relation

/-!
# What the cache is for

A cache implements a map of pinned entries: the entries are the handles that `Insert` makes,
numbered like their allocations, and the references of the clients are the pins.
`Refines x c lists m` says so of the cache `c`, whose circular lists hold the handles `lists`,
and the map `m`.

The claim about deleters is part of the refinement. A deleter that fails on a handle which a
client holds, or which is reachable from the table or from one of the lists, never fails:
`Completes` says that an operation does the same with every deleter that accepts the other
handles.
-/

namespace TinyLeveldb

open Library Cells

/-- What a handle was inserted with. -/
def LRUHandle.lruEntry (h : LRUHandle) : LruEntry Bytes (ℕ × ℕ) UInt64 :=
  { key := h.key, value := (h.value, h.deleter), charge := h.charge }

/-- One handle points at the other. -/
def Cells.Points (cells : Cells) (a b : Addr) : Prop :=
  cells.next a = some b ∨ cells.prev a = some b

/-- No pointer leads from a list to a handle that is on neither list. -/
theorem Linked.not_reachable {cells : Cells} {lists : Side → List ℕ} (hl : Linked cells lists)
    {n : ℕ} (hn : ∀ side, n ∉ lists side) (side : Side) :
    ¬ Relation.ReflTransGen cells.Points (.head side) (.handle n) := by
  have hmem : ∀ a, Relation.ReflTransGen cells.Points (.head side) a →
      a ∈ Addr.head side :: (lists side).map .handle := by
    intro a ha
    induction ha with
    | refl => exact List.mem_cons_self
    | tail _ hpoints ih => exact (hl.ring side).mem_of_points ih hpoints
  exact fun hreach => hn side (by simpa using hmem _ hreach)

namespace LRUCache

/-- The map that a cache implements: a value is stored with its deleter. -/
abbrev EntryMap := PinnedLru Bytes (ℕ × ℕ) UInt64

/-- The deleter call that an entry is due. -/
def deletion (e : LruEntry Bytes (ℕ × ℕ) UInt64) : Deletion :=
  { deleter := e.value.2, key := e.key, value := e.value.1 }

/-- What a call requests of the map. -/
def Call.request : Call → LruRequest Bytes (ℕ × ℕ) UInt64
  | .setCapacity capacity => .setCapacity capacity
  | .insert key _ value charge deleter =>
      .insert { key := key.data, value := (value, deleter), charge }
  | .lookup key => .lookup key.data
  | .release n => .release n
  | .erase key => .erase key.data
  | .prune => .prune

/-! ### Deleters that check their handle -/

/-- Neither the table nor a list leads to the handle. -/
structure Unreachable (c : LRUCache) (n : ℕ) : Prop where
  table : ∀ k, c.table.lookup k ≠ some (.handle n)
  lists : ∀ side, ¬ Relation.ReflTransGen c.cells.Points (.head side) (.handle n)

/-- The deleter accepts a handle that is unreachable and that no client holds. -/
def Accepts (onDelete : Deleter) (out : ℕ → ℕ) : Prop :=
  ∀ c n, out n = 0 → Unreachable c n → onDelete c (.handle n) = .ok ()

/-- The operation completes with `a`, whatever the deleter does on other handles. -/
def Completes {α : Type} (out : ℕ → ℕ) (op : Deleter → Except Fault α) (a : α) : Prop :=
  ∀ onDelete, Accepts onDelete out → op onDelete = .ok a

theorem accepts_accept (out : ℕ → ℕ) : Accepts accept out := fun _ _ _ _ => rfl

/-- Holding more handles forbids a deleter more. -/
theorem Accepts.mono {onDelete : Deleter} {out out' : ℕ → ℕ} (h : Accepts onDelete out)
    (hout : ∀ n, out' n = 0 → out n = 0) : Accepts onDelete out' :=
  fun c n hn => h c n (hout n hn)

/-! ### The refinement -/

/-- The cache implements the map, but for an entry `x` that is under no key any more. -/
structure Refines (x : Option ℕ) (c : LRUCache) (lists : Side → List ℕ) (m : EntryMap) :
    Prop where
  inv : Inv (x.map .handle) c m.held lists
  capacity : m.capacity = c.capacity
  usage : m.usage = c.usage
  table : ∀ k, c.table.lookup k = (m.table k).map .handle
  idle : lists .lru = m.idle
  length_entries : m.entries.length = c.fresh
  entries : ∀ {n h}, c.cells.entry n = some h → m.entries[n]? = some h.lruEntry
  deleted : c.deleted = m.freed.map fun p => deletion p.2

section Refines

variable {x : Option ℕ} {c : LRUCache} {lists : Side → List ℕ} {m : EntryMap} {n : ℕ}
  {h : LRUHandle}

theorem Refines.lookup_eq_some (hr : Refines x c lists m) {k : Bytes} :
    c.table.lookup k = some (.handle n) ↔ m.table k = some n := by
  rw [hr.table]
  simp

/-- What is under a key is cached, under that key. -/
theorem Refines.exists_of_table (hr : Refines x c lists m) {k : Bytes} (hk : m.table k = some n) :
    ∃ h, c.cells.entry n = some h ∧ h.inCache = true ∧ h.key = k := by
  obtain ⟨i, h, hi, he, hc, hkey⟩ := hr.inv.exists_of_lookup (hr.lookup_eq_some.mpr hk)
  obtain rfl : n = i := by simpa using hi
  exact ⟨h, he, hc, hkey⟩

/-- `in_cache` says whether the entry is under its key. -/
theorem Refines.cached_eq (hr : Refines x c lists m) (he : c.cells.entry n = some h)
    (hx : x ≠ some n) : m.cached n = h.inCache := by
  rw [Bool.eq_iff_iff, PinnedLru.cached_iff]
  constructor
  · rintro ⟨e, hentry, htable⟩
    obtain ⟨h', he', hc, -⟩ := hr.exists_of_table htable
    rw [he] at he'
    exact Option.some.inj he' ▸ hc
  · intro hc
    refine ⟨h.lruEntry, hr.entries he, hr.lookup_eq_some.mp (hr.inv.lookup_iff.mpr ?_)⟩
    exact ⟨⟨n, h, rfl, he, hc, rfl⟩, by simpa using hx⟩

/-- The entries after one handle changed, or was freed. -/
theorem Refines.entries_update (hr : Refines x c lists m) {c' : LRUCache} {v : Option LRUHandle}
    (hentry : c'.cells.entry = Function.update c.cells.entry n v)
    (hv : ∀ h', v = some h' → m.entries[n]? = some h'.lruEntry) {i : ℕ} {h' : LRUHandle}
    (hi : c'.cells.entry i = some h') : m.entries[i]? = some h'.lruEntry := by
  by_cases hin : i = n
  · subst hin
    rw [hentry, Function.update_self] at hi
    exact hv h' hi
  · rw [hentry, Function.update_of_ne hin] at hi
    exact hr.entries hi

end Refines

end LRUCache

end TinyLeveldb
