import TinyLeveldb.Cache.Handle
import TinyLeveldb.Library.Fallible
import Mathlib.Data.Finmap

/-!
# The LRU cache

`class LRUCache`: reference-counted handles on two circular lists, `lru_` for the cached
entries nobody uses and `in_use_` for those a client holds. The hash table is its contract
here, a finite map from keys to handles.

A deleter is called while the cache is in the middle of an operation, so the operations take a
deleter that may look at the cache as it then is, and fail (`insertWith` and its like). The
operations proper are those with a deleter that accepts everything. What a deleter can never see
in any run is then what never holds when it is called.

A `Session` is a cache with its clients: for every handle, how many times it was given out by
`Insert` or `Lookup` and not released yet.
-/

namespace TinyLeveldb

open Library

namespace Cells

/-- `LRU_Remove`. -/
def lruRemove (cells : Cells) (e : Addr) : Except Fault Cells := do
  let h ← cells.deref (some e)
  let cells ← cells.modify h.next fun next => { next with prev := h.prev }
  let h ← cells.deref (some e)
  cells.modify h.prev fun prev => { prev with next := h.next }

/-- `LRU_Append`: link `e` in before the head, as the newest entry. -/
def lruAppend (cells : Cells) (side : Side) (e : Addr) : Except Fault Cells := do
  let cells ← cells.modify (some e) fun h => { h with next := some (.head side) }
  let list ← cells.deref (some (.head side))
  let cells ← cells.modify (some e) fun h => { h with prev := list.prev }
  let h ← cells.deref (some e)
  let cells ← cells.modify h.prev fun prev => { prev with next := some e }
  let h ← cells.deref (some e)
  cells.modify h.next fun next => { next with prev := some e }

/-- `Ref`. -/
def ref (cells : Cells) (e : Addr) : Except Fault Cells := do
  let h ← cells.deref (some e)
  if h.refs = 1 ∧ h.inCache then do
    let cells ← cells.lruRemove e
    let cells ← cells.lruAppend .inUse e
    cells.modify (some e) fun h => { h with refs := h.refs + 1 }
  else
    cells.modify (some e) fun h => { h with refs := h.refs + 1 }

end Cells

/-- A call of a deleter. -/
structure Deletion where
  deleter : ℕ
  key : Bytes
  value : ℕ
  deriving DecidableEq

/-- `class LRUCache`, with the memory of its handles (`fresh` of them were allocated) and the
deleter calls made so far. -/
structure LRUCache where
  capacity : UInt64
  usage : UInt64
  table : Finmap fun _ : Bytes => Addr
  cells : Cells
  fresh : ℕ
  deleted : List Deletion

namespace LRUCache

/-- `LRUCache::LRUCache`: the list heads point at themselves. -/
def new : LRUCache where
  capacity := 0
  usage := 0
  table := ∅
  cells
    | .head side => some { next := some (.head side), prev := some (.head side) }
    | .handle _ => none
  fresh := 0
  deleted := []

/-- `SetCapacity`. -/
def setCapacity (c : LRUCache) (capacity : UInt64) : LRUCache := { c with capacity }

/-- `table_.Insert`: what it displaces. -/
def tableInsert (c : LRUCache) (e : Addr) : Except Fault (Pointer Addr × LRUCache) := do
  let key ← c.cells.key e
  .ok (c.table.lookup key, { c with table := c.table.insert key e })

/-- `table_.Remove`: what it unlinks. -/
def tableRemove (c : LRUCache) (key : Bytes) : Pointer Addr × LRUCache :=
  (c.table.lookup key, { c with table := c.table.erase key })

/-- What a deleter does when it is called on a handle of the cache. -/
abbrev Deleter := LRUCache → Addr → Except Fault Unit

/-- The deleter that accepts everything. -/
def accept : Deleter := fun _ _ => .ok ()

/-- The handle `Insert` allocates, before the cache takes its reference. -/
def newHandle (key : Slice) (hash : UInt32) (value : ℕ) (charge : UInt64) (deleter : ℕ) :
    LRUHandle :=
  { value, deleter, charge, hash, inCache := false, refs := 1, key := key.data }

section Deleter

variable (onDelete : Deleter)

/-- The branches of `Unref` on the new reference count: free the handle, move it to `lru_`, or
leave it where it is. -/
def settleWith (c : LRUCache) (e : Addr) : Except Fault LRUCache := do
  let h ← c.cells.deref (some e)
  if h.refs = 0 then do
    assert (!h.inCache)
    let key ← c.cells.key e
    let call := { deleter := h.deleter, key, value := h.value }
    onDelete c e
    .ok { c with cells := Function.update c.cells e none, deleted := c.deleted ++ [call] }
  else if h.inCache ∧ h.refs = 1 then do
    let cells ← c.cells.lruRemove e
    let cells ← cells.lruAppend .lru e
    .ok { c with cells }
  else .ok c

/-- `Unref`. -/
def unrefWith (c : LRUCache) (e : Addr) : Except Fault LRUCache := do
  let h ← c.cells.deref (some e)
  assert (0 < h.refs)
  let cells ← c.cells.modify (some e) fun h => { h with refs := h.refs - 1 }
  settleWith onDelete { c with cells } e

/-- `FinishErase`: the entry was taken out of the table already. -/
def finishEraseWith (c : LRUCache) (e : Pointer Addr) : Except Fault (Bool × LRUCache) :=
  match e with
  | none => .ok (false, c)
  | some e => do
      let h ← c.cells.deref (some e)
      assert h.inCache
      let cells ← c.cells.lruRemove e
      let cells ← cells.modify (some e) fun h => { h with inCache := false }
      let h ← cells.deref (some e)
      let c ← unrefWith onDelete { c with cells, usage := c.usage - h.charge } e
      .ok (true, c)

/-- The body of the loops of `Insert` and `Prune`: evict the oldest entry of `lru_`. -/
def evictOldestWith (c : LRUCache) : Except Fault LRUCache := do
  let lru ← c.cells.deref (some (.head .lru))
  match lru.next with
  | none => .error .nullDeref
  | some old => do
      let h ← c.cells.deref (some old)
      assert (h.refs = 1)
      let key ← c.cells.key old
      let (removed, c) := c.tableRemove key
      let (erased, c) ← c.finishEraseWith onDelete removed
      assert erased
      .ok c

/-- The loops of `Insert` and `Prune`: evict while `full` holds and `lru_` is not empty. Every
round takes an entry off `lru_`, so `fresh` rounds always suffice. -/
def evictWhileWith (full : LRUCache → Bool) : ℕ → LRUCache → Except Fault LRUCache
  | 0, _ => .error .diverged
  | fuel + 1, c => do
      let lru ← c.cells.deref (some (.head .lru))
      if full c ∧ lru.next ≠ some (.head .lru) then do
        let c ← c.evictOldestWith onDelete
        evictWhileWith full fuel c
      else .ok c

/-- The branch of `Insert` on `capacity_ > 0`: a new entry enters the cache, or stays outside
it for its one client. -/
def enterWith (c : LRUCache) (e : Addr) (charge : UInt64) : Except Fault LRUCache :=
  if 0 < c.capacity then do
    let cells ← c.cells.modify (some e) fun h =>
      { h with refs := h.refs + 1, inCache := true }
    let cells ← cells.lruAppend .inUse e
    let (old, c) ← tableInsert { c with cells, usage := c.usage + charge } e
    let (_, c) ← c.finishEraseWith onDelete old
    .ok c
  else do
    let cells ← c.cells.modify (some e) fun h => { h with next := none }
    .ok { c with cells }

/-- `Insert`: the new handle, and the cache afterwards. -/
def insertWith (c : LRUCache) (key : Slice) (hash : UInt32) (value : ℕ) (charge : UInt64)
    (deleter : ℕ) : Except Fault (Addr × LRUCache) := do
  let e := Addr.handle c.fresh
  let h := newHandle key hash value charge deleter
  let c ← enterWith onDelete
    { c with cells := Function.update c.cells e (some h), fresh := c.fresh + 1 } e charge
  let c ← evictWhileWith onDelete (fun c => c.capacity < c.usage) (c.fresh + 1) c
  .ok (e, c)

/-- `Release`. -/
def releaseWith (c : LRUCache) (handle : Addr) : Except Fault LRUCache :=
  c.unrefWith onDelete handle

/-- `Erase`. -/
def eraseWith (c : LRUCache) (key : Slice) : Except Fault LRUCache := do
  let (old, c) := c.tableRemove key.data
  let (_, c) ← c.finishEraseWith onDelete old
  .ok c

/-- `Prune`. -/
def pruneWith (c : LRUCache) : Except Fault LRUCache :=
  evictWhileWith onDelete (fun _ => true) (c.fresh + 1) c

/-- The loop of the destructor, from the handle `e` on. It ends at the head of the list. -/
def destroyFromWith : ℕ → Pointer Addr → LRUCache → Except Fault LRUCache
  | 0, _, _ => .error .diverged
  | fuel + 1, e, c =>
      if e = some (.head .lru) then .ok c
      else
        match e with
        | none => .error .nullDeref
        | some e => do
            let h ← c.cells.deref (some e)
            let next := h.next
            assert h.inCache
            let cells ← c.cells.modify (some e) fun h => { h with inCache := false }
            let h ← cells.deref (some e)
            assert (h.refs = 1)
            let c ← unrefWith onDelete { c with cells } e
            destroyFromWith fuel next c

/-- `LRUCache::~LRUCache`. Unlike the other operations it frees entries that are still in the
table and on their list. -/
def destroyWith (c : LRUCache) : Except Fault LRUCache := do
  let inUse ← c.cells.deref (some (.head .inUse))
  assert (inUse.next = some (.head .inUse))
  let lru ← c.cells.deref (some (.head .lru))
  destroyFromWith onDelete (c.fresh + 1) lru.next c

end Deleter

/-- `Lookup`. -/
def lookup (c : LRUCache) (key : Slice) : Except Fault (Pointer Addr × LRUCache) :=
  match c.table.lookup key.data with
  | none => .ok (none, c)
  | some e => do
      let cells ← c.cells.ref e
      .ok (some e, { c with cells })

/-- The branch of `Insert` on `capacity_ > 0`. -/
def enter (c : LRUCache) (e : Addr) (charge : UInt64) : Except Fault LRUCache :=
  c.enterWith accept e charge

/-- `Insert`. -/
def insert (c : LRUCache) (key : Slice) (hash : UInt32) (value : ℕ) (charge : UInt64)
    (deleter : ℕ) : Except Fault (Addr × LRUCache) :=
  c.insertWith accept key hash value charge deleter

/-- `Release`. -/
def release (c : LRUCache) (handle : Addr) : Except Fault LRUCache := c.releaseWith accept handle

/-- `Erase`. -/
def erase (c : LRUCache) (key : Slice) : Except Fault LRUCache := c.eraseWith accept key

/-- `Prune`. -/
def prune (c : LRUCache) : Except Fault LRUCache := c.pruneWith accept

/-! ### Sessions -/

/-- A call on the cache. `release` names the handle by its allocation. The hash of a key only
chooses a bucket of the table, so `Lookup` and `Erase` carry none. -/
inductive Call
  | setCapacity (capacity : UInt64)
  | insert (key : Slice) (hash : UInt32) (value : ℕ) (charge : UInt64) (deleter : ℕ)
  | lookup (key : Slice)
  | release (n : ℕ)
  | erase (key : Slice)
  | prune

/-- A cache, and how often its clients hold each handle. -/
structure Session where
  cache : LRUCache
  outstanding : ℕ → ℕ

namespace Session

/-- A new cache without clients. -/
def start : Session where
  cache := LRUCache.new
  outstanding _ := 0

/-- A call returned a handle to its client. -/
def giveOut (outstanding : ℕ → ℕ) : Pointer Addr → ℕ → ℕ
  | some (.handle n) => Function.update outstanding n (outstanding n + 1)
  | _ => outstanding

/-- Clients release only handles they hold. -/
def Enabled (s : Session) : Call → Prop
  | .release n => 0 < s.outstanding n
  | _ => True

/-- Execute a call, with a deleter that may look at the cache and at how often its clients hold
each handle. A client that releases a handle does not hold it any more. -/
def execWith (onDelete : (ℕ → ℕ) → Deleter) (s : Session) : Call → Except Fault Session
  | .setCapacity capacity => .ok { s with cache := s.cache.setCapacity capacity }
  | .insert key hash value charge deleter => do
      let (e, cache) ← s.cache.insertWith (onDelete s.outstanding) key hash value charge deleter
      .ok { cache, outstanding := giveOut s.outstanding (some e) }
  | .lookup key => do
      let (e, cache) ← s.cache.lookup key
      .ok { cache, outstanding := giveOut s.outstanding e }
  | .release n => do
      let outstanding := Function.update s.outstanding n (s.outstanding n - 1)
      let cache ← s.cache.releaseWith (onDelete outstanding) (.handle n)
      .ok { cache, outstanding }
  | .erase key => do
      let cache ← s.cache.eraseWith (onDelete s.outstanding) key
      .ok { s with cache }
  | .prune => do
      let cache ← s.cache.pruneWith (onDelete s.outstanding)
      .ok { s with cache }

/-- Execute a call. -/
def exec (s : Session) (call : Call) : Except Fault Session := s.execWith (fun _ => accept) call

end Session

end LRUCache

end TinyLeveldb
