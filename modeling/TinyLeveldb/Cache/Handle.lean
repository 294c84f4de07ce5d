import TinyLeveldb.Coding
import Mathlib.Logic.Function.Basic

/-!
# Cache handles

`LRUHandle` of the source: one allocation holds an entry's key, value and bookkeeping and the
links of the two structures it takes part in, a hash chain and a circular list. The list heads
`lru_` and `in_use_` are handles too.
-/

namespace TinyLeveldb

/-- The two circular lists of a cache, by their heads `lru_` and `in_use_`. -/
inductive Side
  | lru
  | inUse
  deriving DecidableEq, Repr

/-- The address of a handle: a list head of the cache, or the `n`-th allocation. -/
inductive Addr
  | head (side : Side)
  | handle (n : ℕ)
  deriving DecidableEq, Repr

/-- `struct LRUHandle`. Values and deleters are opaque pointers. -/
structure LRUHandle where
  value : ℕ := 0
  deleter : ℕ := 0
  nextHash : Pointer Addr := none
  next : Pointer Addr := none
  prev : Pointer Addr := none
  charge : UInt64 := 0
  inCache : Bool := false
  refs : UInt32 := 0
  hash : UInt32 := 0
  key : Bytes := []
  deriving DecidableEq

/-- The memory handles live in. -/
abbrev Cells := Addr → Option LRUHandle

namespace Cells

/-- Dereference a pointer to a handle. -/
def deref (cells : Cells) (p : Pointer Addr) : Except Fault LRUHandle :=
  match p with
  | none => .error .nullDeref
  | some a =>
      match cells a with
      | none => .error .badPointer
      | some h => .ok h

/-- Assign to fields of the handle at a pointer. -/
def modify (cells : Cells) (p : Pointer Addr) (f : LRUHandle → LRUHandle) :
    Except Fault Cells :=
  match p with
  | none => .error .nullDeref
  | some a =>
      match cells a with
      | none => .error .badPointer
      | some h => .ok (Function.update cells a (some (f h)))

/-- `LRUHandle::key`: it asserts that the handle at `a` is not the head of an empty list. -/
def key (cells : Cells) (a : Addr) : Except Fault Bytes := do
  let h ← cells.deref (some a)
  assert (h.next ≠ some a)
  .ok h.key

@[simp]
theorem deref_some {cells : Cells} {a : Addr} {h : LRUHandle} (hc : cells a = some h) :
    cells.deref (some a) = .ok h := by
  simp [deref, hc]

@[simp]
theorem modify_some {cells : Cells} {a : Addr} {h : LRUHandle} (hc : cells a = some h)
    (f : LRUHandle → LRUHandle) :
    cells.modify (some a) f = .ok (Function.update cells a (some (f h))) := by
  simp [modify, hc]

end Cells

end TinyLeveldb
