import TinyLeveldb.Cache.Handle
import TinyLeveldb.Library.Fallible
import Mathlib.Data.Finmap

/-!
# The hash table of handles

`class HandleTable`: buckets of handles chained through `next_hash`. `FindPointer` starts at the
handle a bucket points at and looks at that handle's successors, so every bucket needs a handle
of its own in front of its chain. The constructor and `Resize` allocate the bucket array and
leave every bucket null, so the first call of any operation dereferences a null pointer:
`refinesMap_iff`.
-/

namespace TinyLeveldb

open Library

/-- `class HandleTable`; `list` is null before the constructor's `Resize`. -/
structure HandleTable where
  length : UInt32
  elems : UInt32
  list : Pointer (List (Pointer Addr))

namespace HandleTable

/-- A table and the memory its handles live in, of which `fresh` cells were allocated. -/
structure State where
  table : HandleTable
  cells : Cells
  fresh : ℕ

/-- Read the bucket of a hash value from a bucket array. -/
def bucket (list : Pointer (List (Pointer Addr))) (length hash : UInt32) :
    Except Fault (Pointer Addr) :=
  match list with
  | none => .error .nullDeref
  | some buckets =>
      match buckets[(hash &&& (length - 1)).toNat]? with
      | none => .error .outOfBounds
      | some p => .ok p

/-- The loop of `FindPointer`. No chain of distinct handles is longer than the number of
allocations, so a walk that runs out of fuel is on a cycle. -/
def findPointerLoop (cells : Cells) (key : Bytes) (hash : UInt32) :
    ℕ → Pointer Addr → Except Fault Addr
  | 0, _ => .error .diverged
  | fuel + 1, start => do
      let h ← cells.deref start
      match start, h.nextHash with
      | some start, none => .ok start
      | some start, some next => do
          let n ← cells.deref (some next)
          if n.hash ≠ hash then findPointerLoop cells key hash fuel (some next)
          else do
            let nextKey ← cells.key next
            if key ≠ nextKey then findPointerLoop cells key hash fuel (some next)
            else .ok start
      | none, _ => .error .nullDeref

/-- `FindPointer`: the handle before the one under the key, or the last of its bucket. -/
def findPointer (s : State) (key : Bytes) (hash : UInt32) : Except Fault Addr := do
  let start ← bucket s.table.list s.table.length hash
  findPointerLoop s.cells key hash (s.fresh + 1) start

/-- `while (new_length < elems_) new_length *= 2;` in 32-bit arithmetic: past `2 ^ 31` it
reaches `0` and stays there. -/
def growLength (elems : UInt32) : ℕ → UInt32 → Except Fault UInt32
  | 0, _ => .error .diverged
  | fuel + 1, newLength =>
      if newLength < elems then growLength elems fuel (newLength * 2) else .ok newLength

/-- The inner loop of `Resize`: move the handles behind `h` to the new buckets, counting
them. -/
def moveChain (newList : List (Pointer Addr)) (newLength : UInt32) (h : Pointer Addr) :
    ℕ → Cells → UInt32 → Except Fault (Cells × UInt32)
  | 0, _, _ => .error .diverged
  | fuel + 1, cells, count => do
      let front ← cells.deref h
      match front.nextHash with
      | none => .ok (cells, count)
      | some node => do
          let n ← cells.deref (some node)
          let cells ← cells.modify h fun front => { front with nextHash := n.nextHash }
          let ptr ← bucket (some newList) newLength n.hash
          let p ← cells.deref ptr
          let cells ← cells.modify (some node) fun n => { n with nextHash := p.next }
          let cells ← cells.modify ptr fun p => { p with nextHash := some node }
          moveChain newList newLength h fuel cells (count + 1)

/-- The outer loop of `Resize` over the old buckets. -/
def moveChains (newList : List (Pointer Addr)) (newLength : UInt32) (fuel : ℕ) :
    List (Pointer Addr) → Cells → UInt32 → Except Fault (Cells × UInt32)
  | [], cells, count => .ok (cells, count)
  | h :: hs, cells, count => do
      let (cells, count) ← moveChain newList newLength h fuel cells count
      moveChains newList newLength fuel hs cells count

/-- `Resize`. -/
def resize (s : State) : Except Fault State := do
  let newLength ← growLength s.table.elems 32 4
  let newList := List.replicate newLength.toNat none
  let buckets := (s.table.list.getD []).take s.table.length.toNat
  let (cells, count) ← moveChains newList newLength (s.fresh + 1) buckets s.cells 0
  assert (s.table.elems == count)
  .ok { s with cells, table := { s.table with list := some newList, length := newLength } }

/-- `HandleTable()`, over memory in which `fresh` cells were allocated. -/
def new (cells : Cells) (fresh : ℕ) : Except Fault State :=
  resize { table := { length := 0, elems := 0, list := none }, cells, fresh }

/-- `Lookup`. -/
def lookup (s : State) (key : Bytes) (hash : UInt32) : Except Fault (Pointer Addr) := do
  let pre ← findPointer s key hash
  let p ← s.cells.deref (some pre)
  .ok p.nextHash

/-- `old == nullptr ? nullptr : old->next_hash`. -/
def behind (cells : Cells) : Pointer Addr → Except Fault (Pointer Addr)
  | none => .ok none
  | some old => do
      let o ← cells.deref (some old)
      .ok o.nextHash

/-- `++elems_; if (elems_ > length_) Resize();`. -/
def grow (s : State) : Except Fault State :=
  let s : State := { s with table := { s.table with elems := s.table.elems + 1 } }
  if s.table.elems > s.table.length then resize s else .ok s

/-- `Insert`: what it returns, and the table afterwards. -/
def insert (s : State) (h : Addr) : Except Fault (Pointer Addr × State) := do
  let key ← s.cells.key h
  let handle ← s.cells.deref (some h)
  let pre ← findPointer s key handle.hash
  let p ← s.cells.deref (some pre)
  let old := p.nextHash
  let next ← behind s.cells old
  let cells ← s.cells.modify (some h) fun handle => { handle with nextHash := next }
  let cells ← cells.modify (some pre) fun p => { p with nextHash := some h }
  match old with
  | some _ => .ok (old, { s with cells })
  | none => do
      let s ← grow { s with cells }
      .ok (old, s)

/-- `Remove`: what it returns, and the table afterwards. -/
def remove (s : State) (key : Bytes) (hash : UInt32) : Except Fault (Pointer Addr × State) := do
  let pre ← findPointer s key hash
  let p ← s.cells.deref (some pre)
  match p.nextHash with
  | none => .ok (none, s)
  | some result => do
      let r ← s.cells.deref (some result)
      let cells ← s.cells.modify (some pre) fun p => { p with nextHash := r.nextHash }
      .ok (some result,
        { s with cells, table := { s.table with elems := s.table.elems - 1 } })

/-! ### Calls on a fresh table, and the map they should behave as -/

/-- A call on the table. The handle of an `insert` is a new allocation with the given key. -/
inductive Call
  | lookup (key : Bytes)
  | insert (key : Bytes)
  | remove (key : Bytes)

/-- A table, and the results of the calls so far. -/
structure Trace where
  state : State
  results : List (Pointer Addr)

/-- Execute a call, each handle's hash being `hashOf` of its key. -/
def exec (hashOf : Bytes → UInt32) (t : Trace) : Call → Except Fault Trace
  | .lookup key => do
      let result ← lookup t.state key (hashOf key)
      .ok { t with results := t.results ++ [result] }
  | .insert key => do
      let h := Addr.handle t.state.fresh
      let cells := Function.update t.state.cells h (some { key := key, hash := hashOf key })
      let (result, state) ← insert { t.state with cells, fresh := t.state.fresh + 1 } h
      .ok { state, results := t.results ++ [result] }
  | .remove key => do
      let (result, state) ← remove t.state key (hashOf key)
      .ok { state, results := t.results ++ [result] }

/-- The calls on a freshly constructed table. -/
def runCalls (hashOf : Bytes → UInt32) (calls : List Call) : Except Fault Trace := do
  let state ← new (fun _ => none) 0
  runAll (exec hashOf) { state, results := [] } calls

/-- The abstract table: a finite map from keys to handles, the number of handles allocated and
the results so far. -/
structure MapTrace where
  map : Finmap fun _ : Bytes => Addr
  fresh : ℕ
  results : List (Pointer Addr)

/-- What a call does to a finite map. -/
def MapTrace.exec (t : MapTrace) : Call → MapTrace
  | .lookup key => { t with results := t.results ++ [t.map.lookup key] }
  | .insert key =>
      { map := t.map.insert key (.handle t.fresh), fresh := t.fresh + 1,
        results := t.results ++ [t.map.lookup key] }
  | .remove key =>
      { t with map := t.map.erase key, results := t.results ++ [t.map.lookup key] }

/-- The calls on an empty map. -/
def runMap (calls : List Call) : MapTrace :=
  calls.foldl MapTrace.exec { map := ∅, fresh := 0, results := [] }

/-- The table refines a finite map over a sequence of calls: every call completes and returns
what the map returns, and after every call `elems_` counts the stored handles and `length_` is
a power of two that is at least `elems_`. -/
def RefinesMap (hashOf : Bytes → UInt32) (calls : List Call) : Prop :=
  ∀ pre, pre <+: calls → ∃ t, runCalls hashOf pre = .ok t ∧
    t.results = (runMap pre).results ∧
    t.state.table.elems.toNat = (runMap pre).map.keys.card ∧
    (∃ k, t.state.table.length.toNat = 2 ^ k) ∧
    t.state.table.elems ≤ t.state.table.length

/-! ### Null buckets -/

/-- The constructed table: four null buckets. -/
theorem new_eq (cells : Cells) (fresh : ℕ) :
    new cells fresh = .ok
      { table := { length := 4, elems := 0, list := some [none, none, none, none] },
        cells, fresh } := rfl

/-- A table whose buckets are all null. -/
def NullBuckets (s : State) : Prop :=
  s.table.length = 4 ∧ s.table.list = some [none, none, none, none]

/-- With null buckets `FindPointer` dereferences a null pointer, whatever the key. -/
theorem NullBuckets.findPointer_eq {s : State} (h : NullBuckets s) (key : Bytes)
    (hash : UInt32) : findPointer s key hash = .error .nullDeref := by
  have hlt : (hash &&& (4 - 1 : UInt32)).toNat < 4 := by
    have hle : (hash &&& (4 - 1 : UInt32)).toNat ≤ 3 := by
      rw [UInt32.toNat_and]
      exact Nat.and_le_right
    omega
  have hbucket : bucket s.table.list s.table.length hash = .ok none := by
    rw [h.1, h.2, bucket]
    rcases hi : (hash &&& (4 - 1 : UInt32)).toNat with _ | _ | _ | _ | i
    · rfl
    · rfl
    · rfl
    · rfl
    · omega
  rw [findPointer, hbucket, ok_bind]
  rfl

/-- The first call on a table with null buckets dereferences a null pointer. -/
theorem NullBuckets.exec_eq {t : Trace} (h : NullBuckets t.state) (hashOf : Bytes → UInt32)
    (call : Call) : exec hashOf t call = .error .nullDeref := by
  cases call with
  | lookup key => simp [exec, lookup, h.findPointer_eq]
  | insert key =>
    have hfind := NullBuckets.findPointer_eq
      (s := { t.state with
        cells := Function.update t.state.cells (.handle t.state.fresh)
          (some { key := key, hash := hashOf key })
        fresh := t.state.fresh + 1 }) h key (hashOf key)
    simp only [exec, insert, Cells.key, Cells.deref, Function.update_self, ok_bind, ne_eq,
      reduceCtorEq, not_false_eq_true, decide_true, assert_true, hfind, error_bind]
  | remove key => simp [exec, remove, h.findPointer_eq]

/-- **Refinement of a finite map**: only over the empty sequence of calls. -/
theorem refinesMap_iff (hashOf : Bytes → UInt32) (calls : List Call) :
    RefinesMap hashOf calls ↔ calls = [] := by
  constructor
  · intro h
    cases calls with
    | nil => rfl
    | cons call calls =>
      obtain ⟨t, ht, -⟩ := h [call] ⟨calls, rfl⟩
      have hnull : NullBuckets { table := { length := 4, elems := 0,
                                            list := some [none, none, none, none] },
                                 cells := fun _ => none, fresh := 0 } := ⟨rfl, rfl⟩
      have hexec := NullBuckets.exec_eq (t := { state := _, results := [] }) hnull hashOf call
      rw [runCalls, new_eq, ok_bind, runAll_cons, hexec, error_bind] at ht
      cases ht
  · rintro rfl pre hpre
    rw [List.prefix_nil.mp hpre]
    exact ⟨_, rfl, rfl, rfl, ⟨2, rfl⟩, by decide⟩

/-- A single `Lookup` on a fresh table faults. -/
theorem not_refinesMap_lookup : ¬ RefinesMap (fun _ => 0) [.lookup [97]] := by
  intro h
  obtain ⟨t, ht, -⟩ := h _ (List.prefix_refl _)
  have hnull : runCalls (fun _ => 0) [.lookup [97]] = .error .nullDeref := rfl
  rw [hnull] at ht
  cases ht

end HandleTable

end TinyLeveldb
