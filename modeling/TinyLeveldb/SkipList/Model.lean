import TinyLeveldb.Coding
import TinyLeveldb.Library.Fallible
import Mathlib.Logic.Function.Basic

/-!
# The skip list of the source

`class SkipList`, over an arbitrary key type with a decoding into a linear order (the source's
`DecodeKey`, whose values it compares). Nodes live in a heap of addresses; `head` is address
`0`, and `new` hands out addresses in increasing order.

Two readings of the source are parameters or notes rather than guesses:

* After the descent loops the source uses the loop index `i` out of its scope. It is read as
  the bottom level `0`.
* An array of the source with `n` slots gets `n + spare` slots here. `spare = 0` is the source:
  `maxLevel` slots for the `update` vector and for the head, as many slots as its height for
  any other node. A positive `spare` gives every level in use a slot.

An access to a slot outside its array, like a null dereference, is a fault. The loops that walk
the list carry a fuel: no walk over distinct nodes is longer than the number of nodes ever
allocated, so a walk that runs out of fuel is on a cycle.
-/

namespace TinyLeveldb

open Library

/-- `SkipList::Node`: a key and its `forward` pointers, `slots` of them. -/
structure Node (Key : Type) where
  key : Key
  forward : ℕ → Pointer ℕ := fun _ => none
  slots : ℕ

/-- `class SkipList`. The constructor's `maxLevel` is at least `1`. -/
structure SkipList (Key : Type) where
  maxLevel : ℕ
  level : ℕ
  nodes : ℕ → Option (Node Key)
  fresh : ℕ
  maxLevel_pos : 1 ≤ maxLevel

/-- The `update` vector of one call: the nodes recorded so far. -/
abbrev UpdateVector := ℕ → Pointer ℕ

namespace SkipList

variable {Key κ : Type}

/-- The address of the head node. -/
def head : ℕ := 0

/-- `SkipList(int maxLevel, float probability)`; `nokey` is the head's `Key()`. -/
def new (spare maxLevel : ℕ) (hpos : 1 ≤ maxLevel) (nokey : Key) : SkipList Key where
  maxLevel := maxLevel
  level := 0
  nodes := Function.update (fun _ => none) head
    (some { key := nokey, slots := maxLevel + spare })
  fresh := 1
  maxLevel_pos := hpos

/-- The loop of `randomLevel`: `coins` are the outcomes of the successive tests
`rand() / RAND_MAX < probability`, all further ones being failures. -/
def randomLevelLoop (maxLevel : ℕ) : List Bool → ℕ → ℕ
  | [], lvl => lvl
  | coin :: coins, lvl =>
      if coin && lvl < maxLevel then randomLevelLoop maxLevel coins (lvl + 1) else lvl

/-- `randomLevel`. -/
def randomLevel (maxLevel : ℕ) (coins : List Bool) : ℕ := randomLevelLoop maxLevel coins 1

/-! ### Entries -/

/-- `DecodeKey`: the key of the entry at a pointer. -/
def decodeKey (buf : Bytes) : Bytes :=
  let keySize := (decodeFixed32 buf).toNat
  (buf.drop 4).take keySize

/-- What `DecodeEntry` hands back. -/
structure DecodedEntry where
  seq : BitVec 32
  type : UInt64
  key : Bytes
  value : Bytes

/-- `DecodeEntry`: the entry at a pointer. -/
def decodeEntry : Pointer Bytes → Except Fault DecodedEntry
  | none => .error .nullDeref
  | some p =>
      let keySize := (decodeFixed32 p).toNat
      let p := p.drop 4
      let key := p.take keySize
      let p := p.drop keySize
      let tag := decodeFixed64 p
      let p := p.drop 8
      let valSize := (decodeFixed32 p).toNat
      let p := p.drop 4
      .ok { seq := (tag >>> 8).toBitVec.setWidth 32, type := tag &&& 0xff, key := key,
            value := p.take valSize }

/-! ### Memory accesses -/

/-- Dereference a pointer to a node. -/
def deref (s : SkipList Key) (p : Pointer ℕ) : Except Fault (Node Key) :=
  match p with
  | none => .error .nullDeref
  | some a =>
      match s.nodes a with
      | none => .error .badPointer
      | some n => .ok n

/-- Read `p->forward[i]`. -/
def getForward (s : SkipList Key) (p : Pointer ℕ) (i : ℕ) : Except Fault (Pointer ℕ) := do
  let n ← s.deref p
  if i < n.slots then .ok (n.forward i) else .error .outOfBounds

/-- The heap with the node `n` at address `a`. -/
def store (s : SkipList Key) (a : ℕ) (n : Node Key) : SkipList Key :=
  { s with nodes := Function.update s.nodes a (some n) }

/-- Write `p->forward[i] = q`. -/
def setForward (s : SkipList Key) (p : Pointer ℕ) (i : ℕ) (q : Pointer ℕ) :
    Except Fault (SkipList Key) :=
  match p with
  | none => .error .nullDeref
  | some a =>
      match s.nodes a with
      | none => .error .badPointer
      | some n =>
          if i < n.slots then
            .ok (s.store a { n with forward := Function.update n.forward i q })
          else .error .outOfBounds

/-- Read `update[i]` of a vector with `size` elements. -/
def getUpdate (size : ℕ) (update : UpdateVector) (i : ℕ) : Except Fault (Pointer ℕ) :=
  if i < size then .ok (update i) else .error .outOfBounds

/-- Write `update[i] = p` to a vector with `size` elements. -/
def setUpdate (size : ℕ) (update : UpdateVector) (i : ℕ) (p : Pointer ℕ) :
    Except Fault UpdateVector :=
  if i < size then .ok (Function.update update i p) else .error .outOfBounds

/-! ### The operations -/

variable [LinearOrder κ] (decodeKey : Key → κ) (spare : ℕ)

/-- The inner loop of a descent at level `i`:
`while (current->forward[i] && DecodeKey(current->forward[i]->key) < target)`. -/
def advance (s : SkipList Key) (target : κ) (i : ℕ) : ℕ → ℕ → Except Fault ℕ
  | 0, _ => .error .diverged
  | fuel + 1, current => do
      match ← s.getForward (some current) i with
      | none => .ok current
      | some next => do
          let n ← s.deref (some next)
          if decodeKey n.key < target then advance s target i fuel next else .ok current

/-- The descent of `search` through the levels below `n`, from `current`. -/
def seek (s : SkipList Key) (target : κ) : ℕ → ℕ → Except Fault ℕ
  | 0, current => .ok current
  | i + 1, current => do
      let current ← s.advance decodeKey target i s.fresh current
      seek s target i current

/-- The descent of `insert` and `remove` through the levels below `n`, from `current`; it
records the last node before the target on every level. -/
def descend (s : SkipList Key) (target : κ) :
    ℕ → ℕ → UpdateVector → Except Fault (ℕ × UpdateVector)
  | 0, current, update => .ok (current, update)
  | i + 1, current, update => do
      let current ← s.advance decodeKey target i s.fresh current
      let update ← setUpdate (s.maxLevel + spare) update i (some current)
      descend s target i current update

/-- The test that guards both splicing and unlinking, on the node after the descent:
`DecodeKey(current->forward[0]->key) < DecodeKey(key)`. -/
def nextIsBelow (s : SkipList Key) (target : κ) (current : ℕ) : Except Fault Bool := do
  let next ← s.getForward (some current) 0
  let n ← s.deref next
  .ok (decide (decodeKey n.key < target))

/-- When the new level is above the list's:
`for (int i = level + 1; i < newLevel; i++) update[i] = head;` -/
def fillUpdate (s : SkipList Key) (newLevel : ℕ) (update : UpdateVector) :
    Except Fault UpdateVector :=
  if newLevel > s.level then
    (List.range' (s.level + 1) (newLevel - (s.level + 1))).foldlM
      (fun update i => setUpdate (s.maxLevel + spare) update i (some head)) update
  else .ok update

/-- One round of the splicing loop: `newNode->forward[i] = update[i]->forward[i];
update[i]->forward[i] = newNode;` -/
def spliceLevel (update : UpdateVector) (newNode : ℕ) (s : SkipList Key) (i : ℕ) :
    Except Fault (SkipList Key) := do
  let pred ← getUpdate (s.maxLevel + spare) update i
  let next ← s.getForward pred i
  let s ← s.setForward (some newNode) i next
  s.setForward pred i (some newNode)

/-- The body of `insert` once the key is found to be new. -/
def splice (coins : List Bool) (key : Key) (update : UpdateVector) (s : SkipList Key) :
    Except Fault (SkipList Key) := do
  let newLevel := randomLevel s.maxLevel coins
  let update ← s.fillUpdate spare newLevel update
  let newNode := s.fresh
  let level := if newLevel > s.level then newLevel else s.level
  let s := { s with level := level, fresh := newNode + 1 }
  let s := s.store newNode { key := key, slots := newLevel + spare }
  (List.range newLevel).foldlM (spliceLevel spare update newNode) s

/-- `insert`. -/
def insert (coins : List Bool) (key : Key) (s : SkipList Key) : Except Fault (SkipList Key) := do
  let (current, update) ←
    s.descend decodeKey spare (decodeKey key) (s.level + 1) head fun _ => none
  match ← s.getForward (some current) 0 with
  | none => s.splice spare coins key update
  | some current => do
      if ← s.nextIsBelow decodeKey (decodeKey key) current then s.splice spare coins key update
      else .ok s

/-- `search`, for the C string `target` at the query's data pointer: the value it stores when
it returns `true`. `DecodeEntry` is run on the default-constructed slice `key_`, whose data
pointer is null. -/
def search (target : κ) (s : SkipList Key) : Except Fault (Option Bytes) := do
  let current ← s.seek decodeKey target (s.level + 1) head
  match ← s.getForward (some current) 0 with
  | none => .ok none
  | some current => do
      let next ← s.getForward (some current) 0
      let n ← s.deref next
      if decodeKey n.key ≠ target then do
        let entry ← decodeEntry none
        .ok (some entry.value)
      else .ok none

/-- The unlinking loop of `remove` over the levels `is`; it breaks at the first level where
`current` is not linked behind `update[i]`. -/
def unlinkLevels (update : UpdateVector) (current : ℕ) :
    List ℕ → SkipList Key → Except Fault (SkipList Key)
  | [], s => .ok s
  | i :: is, s => do
      let pred ← getUpdate (s.maxLevel + spare) update i
      let next ← s.getForward pred i
      if next ≠ some current then .ok s
      else do
        let after ← s.getForward (some current) i
        let s ← s.setForward pred i after
        unlinkLevels update current is s

/-- `while (level > 0 && head->forward[level] == nullptr) level--;` from level `l` down. -/
def dropLevels (s : SkipList Key) : ℕ → Except Fault (SkipList Key)
  | 0 => .ok { s with level := 0 }
  | l + 1 => do
      match ← s.getForward (some head) (l + 1) with
      | none => dropLevels s l
      | some _ => .ok { s with level := l + 1 }

/-- `remove`. -/
def remove (key : Key) (s : SkipList Key) : Except Fault (SkipList Key) := do
  let (current, update) ←
    s.descend decodeKey spare (decodeKey key) (s.level + 1) head fun _ => none
  match ← s.getForward (some current) 0 with
  | none => .ok s
  | some current => do
      if ← s.nextIsBelow decodeKey (decodeKey key) current then do
        let s ← unlinkLevels spare update current (List.range (s.level + 1)) s
        let s := { s with nodes := Function.update s.nodes current none }
        s.dropLevels s.level
      else .ok s

end SkipList

end TinyLeveldb
