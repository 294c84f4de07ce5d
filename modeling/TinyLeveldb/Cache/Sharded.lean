import Mathlib.Algebra.BigOperators.Fin
import TinyLeveldb.Cache.Tally
import TinyLeveldb.Hash
import TinyLeveldb.Library.Shards

/-!
# The sharded cache

`class ShardedLRUCache`: sixteen caches. A key is served by the cache that the top bits of its
hash name, a handle by the cache that the hash stored in it names. Every cache has its own
memory, so a handle is a cache and an address in the memory of that cache. Were the hash of a
handle to name another cache than its own, `Release` would pass it an address that is none of
its handles: a fault in the model, which no run reaches. `last_id_` has no part in the caching
and is left out.

The `table_` of every cache is its contract, a finite map, as everywhere in the model of the cache.
A real `HandleTable` faults at its first access (`HandleTable.refinesMap_iff`).

A run of the sharded cache is sixteen runs, of lone caches on what they are asked
(`sharded_decomposes`).
-/

namespace TinyLeveldb

open Library

/-- `kNumShardBits`. -/
def numShardBits : ℕ := 4

/-- `kNumShards`. -/
abbrev numShards : ℕ := 1 <<< numShardBits

/-- `HashSlice`. -/
def hashSlice (s : Slice) : UInt32 := hash s.data 0

/-- `Shard`. -/
def shardOf (hash : UInt32) : Fin numShards where
  val := (hash >>> UInt32.ofNat (32 - numShardBits)).toNat
  isLt := by
    have hlt := hash.toNat_lt
    have hshift : (UInt32.ofNat (32 - numShardBits)).toNat % 32 = 28 := rfl
    have hnum : numShards = 16 := rfl
    rw [UInt32.toNat_shiftRight, hshift, Nat.shiftRight_eq_div_pow, hnum]
    omega

namespace LRUCache

/-- A cache with the handles its calls returned, in order. -/
structure Served where
  cache : LRUCache
  answers : List (Pointer Addr) := []

/-- Execute a call of a lone cache. -/
def serve (s : Served) : Call → Except Fault Served
  | .setCapacity capacity => .ok { s with cache := s.cache.setCapacity capacity }
  | .insert key hash value charge deleter => do
      let (e, cache) ← s.cache.insert key hash value charge deleter
      .ok { cache, answers := s.answers ++ [some e] }
  | .lookup key => do
      let (e, cache) ← s.cache.lookup key
      .ok { cache, answers := s.answers ++ [e] }
  | .release n => do
      let cache ← s.cache.release (.handle n)
      .ok { s with cache }
  | .erase key => do
      let cache ← s.cache.erase key
      .ok { s with cache }
  | .prune => do
      let cache ← s.cache.prune
      .ok { s with cache }

theorem Tally.serve {P : UInt32 → Prop} {s s' : Served} {call : Call} (ht : Tally P s.cache)
    (hP : ∀ key hash value charge deleter, call = .insert key hash value charge deleter → P hash)
    (h : serve s call = .ok s') : Tally P s'.cache := by
  rcases call with capacity | ⟨key, hash, value, charge, deleter⟩ | key | n | key | _
  · cases h
    exact ht.congr rfl rfl rfl
  · obtain ⟨⟨e, c⟩, hins, h⟩ := bind_eq_ok.mp h
    cases h
    exact (ht.insert (hP _ _ _ _ _ rfl) hins).2
  · obtain ⟨⟨e, c⟩, hlook, h⟩ := bind_eq_ok.mp h
    cases h
    exact ht.lookup hlook
  · obtain ⟨c, hrel, h⟩ := bind_eq_ok.mp h
    cases h
    exact ht.unrefWith hrel
  · obtain ⟨c, herase, h⟩ := bind_eq_ok.mp h
    cases h
    exact ht.erase herase
  · obtain ⟨c, hprune, h⟩ := bind_eq_ok.mp h
    cases h
    exact ht.evictWhileWith hprune

end LRUCache

/-- `class ShardedLRUCache`. -/
structure ShardedLRUCache where
  shard : Fin numShards → LRUCache

/-- A handle: the cache that allocated it, and its address there. -/
abbrev ShardHandle := Fin numShards × Addr

namespace ShardedLRUCache

open LRUCache (Served serve)

/-- The capacity the constructor gives every cache. -/
def perShard (capacity : UInt64) : UInt64 :=
  (capacity + (UInt64.ofNat numShards - 1)) / UInt64.ofNat numShards

/-- `ShardedLRUCache::ShardedLRUCache`. -/
def new (capacity : UInt64) : ShardedLRUCache where
  shard _ := LRUCache.new.setCapacity (perShard capacity)

/-- An assignment to one of the caches. -/
def setShard (c : ShardedLRUCache) (i : Fin numShards) (s : LRUCache) : ShardedLRUCache :=
  { c with shard := Function.update c.shard i s }

/-- `Insert`. -/
def insert (c : ShardedLRUCache) (key : Slice) (value : ℕ) (charge : UInt64) (deleter : ℕ) :
    Except Fault (ShardHandle × ShardedLRUCache) := do
  let hash := hashSlice key
  let (e, s) ← (c.shard (shardOf hash)).insert key hash value charge deleter
  .ok ((shardOf hash, e), c.setShard (shardOf hash) s)

/-- `Lookup`. -/
def lookup (c : ShardedLRUCache) (key : Slice) :
    Except Fault (Pointer ShardHandle × ShardedLRUCache) := do
  let hash := hashSlice key
  let (e, s) ← (c.shard (shardOf hash)).lookup key
  .ok (e.map fun e => (shardOf hash, e), c.setShard (shardOf hash) s)

/-- `Release`, by the hash that is stored in the handle. -/
def release (c : ShardedLRUCache) (handle : ShardHandle) : Except Fault ShardedLRUCache := do
  let h ← (c.shard handle.1).cells.deref (some handle.2)
  if shardOf h.hash = handle.1 then do
    let s ← (c.shard (shardOf h.hash)).release handle.2
    .ok (c.setShard (shardOf h.hash) s)
  else .error .badPointer

/-- `Erase`. -/
def erase (c : ShardedLRUCache) (key : Slice) : Except Fault ShardedLRUCache := do
  let hash := hashSlice key
  let s ← (c.shard (shardOf hash)).erase key
  .ok (c.setShard (shardOf hash) s)

/-- `Prune`. -/
def prune (c : ShardedLRUCache) : Except Fault ShardedLRUCache :=
  (List.finRange numShards).foldlM
    (fun c i => do
      let s ← (c.shard i).prune
      .ok (c.setShard i s)) c

/-- `TotalCharge`. -/
def totalCharge (c : ShardedLRUCache) : UInt64 :=
  (List.finRange numShards).foldl (fun total i => total + (c.shard i).usage) 0

/-! ### Runs -/

/-- A call on the sharded cache. `release` names the handle by its cache and its allocation. -/
inductive Call
  | insert (key : Slice) (value : ℕ) (charge : UInt64) (deleter : ℕ)
  | lookup (key : Slice)
  | release (i : Fin numShards) (n : ℕ)
  | erase (key : Slice)
  | prune

/-- What the call asks of cache `i`. -/
def part (i : Fin numShards) : Call → Option LRUCache.Call
  | .insert key value charge deleter =>
      if shardOf (hashSlice key) = i then
        some (.insert key (hashSlice key) value charge deleter)
      else none
  | .lookup key => if shardOf (hashSlice key) = i then some (.lookup key) else none
  | .release j n => if j = i then some (.release n) else none
  | .erase key => if shardOf (hashSlice key) = i then some (.erase key) else none
  | .prune => some .prune

/-- The sharded cache of a run, apart from the answers. -/
def ofServed (s : Fin numShards → Served) : ShardedLRUCache where
  shard i := (s i).cache

/-- The state after a call that returned the handle `e` for a key or a handle of cache `i`. -/
def answer (s : Fin numShards → Served) (c : ShardedLRUCache) (i : Fin numShards)
    (e : Pointer Addr) : Fin numShards → Served := fun j =>
  { cache := c.shard j, answers := if j = i then (s j).answers ++ [e] else (s j).answers }

/-- The state after a call that returned nothing. -/
def quiet (s : Fin numShards → Served) (c : ShardedLRUCache) : Fin numShards → Served := fun j =>
  { s j with cache := c.shard j }

/-- Execute a call. -/
def exec (s : Fin numShards → Served) : Call → Except Fault (Fin numShards → Served)
  | .insert key value charge deleter => do
      let (e, c) ← (ofServed s).insert key value charge deleter
      .ok (answer s c e.1 (some e.2))
  | .lookup key => do
      let (e, c) ← (ofServed s).lookup key
      .ok (answer s c (shardOf (hashSlice key)) (e.map Prod.snd))
  | .release i n => do
      let c ← (ofServed s).release (i, .handle n)
      .ok (quiet s c)
  | .erase key => do
      let c ← (ofServed s).erase key
      .ok (quiet s c)
  | .prune => do
      let c ← (ofServed s).prune
      .ok (quiet s c)

/-- A new sharded cache. -/
def start (capacity : UInt64) : Fin numShards → Served := fun i =>
  { cache := (new capacity).shard i }

/-! ### What a call asks of the caches -/

/-- Every handle is where its hash says, and the charges add up. -/
def Routed (s : Fin numShards → Served) : Prop :=
  ∀ i, LRUCache.Tally (fun hash => shardOf hash = i) (s i).cache

section Routed

variable {s s' : Fin numShards → Served} {i : Fin numShards}

theorem answer_setShard (c : LRUCache) (e : Pointer Addr) :
    answer s ((ofServed s).setShard i c) i e =
      Function.update s i { cache := c, answers := (s i).answers ++ [e] } := by
  funext j
  by_cases hj : j = i
  · subst hj
    simp [answer, setShard]
  · simp [answer, setShard, ofServed, hj]

theorem quiet_setShard (c : LRUCache) :
    quiet s ((ofServed s).setShard i c) = Function.update s i { s i with cache := c } := by
  funext j
  by_cases hj : j = i
  · subst hj
    simp [quiet, setShard]
  · simp [quiet, setShard, ofServed, hj]

theorem exec_insert (key : Slice) (value : ℕ) (charge : UInt64) (deleter : ℕ) :
    exec s (.insert key value charge deleter) =
      serve (s (shardOf (hashSlice key))) (.insert key (hashSlice key) value charge deleter) >>=
        fun t => .ok (Function.update s (shardOf (hashSlice key)) t) := by
  rcases h : (s (shardOf (hashSlice key))).cache.insert key (hashSlice key) value charge deleter
    with f | ⟨e, c⟩ <;>
    simp [exec, insert, serve, ofServed, h, ← answer_setShard]

theorem exec_lookup (key : Slice) :
    exec s (.lookup key) = serve (s (shardOf (hashSlice key))) (.lookup key) >>=
      fun t => .ok (Function.update s (shardOf (hashSlice key)) t) := by
  rcases h : (s (shardOf (hashSlice key))).cache.lookup key with f | ⟨e, c⟩
  · simp [exec, lookup, serve, ofServed, h]
  · have he : (e.map fun e => (shardOf (hashSlice key), e)).map Prod.snd = e := by
      rcases e with _ | e <;> rfl
    simp [exec, lookup, serve, ofServed, h, ← answer_setShard, he]

theorem exec_erase (key : Slice) :
    exec s (.erase key) = serve (s (shardOf (hashSlice key))) (.erase key) >>=
      fun t => .ok (Function.update s (shardOf (hashSlice key)) t) := by
  rcases h : (s (shardOf (hashSlice key))).cache.erase key with f | c <;>
    simp [exec, erase, serve, ofServed, h, ← quiet_setShard]

/-- `Release` reaches the cache of the handle. -/
theorem Routed.exec_release (hs : Routed s) (n : ℕ) :
    exec s (.release i n) = serve (s i) (.release n) >>= fun t => .ok (Function.update s i t) := by
  rcases hd : (s i).cache.cells.deref (some (.handle n)) with f | h
  · -- nothing can be read at the handle, by either
    simp [exec, release, serve, ofServed, LRUCache.release, LRUCache.releaseWith,
      LRUCache.unrefWith, hd]
  · obtain ⟨_, ⟨⟩, hcell⟩ := Cells.deref_eq_ok hd
    have hroute := (hs i).hash (Cells.tags_eq hcell)
    rw [LRUHandle.tag] at hroute
    rcases hr : (s i).cache.release (.handle n) with f | c <;>
      simp [exec, release, serve, ofServed, hd, hroute, hr, ← quiet_setShard]

/-- `Prune` asks every cache. -/
theorem prune_iff {c c' : ShardedLRUCache} :
    c.prune = .ok c' ↔ ∀ i, (c.shard i).prune = .ok (c'.shard i) := by
  have hfold : ∀ (l : List (Fin numShards)) (c : ShardedLRUCache),
      l.foldlM (fun c i => (c.shard i).prune >>= fun s => .ok (c.setShard i s)) c =
        l.foldlM (fun s i => (s i).prune >>= fun t => .ok (Function.update s i t)) c.shard >>=
          fun shard => .ok { shard } := by
    intro l
    induction l with
    | nil => exact fun c => rfl
    | cons i l ih =>
      intro c
      rw [List.foldlM_cons, List.foldlM_cons]
      rcases (c.shard i).prune with f | t
      · rfl
      · exact ih (c.setShard i t)
  rw [prune, hfold, bind_eq_ok]
  simp only [foldlM_update_iff (List.nodup_finRange numShards), List.mem_finRange, if_true]
  constructor
  · rintro ⟨shard, h, hc'⟩
    obtain rfl : { shard } = c' := by simpa using hc'
    exact h
  · intro h
    exact ⟨c'.shard, h, rfl⟩

theorem exec_prune_iff :
    exec s .prune = .ok s' ↔ ∀ i, serve (s i) .prune = .ok (s' i) := by
  simp only [exec, serve, bind_eq_ok, prune_iff]
  constructor
  · rintro ⟨c, hc, hs'⟩ i
    obtain rfl : quiet s c = s' := by simpa using hs'
    exact ⟨c.shard i, hc i, rfl⟩
  · intro h
    choose c hc hs' using h
    refine ⟨{ shard := c }, hc, congrArg Except.ok ?_⟩
    funext i
    simpa [quiet] using hs' i

end Routed

theorem exec_iff {s s' : Fin numShards → Served} {op : Call} (hs : Routed s) :
    exec s op = .ok s' ↔ ∀ i, stepPart serve (s i) (part i op) = .ok (s' i) := by
  rcases op with ⟨key, value, charge, deleter⟩ | key | ⟨i, n⟩ | key | _
  · rw [exec_insert]
    exact bind_update_iff
  · rw [exec_lookup]
    exact bind_update_iff
  · rw [hs.exec_release]
    exact bind_update_iff
  · rw [exec_erase]
    exact bind_update_iff
  · exact exec_prune_iff

/-- A cache is asked to insert only keys whose hash names it. -/
theorem shardOf_of_part {op : Call} {i : Fin numShards} {key : Slice} {hash : UInt32} {value : ℕ}
    {charge : UInt64} {deleter : ℕ}
    (h : part i op = some (.insert key hash value charge deleter)) : shardOf hash = i := by
  rcases op with ⟨key', value', charge', deleter'⟩ | key' | ⟨j, n⟩ | key' | _
  · rw [part] at h
    split at h
    · rename_i hshard
      cases h
      exact hshard
    · cases h
  all_goals simp [part] at h

/-- **Step lemma.** A step of the sharded cache is a step of every cache that is asked. -/
theorem decomposes : Decomposes serve part exec Routed where
  exec_iff := exec_iff
  inv {s op s'} hs hop i := by
    have hpart := (exec_iff hs).mp hop i
    rcases ho : part i op with _ | o
    · rw [ho, stepPart_none] at hpart
      obtain heq : s i = s' i := by simpa using hpart
      exact heq ▸ hs i
    · rw [ho, stepPart_some] at hpart
      refine (hs i).serve (fun key hash value charge deleter hinsert => ?_) hpart
      rw [hinsert] at ho
      exact shardOf_of_part ho

theorem routed_start (capacity : UInt64) : Routed (start capacity) := fun _ =>
  (LRUCache.Tally.new _).congr rfl rfl rfl

/-- The loop of `TotalCharge` adds up in 64 bits. -/
theorem totalCharge_eq_sum (c : ShardedLRUCache) :
    c.totalCharge.toNat = (∑ i, (c.shard i).usage.toNat) % 2 ^ 64 := by
  have hfold : ∀ (l : List (Fin numShards)) (total : UInt64),
      (l.foldl (fun total i => total + (c.shard i).usage) total).toNat =
        (total.toNat + (l.map fun i => (c.shard i).usage.toNat).sum) % 2 ^ 64 := by
    intro l
    induction l with
    | nil =>
      intro total
      have hlt := total.toNat_lt
      rw [List.foldl_nil, List.map_nil, List.sum_nil]
      omega
    | cons i l ih =>
      intro total
      rw [List.foldl_cons, ih, UInt64.toNat_add, List.map_cons, List.sum_cons]
      omega
  rw [totalCharge, hfold, Fin.sum_univ_def, UInt64.toNat_zero, Nat.zero_add]

/-- **The sharded cache is its caches.** A run of the sharded cache is a run of every lone cache
on what it is asked, with the same answers and in the same final state. After it every handle
is in the cache its hash names, operations on different caches commute, and `TotalCharge` is
the sum of the charges of the cached entries, in 64 bits. -/
theorem sharded_decomposes (capacity : UInt64) (ops : List Call) (s : Fin numShards → Served) :
    (runAll exec (start capacity) ops = .ok s ↔
      ∀ i, runAll serve { cache := LRUCache.new.setCapacity (perShard capacity) }
        (ops.filterMap (part i)) = .ok (s i)) ∧
    (runAll exec (start capacity) ops = .ok s →
      (∀ i n h, ((ofServed s).shard i).cells (.handle n) = some h → shardOf h.hash = i) ∧
      (∀ a b, (∀ i, part i a = none ∨ part i b = none) →
        ∀ s', runAll exec s [a, b] = .ok s' ↔ runAll exec s [b, a] = .ok s') ∧
      (ofServed s).totalCharge.toNat = (∑ i, ((ofServed s).shard i).cachedCharge) % 2 ^ 64) := by
  refine ⟨decomposes.runAll_iff (routed_start capacity), fun hrun => ?_⟩
  have hs := decomposes.run_inv (routed_start capacity) hrun
  refine ⟨fun i n h hcell => ?_, fun a b hab s' => decomposes.comm_iff hs hab, ?_⟩
  · have hroute := (hs i).hash (Cells.tags_eq hcell)
    rwa [LRUHandle.tag] at hroute
  · rw [totalCharge_eq_sum, Finset.sum_nat_mod, Finset.sum_nat_mod _ _ fun i =>
      ((ofServed s).shard i).cachedCharge]
    refine congrArg (· % 2 ^ 64) (Finset.sum_congr rfl fun i _ => ?_)
    have husage := (hs i).usage
    rw [ofServed, husage, Nat.mod_mod]

/-- Two keys, one of them looked up and released. -/
def twoKeys : List Call :=
  [.insert ⟨[97], [], by decide⟩ 0 1 0, .insert ⟨[98], [], by decide⟩ 0 1 0,
    .lookup ⟨[97], [], by decide⟩, .release (shardOf (hashSlice ⟨[97], [], by decide⟩)) 0, .prune]

theorem sharded_twoKeys : ∃ s, runAll exec (start 16) twoKeys = .ok s ∧
    (∀ i n h, ((ofServed s).shard i).cells (.handle n) = some h → shardOf h.hash = i) ∧
    (∀ a b, (∀ i, part i a = none ∨ part i b = none) →
      ∀ s', runAll exec s [a, b] = .ok s' ↔ runAll exec s [b, a] = .ok s') ∧
    (ofServed s).totalCharge.toNat = (∑ i, ((ofServed s).shard i).cachedCharge) % 2 ^ 64 := by
  obtain ⟨s, hrun⟩ := exists_of_isOk (x := runAll exec (start 16) twoKeys) (by decide +kernel)
  exact ⟨s, hrun, (sharded_decomposes 16 twoKeys s).2 hrun⟩

/-- Two entries in use with a charge of `2 ^ 63` each: `TotalCharge` is zero. -/
theorem totalCharge_wraps :
    ∃ ops s, runAll exec (start 16) ops = .ok s ∧
      (ofServed s).totalCharge.toNat ≠ ∑ i, ((ofServed s).shard i).cachedCharge := by
  obtain ⟨ops, hops⟩ : ∃ ops : List Call, ops =
      [.insert ⟨[97], [], by decide⟩ 0 (2 ^ 63) 0, .insert ⟨[98], [], by decide⟩ 0 (2 ^ 63) 0] :=
    ⟨_, rfl⟩
  obtain ⟨s, hrun, hcharge⟩ := exists_of_any (x := runAll exec (start 16) ops)
    (p := fun s => (ofServed s).totalCharge.toNat ≠ ∑ i, ((ofServed s).shard i).cachedCharge)
    (by rw [hops]; decide +kernel)
  exact ⟨ops, s, hrun, of_decide_eq_true hcharge⟩

end ShardedLRUCache

end TinyLeveldb
