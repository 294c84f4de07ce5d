import TinyLeveldb.Cache.Lifetime
import TinyLeveldb.Library.LruOrder

/-!
# What the cache evicts

`Insert` evicts handles from the front of `lru_` until `usage_` is within the capacity, and `Prune`
evicts all of them. In every reachable session `lru_` has its handles in the order in which they
were released for the last time, so the handle that is evicted first is the one that was not used
for the longest time.

All of this is what the map does that the cache implements (`Library.PinnedLru`), read off the
cache.
-/

namespace TinyLeveldb

open Library Cells

namespace LRUCache

/-- `lru_` has the handles `l`, oldest first. -/
def OnLru (c : LRUCache) (l : List ℕ) : Prop :=
  IsRing c.cells.next c.cells.prev (.head .lru) (l.map .handle)

/-- What is left of `usage_` when the charges of the handles are taken off in turn. -/
def usageWithout (c : LRUCache) (ns : List ℕ) : UInt64 :=
  ns.foldl (fun usage n =>
    match c.cells (.handle n) with
    | some h => usage - h.charge
    | none => usage) c.usage

/-- Of the handles on `lru_`, the oldest ones `ns` are evicted, in turn, and the others `l` are
kept. -/
structure Evicts (c : LRUCache) (ns l : List ℕ) (c' : LRUCache) : Prop where
  before : c.OnLru (ns ++ l)
  after : c'.OnLru l
  table : ∀ {key n}, c'.table.lookup key = some (.handle n) ↔
    c.table.lookup key = some (.handle n) ∧ n ∉ ns
  deleted : c'.deleted = c.deleted ++
    ns.filterMap fun n => (c.cells (.handle n)).map fun h => deletion h.lruEntry
  usage : c'.usage = c.usageWithout ns

section Evicts

variable {c c' : LRUCache} {lists lists' : Side → List ℕ} {m m' : EntryMap} {ns : List ℕ}

theorem Refines.onLru {x : Option ℕ} (hr : Refines x c lists m) : c.OnLru m.idle := by
  rw [OnLru, ← hr.idle]
  exact hr.inv.linked.ring .lru

/-- A handle on `lru_` is what the map has under its number. -/
theorem Refines.exists_of_idle (hr : Refines none c lists m) {n : ℕ} (hn : n ∈ m.idle) :
    ∃ h, c.cells (.handle n) = some h ∧ m.entries[n]? = some h.lruEntry := by
  obtain ⟨h, he, -⟩ := hr.inv.mem_lists.mp (hr.idle ▸ hn)
  obtain ⟨h', hcell, rfl⟩ := exists_of_entry he
  have hentry := hr.entries he
  exact ⟨h', hcell, hentry⟩

/-- Handles on `lru_` are charged what the map charges for them. -/
theorem Refines.usageWithout_eq (hr : Refines none c lists m) (hns : ∀ n ∈ ns, n ∈ m.idle) :
    c.usageWithout ns = m.usageWithout ns := by
  rw [usageWithout, PinnedLru.usageWithout, hr.usage]
  refine List.foldl_ext _ _ _ fun usage n hn => ?_
  obtain ⟨h, hcell, hentry⟩ := hr.exists_of_idle (hns n hn)
  rw [hcell, hentry]
  rfl

/-- What the map drops, the cache evicts. -/
theorem Refines.evicts (hr : Refines none c lists m) (hr' : Refines none c' lists' m')
    (h : PinnedLru.Evicted m ns m') : Evicts c ns m'.idle c' := by
  have hns : ∀ n ∈ ns, n ∈ m.idle := fun n hn => by
    rw [h.idle]
    exact List.mem_append_left _ hn
  refine ⟨h.idle ▸ hr.onLru, hr'.onLru, fun {key n} => ?_, ?_, ?_⟩
  · rw [hr'.lookup_eq_some, hr.lookup_eq_some]
    exact h.table
  · rw [hr'.deleted, h.freed, List.map_append, ← hr.deleted, List.map_filterMap]
    congr 1
    refine List.filterMap_congr fun n hn => ?_
    obtain ⟨e, hcell, hentry⟩ := hr.exists_of_idle (hns n hn)
    rw [hcell, hentry]
    rfl
  · rw [← hr'.usage, h.usage, hr.usageWithout_eq hns]

end Evicts

/-! ### `Insert` -/

/-- The cache of an `Insert` before its loop: the new handle is there, and what was under its key is
not cached any more. -/
def Enters (c : LRUCache) (key : Slice) (hash : UInt32) (value : ℕ) (charge : UInt64)
    (deleter : ℕ) (c₁ : LRUCache) : Prop :=
  enter { c with
    cells := Function.update c.cells (.handle c.fresh)
      (some (newHandle key hash value charge deleter))
    fresh := c.fresh + 1 } (.handle c.fresh) charge = .ok c₁

/-- What an `Insert` under a key evicts, from the state `c₁` before its loop and with the handles
`lru` on `lru_` before the call: the shortest prefix `ns` without which there is room. It keeps the
new handle and all that its clients hold. -/
structure EvictsOldest (s : Session) (lru : List ℕ) (key : Slice) (c₁ : LRUCache)
    (ns l : List ℕ) (s' : Session) : Prop where
  lru : ns ++ l = if 0 < s.cache.capacity then
    lru.filter fun n => s.cache.table.lookup key.data ≠ some (.handle n) else lru
  evicts : Evicts c₁ ns l s'.cache
  shortest : ∀ pre, pre <+: ns → pre ≠ ns → s.cache.capacity < c₁.usageWithout pre
  fits : s'.cache.usage ≤ s.cache.capacity ∨ l = []
  inserted : 0 < s.cache.capacity →
    s'.cache.table.lookup key.data = some (.handle s.cache.fresh)
  given : s'.outstanding s.cache.fresh = 1
  kept : ∀ n, 0 < s'.outstanding n → n ∉ ns ∧ s'.cache.cells (.handle n) ≠ none

/-- **The eviction policy** of a session after some calls, with the handles `lru` on `lru_`. -/
structure EvictionPolicy (calls : List Call) (s : Session) (lru : List ℕ) : Prop where
  onLru : s.cache.OnLru lru
  inOrder : InOrder Call.release calls lru
  insert : ∀ key hash value charge deleter, ∃ c₁ ns l s',
    s.exec (.insert key hash value charge deleter) = .ok s' ∧
      s.cache.Enters key hash value charge deleter c₁ ∧ EvictsOldest s lru key c₁ ns l s'
  prune : ∃ s', s.exec .prune = .ok s' ∧ s'.outstanding = s.outstanding ∧
    Evicts s.cache lru [] s'.cache ∧ ∀ key n, s'.cache.table.lookup key = some (.handle n) ↔
      s.cache.table.lookup key = some (.handle n) ∧ 0 < s.outstanding n

section Policy

variable {s : Session} {m : EntryMap}

theorem Implements.evictsOldest (hs : Implements s m) (hwf : PinnedLru.WF none m) (key : Slice)
    (hash : UInt32) (value : ℕ) (charge : UInt64) (deleter : ℕ) :
    ∃ c₁ ns l s', s.exec (.insert key hash value charge deleter) = .ok s' ∧
      s.cache.Enters key hash value charge deleter c₁ ∧
        EvictsOldest s m.idle key c₁ ns l s' := by
  obtain ⟨⟨lists, hr⟩, hheld⟩ := hs
  obtain ⟨c, outstanding⟩ := s
  obtain rfl : m.held = outstanding := hheld
  obtain ⟨e, he⟩ : ∃ e : LruEntry Bytes (ℕ × ℕ) UInt64,
    e = { key := key.data, value := (value, deleter), charge } := ⟨_, rfl⟩
  have hkey : e.key = key.data := by rw [he]
  -- the cache before the loop, and after it
  obtain ⟨c₁, lists₁, hok₁, hr₁⟩ := hr.enterNew key hash value charge deleter
  obtain ⟨c', lists', hok, hr'⟩ := hr.insert key hash value charge deleter
  rw [← he] at hr₁ hr'
  change Refines none c₁ lists₁ (m.entered e) at hr₁
  obtain ⟨ns, hev, hshort, hend, hns, hnew⟩ := hwf.insert_evicted e
  have hheld := m.insert_held e
  rw [hr.length_entries] at hheld hnew
  have hout : Session.giveOut m.held (some (.handle c.fresh)) = (m.insert e).held := by
    rw [hheld, Session.giveOut, hr.inv.released hr.inv.entry_fresh]
  refine ⟨c₁, ns, (m.insert e).idle, ⟨c', (m.insert e).held⟩, ?_, ?_, ?_⟩
  · simp only [Session.exec, Session.execWith, hok accept (accepts_accept _), ok_bind, hout]
  · exact hok₁ accept (accepts_accept _)
  · refine ⟨?_, hr₁.evicts hr' hev, fun pre hpre hne => ?_, ?_, fun hpos => ?_, ?_,
      fun n hn => ⟨fun hmem => hn.ne' (hns n hmem).2, ?_⟩⟩
    · rw [← hev.idle, hwf.idle_entered, hr.capacity, hkey]
      congr 1
      refine List.filter_congr fun n _ => ?_
      rw [decide_eq_decide, ne_eq, ne_eq, hr.lookup_eq_some]
    · rw [hr₁.usageWithout_eq fun n hn => (hns n (hpre.subset hn)).1, ← hr.capacity]
      exact hshort pre hpre hne
    · rw [← hr'.usage, ← hr.capacity]
      exact hend.imp_left UInt64.not_lt.mp
    · rw [hr'.lookup_eq_some, ← hkey]
      exact hnew (hr.capacity ▸ hpos)
    · simp only [hheld, Function.update_self]
    · obtain ⟨h, hcell⟩ := hr'.inv.exists_of_held hn.ne'
      obtain ⟨h', hcell', -⟩ := exists_of_entry hcell
      simp [hcell']

theorem Implements.prunes (hs : Implements s m) (hwf : PinnedLru.WF none m) :
    ∃ s', s.exec .prune = .ok s' ∧ s'.outstanding = s.outstanding ∧
      Evicts s.cache m.idle [] s'.cache ∧ ∀ key n, s'.cache.table.lookup key = some (.handle n) ↔
        s.cache.table.lookup key = some (.handle n) ∧ 0 < s.outstanding n := by
  obtain ⟨⟨lists, hr⟩, hheld⟩ := hs
  obtain ⟨c', lists', hok, hr'⟩ := hr.prune
  obtain ⟨hev, hnil⟩ := hwf.prune_evicted
  have hevicts := hr.evicts hr' hev
  rw [hnil] at hevicts
  refine ⟨⟨c', s.outstanding⟩, ?_, rfl, hevicts, fun key n => ?_⟩
  · simp only [Session.exec, Session.execWith, hok accept (accepts_accept _), ok_bind]
  · rw [hevicts.table]
    refine and_congr_right fun hkey => ?_
    have hcached := hwf.cached_of_table (hr.lookup_eq_some.mp hkey)
    rw [hwf.mem_idle, ← hheld, Nat.pos_iff_ne_zero]
    simp [hcached]

end Policy

/-- **Eviction**, in every session in which no handle is ever held `2 ^ 32 - 1` times: `lru_` is in
the order of the last releases, `Insert` evicts the shortest prefix of it that makes room, and
`Prune` leaves in the cache what its clients hold. -/
theorem evictionPolicy_of_run {calls : List Call} {s : Session}
    (h : RunWithin Fits Session.start Session.Enabled Session.exec calls s) :
    ∃ lru, EvictionPolicy calls s lru := by
  have h₀ : PinnedLru.WF none ({ capacity := 0, usage := 0 } : EntryMap) := PinnedLru.wf_new 0 0
  obtain ⟨hs, hwf⟩ := (implements_opened 0).run h₀ h
  obtain ⟨lists, hr⟩ := hs.refines
  refine ⟨_, hr.onLru, ?_, hs.evictsOldest hwf, hs.prunes hwf⟩
  clear hs hwf hr
  induction h with
  | init _ => exact inOrder_nil
  | @step calls s s' call hrun hen hok hfits ih =>
    obtain ⟨hs, hwf⟩ := (implements_opened 0).run h₀ hrun
    rw [mapAfter_concat]
    refine hwf.inOrder_exec (hs.enabled hen) (fun n => ?_) ih
    rcases call with _ | _ | _ | i | _ | _ <;> simp [Call.request]

/-- An entry that was released is the only one on `lru_`. -/
theorem evictionPolicy_released :
    ∃ s lru, RunWithin Fits Session.start Session.Enabled Session.exec
        [.setCapacity 1, .insert emptyKey 0 0 1 0, .release 0] s ∧
      EvictionPolicy [.setCapacity 1, .insert emptyKey 0 0 1 0, .release 0] s lru := by
  have hstart : Fits Session.start := fun _ => by simp [Session.start]
  have hreleased : ∀ n, Function.update (Function.update (fun _ : ℕ => 0) 0 1) 0 0 n + 1 <
      2 ^ 32 := by
    intro n
    by_cases hn : n = 0 <;> simp [hn]
  obtain ⟨s, hrun⟩ : ∃ s, RunWithin Fits Session.start Session.Enabled Session.exec
      [.setCapacity 1, .insert emptyKey 0 0 1 0, .release 0] s :=
    ⟨_, (((RunWithin.init hstart).step (i := Call.setCapacity 1) trivial rfl
      (by exact hstart)).step (i := Call.insert emptyKey 0 0 1 0) trivial rfl
      (by exact update_one_fits)).step (i := Call.release 0) (by exact Nat.one_pos) rfl
      (by exact hreleased)⟩
  obtain ⟨lru, hpolicy⟩ := evictionPolicy_of_run hrun
  exact ⟨s, lru, hrun, hpolicy⟩

/-! ### The reference count wraps around -/

/-- A cache with one entry on `in_use_`, under the empty key. -/
def cachedOnce (refs : UInt32) : LRUCache where
  capacity := 1
  usage := 0
  table := (∅ : Finmap fun _ : Bytes => Addr).insert [] (.handle 0)
  cells
    | .head .lru => some { next := some (.head .lru), prev := some (.head .lru) }
    | .head .inUse => some { next := some (.handle 0), prev := some (.handle 0) }
    | .handle 0 => some
        { next := some (.head .inUse), prev := some (.head .inUse), inCache := true, refs }
    | .handle (_ + 1) => none
  fresh := 1
  deleted := []

/-- A `Lookup` of the entry counts up, from one reference on by linking the entry anew. -/
theorem lookup_cachedOnce (refs : UInt32) :
    (cachedOnce refs).lookup emptyKey = .ok (some (.handle 0), cachedOnce (refs + 1)) := by
  obtain ⟨cells, href, hcells⟩ : ∃ cells, (cachedOnce refs).cells.ref (.handle 0) = .ok cells ∧
      cells = (cachedOnce (refs + 1)).cells := by
    by_cases hone : refs = 1
    · subst hone
      refine ⟨_, rfl, funext fun a => ?_⟩
      rcases a with (_ | _) | (_ | n) <;> rfl
    · refine ⟨Function.update (cachedOnce refs).cells (.handle 0) ((cachedOnce (refs + 1)).cells
        (.handle 0)), ?_, funext fun a => ?_⟩
      · simp [Cells.ref, Cells.deref, Cells.modify, cachedOnce, hone]
      · rcases a with (_ | _) | (_ | n) <;> rfl
  have hlookup : (cachedOnce refs).table.lookup emptyKey.data = some (.handle 0) := rfl
  simp only [LRUCache.lookup, hlookup, href, ok_bind, hcells]
  rfl

/-- A client can hold the entry as often as it likes. -/
theorem run_lookup (j : ℕ) :
    Run (Session.opened 1) Session.Enabled Session.exec
      (.insert emptyKey 0 0 0 0 :: List.replicate j (.lookup emptyKey))
      ⟨cachedOnce (UInt32.ofNat (2 + j)), Function.update (fun _ => 0) 0 (1 + j)⟩ := by
  induction j with
  | zero =>
    obtain ⟨c, hok, hc⟩ : ∃ c, (Session.opened 1).exec (.insert emptyKey 0 0 0 0) =
        .ok ⟨c, Function.update (fun _ => 0) 0 1⟩ ∧ c = cachedOnce 2 := by
      refine ⟨_, rfl, ?_⟩
      have hcells (c : LRUCache) (h : c.cells = (cachedOnce 2).cells) :
          { cachedOnce 2 with cells := c.cells } = cachedOnce 2 := by rw [h]
      refine hcells _ (funext fun a => ?_)
      rcases a with (_ | _) | (_ | n) <;> rfl
    exact (RunWithin.init trivial).step (i := Call.insert emptyKey 0 0 0 0) trivial (hc ▸ hok)
      trivial
  | succ j ih =>
    rw [List.replicate_succ', ← List.cons_append]
    refine ih.step (i := Call.lookup emptyKey) trivial ?_ trivial
    have hrefs : UInt32.ofNat (2 + j) + 1 = UInt32.ofNat (2 + (j + 1)) := by
      rw [← UInt32.toNat_inj]
      simp [Nat.add_assoc]
    simp only [Session.exec, Session.execWith, lookup_cachedOnce, ok_bind, hrefs, Session.giveOut,
      Function.update_self, Function.update_idem, Nat.add_assoc]

/-- After `2 ^ 32` calls of `Lookup` the entry has the count of one that is held once: one `Release`
puts it on `lru_`, and `Prune` frees it although its clients hold it. -/
theorem not_evictionPolicy :
    ∃ s s', Run (Session.opened 1) Session.Enabled Session.exec
        ((.insert emptyKey 0 0 0 0 :: List.replicate (2 ^ 32) (.lookup emptyKey)) ++ [.release 0])
        s ∧
      s.exec .prune = .ok s' ∧ s'.outstanding 0 = 2 ^ 32 ∧
      s'.cache.cells (.handle 0) = none := by
  have hrun := run_lookup (2 ^ 32)
  have hrefs : UInt32.ofNat (2 + 2 ^ 32) = 2 := by
    rw [← UInt32.toNat_inj]
    rfl
  rw [hrefs] at hrun
  obtain ⟨c₁, c₂, hrelease, hprune, hfreed⟩ : ∃ c₁ c₂,
      (cachedOnce 2).releaseWith accept (.handle 0) = .ok c₁ ∧ c₁.pruneWith accept = .ok c₂ ∧
        c₂.cells (.handle 0) = none := ⟨_, _, rfl, rfl, rfl⟩
  obtain ⟨out, hout⟩ : ∃ out : ℕ → ℕ, out = Function.update (fun _ => 0) 0 (2 ^ 32) := ⟨_, rfl⟩
  have hstep : Session.exec ⟨cachedOnce 2, Function.update (fun _ => 0) 0 (1 + 2 ^ 32)⟩
      (.release 0) = .ok ⟨c₁, out⟩ := by
    simp only [Session.exec, Session.execWith, hrelease, ok_bind, Function.update_self,
      Function.update_idem, Nat.add_sub_cancel_left, hout]
  refine ⟨⟨c₁, out⟩, ⟨c₂, out⟩, hrun.step (i := Call.release 0) ?_ hstep trivial, ?_, ?_, hfreed⟩
  · simp only [Session.Enabled, Function.update_self]
    omega
  · simp only [Session.exec, Session.execWith, hprune, ok_bind]
  · simp only [hout, Function.update_self]

end LRUCache

end TinyLeveldb
