import TinyLeveldb.Cache.Calls
import Mathlib.Logic.Basic

/-!
# Sessions with the cache

`Implements s m`: the cache of a session implements a map, and its clients hold what is pinned. A
call does to the map what it requests (`Implements.exec`), and so does a run of calls
(`Implements.run`).

`RepInvariant`: what holds of a cache and its clients between two calls. It holds in every
reachable session in which no handle is ever given out `2 ^ 32 - 1` times at once. The bound is
needed: `refs` is a `uint32_t`, and one more `Lookup` of a cached entry wraps it to zero.
-/

namespace TinyLeveldb

open Library Cells

namespace LRUCache

/-- The lists, the table, the reference counts and the charge of a session agree: `lists` are
the handles on the two circular lists. -/
structure Represents (s : Session) (lists : Side → List ℕ) : Prop where
  /-- Both lists are circular, doubly linked and without duplicates. -/
  ring : ∀ side,
    IsRing s.cache.cells.next s.cache.cells.prev (.head side) ((lists side).map .handle)
  /-- A cached entry is in the table under its key, and on exactly one list, the one its
  reference count says. -/
  cached : ∀ n h, s.cache.cells (.handle n) = some h → h.inCache = true →
    s.cache.table.lookup h.key = some (.handle n) ∧
      (n ∈ lists .lru ↔ h.refs = 1) ∧ (n ∈ lists .inUse ↔ 2 ≤ h.refs) ∧
      Xor (n ∈ lists .lru) (n ∈ lists .inUse)
  /-- Any other entry is in neither list and not in the table. -/
  uncached : ∀ n h, s.cache.cells (.handle n) = some h → h.inCache = false →
    (∀ side, n ∉ lists side) ∧ ∀ key, s.cache.table.lookup key ≠ some (.handle n)
  /-- The references to an entry are its clients' and the cache's. -/
  refs : ∀ n h, s.cache.cells (.handle n) = some h →
    h.refs.toNat = s.outstanding n + if h.inCache then 1 else 0
  /-- What the lists, the table and the clients point at was allocated and not freed. -/
  live : ∀ n, (∃ side, n ∈ lists side) ∨ (∃ key, s.cache.table.lookup key = some (.handle n)) ∨
    0 < s.outstanding n → n < s.cache.fresh ∧ s.cache.cells (.handle n) ≠ none
  /-- `usage_` is the sum of the charges of the cached entries, in 64 bits. -/
  usage : s.cache.usage.toNat = s.cache.cachedCharge % 2 ^ 64

/-- **The representation invariant of a session**: its parts agree, and every call its clients
may make completes, no assertion failing. -/
def RepInvariant (s : Session) : Prop :=
  (∃ lists, Represents s lists) ∧ ∀ call, s.Enabled call → ∃ s', s.exec call = .ok s'

/-- No handle is held `2 ^ 32 - 1` times. -/
def Fits (s : Session) : Prop := ∀ n, s.outstanding n + 1 < 2 ^ 32

/-! ### Every call refines the request to the map -/

/-- The cache implements the map, and its clients hold what is pinned. -/
structure Implements (s : Session) (m : EntryMap) : Prop where
  refines : ∃ lists, Refines none s.cache lists m
  held : m.held = s.outstanding

/-- The map after the calls. -/
def mapAfter (m : EntryMap) (calls : List Call) : EntryMap :=
  calls.foldl (fun m call => m.exec call.request) m

theorem mapAfter_concat (m : EntryMap) (calls : List Call) (call : Call) :
    mapAfter m (calls ++ [call]) = (mapAfter m calls).exec call.request := by
  rw [mapAfter, List.foldl_append]
  rfl

/-- A new cache with a capacity, without clients. -/
def Session.opened (capacity : UInt64) : Session :=
  { Session.start with cache := LRUCache.new.setCapacity capacity }

theorem Refines.new : Refines none LRUCache.new (fun _ => []) { capacity := 0, usage := 0 } where
  inv :=
    { linked :=
        { ring := fun _ => isRing_nil rfl rfl
          disjoint := by simp
          next_ne_self := fun _ => by simp [next, LRUCache.new] }
      lt_fresh := fun he => by simp [entry, LRUCache.new] at he
      mem_lists := by simp [entry, LRUCache.new]
      lookup_iff := by simp [entry, LRUCache.new]
      refs := fun he => by simp [entry, LRUCache.new] at he
      released := fun _ => rfl
      usage := rfl }
  capacity := rfl
  usage := rfl
  table _ := by simp [LRUCache.new]
  idle := rfl
  length_entries := rfl
  entries he := by simp [entry, LRUCache.new] at he
  deleted := rfl

/-- A new cache implements the empty map. -/
theorem implements_opened (capacity : UInt64) :
    Implements (Session.opened capacity) { capacity, usage := 0 } :=
  ⟨⟨_, Refines.new.setCapacity capacity⟩, rfl⟩

/-- A call does the same with every deleter that accepts unreachable handles nobody holds. -/
def Session.Steps (s : Session) (call : Call) (s' : Session) : Prop :=
  ∀ onDelete : (ℕ → ℕ) → Deleter, (∀ out, Accepts (onDelete out) out) →
    s.execWith onDelete call = .ok s'

theorem Session.Steps.exec_eq {s s' : Session} {call : Call} (h : s.Steps call s') :
    s.exec call = .ok s' :=
  h (fun _ => accept) accepts_accept

/-- **Step lemma.** A call its clients may make completes, and does what its request does to the
map, unless a handle is then held too often. -/
theorem Implements.exec {s : Session} {m : EntryMap} (hs : Implements s m) {call : Call}
    (hen : s.Enabled call) :
    ∃ s', s.Steps call s' ∧ s'.outstanding = (m.exec call.request).held ∧
      (Fits s' → Implements s' (m.exec call.request)) := by
  obtain ⟨⟨lists, hr⟩, hheld⟩ := hs
  obtain ⟨c, outstanding⟩ := s
  obtain rfl : m.held = outstanding := hheld
  rcases call with capacity | ⟨key, hash, value, charge, deleter⟩ | key | n | key | _
  · exact ⟨_, fun _ _ => rfl, rfl, fun _ => ⟨⟨lists, hr.setCapacity capacity⟩, rfl⟩⟩
  · obtain ⟨c', lists', hok, hr'⟩ := hr.insert key hash value charge deleter
    have hout : Session.giveOut m.held (some (.handle c.fresh)) =
        (m.insert { key := key.data, value := (value, deleter), charge }).held := by
      have hzero : m.held c.fresh = 0 := hr.inv.released hr.inv.entry_fresh
      rw [PinnedLru.insert_held, hr.length_entries, Session.giveOut, hzero]
    refine ⟨⟨c', Session.giveOut m.held (some (.handle c.fresh))⟩, fun onDelete haccepts => ?_,
      hout, fun _ => ⟨⟨lists', hr'⟩, hout.symm⟩⟩
    simp only [Session.execWith, hok _ (haccepts m.held), ok_bind]
  · obtain ⟨c', hok, hr'⟩ := hr.lookup key
    have hout : Session.giveOut m.held ((m.table key.data).map .handle) =
        (m.lookup key.data).held := by
      rw [PinnedLru.lookup]
      rcases m.table key.data with _ | n <;> rfl
    refine ⟨⟨c', Session.giveOut m.held ((m.table key.data).map .handle)⟩, fun onDelete _ => ?_,
      hout, fun hfits => ⟨hr' fun n => ?_, hout.symm⟩⟩
    · simp only [Session.execWith, hok, ok_bind]
    · rw [← hout]
      exact hfits n
  · obtain ⟨c', lists', hok, hr'⟩ := hr.release (Nat.pos_iff_ne_zero.mp hen)
    have hout : Function.update m.held n (m.held n - 1) = (m.release n).held := by
      rw [PinnedLru.release]
      simp only
      repeat' split
      all_goals simp
    refine ⟨⟨c', Function.update m.held n (m.held n - 1)⟩, fun onDelete haccepts => ?_, hout,
      fun _ => ⟨⟨lists', hr'⟩, hout.symm⟩⟩
    simp only [Session.execWith, hok _ (haccepts _), ok_bind]
  · obtain ⟨c', lists', hok, hr'⟩ := hr.erase key
    have hout : m.held = (m.erase key.data).held := by
      rw [PinnedLru.erase, PinnedLru.dropOld_held]
    refine ⟨⟨c', m.held⟩, fun onDelete haccepts => ?_, hout, fun _ => ⟨⟨lists', hr'⟩, hout.symm⟩⟩
    simp only [Session.execWith, hok _ (haccepts m.held), ok_bind]
  · obtain ⟨c', lists', hok, hr'⟩ := hr.prune
    have hout : m.held = m.prune.held := by rw [PinnedLru.prune, PinnedLru.evictWhile_held]
    refine ⟨⟨c', m.held⟩, fun onDelete haccepts => ?_, hout, fun _ => ⟨⟨lists', hr'⟩, hout.symm⟩⟩
    simp only [Session.execWith, hok _ (haccepts m.held), ok_bind]

/-- Only what is pinned is released. -/
theorem Implements.enabled {s : Session} {m : EntryMap} (hs : Implements s m) {call : Call}
    (hen : s.Enabled call) : m.Enabled call.request := by
  rcases call with _ | _ | _ | n | _ | _
  · trivial
  · trivial
  · trivial
  · change m.held n ≠ 0
    rw [hs.held]
    exact Nat.pos_iff_ne_zero.mp hen
  · trivial
  · trivial

/-- **Run lemma.** After a run of calls the cache implements the map after their requests. -/
theorem Implements.run {init s : Session} {m : EntryMap} (h₀ : Implements init m)
    (hwf : PinnedLru.WF none m) {calls : List Call}
    (h : RunWithin Fits init Session.Enabled Session.exec calls s) :
    Implements s (mapAfter m calls) ∧ PinnedLru.WF none (mapAfter m calls) := by
  refine h.inv (P := fun calls s => Implements s (mapAfter m calls) ∧
    PinnedLru.WF none (mapAfter m calls)) ⟨h₀, hwf⟩ fun calls s call s' hP hen hok hfits => ?_
  obtain ⟨hs, hwf⟩ := hP
  obtain ⟨s'', hsteps, -, hs'⟩ := hs.exec hen
  obtain rfl : s'' = s' := by simpa using hsteps.exec_eq.symm.trans hok
  rw [mapAfter_concat]
  exact ⟨hs' hfits, hwf.exec (hs.enabled hen)⟩

/-! ### The representation invariant -/

theorem Inv.represents {s : Session} {lists : Side → List ℕ}
    (hi : Inv none s.cache s.outstanding lists) : Represents s lists where
  ring := hi.linked.ring
  cached n h hcell hc := by
    have he : s.cache.cells.entry n = some h.unlinked := by simp [entry, hcell]
    have hmem : ∀ side, n ∈ lists side ↔ h.unlinked.side = side := fun side => by
      simp [hi.mem_lists, he, hc]
    have hrefs : h.refs.toNat = s.outstanding n + 1 := by
      have := hi.refs he
      simpa [hc] using this
    have htwo : 2 ≤ h.refs ↔ 2 ≤ h.refs.toNat := UInt32.le_iff_toNat_le
    refine ⟨hi.lookup_iff.mpr ⟨⟨n, _, rfl, he, hc, rfl⟩, by simp⟩, ?_⟩
    rw [hmem, hmem, htwo]
    by_cases hone : h.refs = 1
    · have hside : h.unlinked.side = .lru := if_pos hone
      simp [hside, hone, Xor]
    · have hside : h.unlinked.side = .inUse := if_neg hone
      have hnat : h.refs.toNat ≠ 1 := fun hn => hone (UInt32.toNat_inj.mp hn)
      have hle : 2 ≤ h.refs.toNat := by omega
      simp [hside, hone, hle, Xor]
  uncached n h hcell hc := by
    have he : s.cache.cells.entry n = some h.unlinked := by simp [entry, hcell]
    refine ⟨fun side hmem => ?_, fun key hkey => ?_⟩
    · simp [hi.mem_lists, he, hc] at hmem
    · obtain ⟨m, h', hm, he', hc', -⟩ := hi.exists_of_lookup hkey
      cases hm
      rw [he] at he'
      cases he'
      simp [hc] at hc'
  refs n h hcell := by
    have he : s.cache.cells.entry n = some h.unlinked := by simp [entry, hcell]
    rw [← h.unlinked_refs, hi.refs he, LRUHandle.unlinked_inCache]
    cases h.inCache <;> rfl
  live n hn := by
    obtain ⟨h, he⟩ : ∃ h, s.cache.cells.entry n = some h := by
      -- listed, in the table, or held by a client
      rcases hn with ⟨side, hmem⟩ | ⟨key, hkey⟩ | hpos
      · obtain ⟨h, he, -⟩ := hi.mem_lists.mp hmem
        exact ⟨h, he⟩
      · obtain ⟨m, h, hm, he, -⟩ := hi.exists_of_lookup hkey
        cases hm
        exact ⟨h, he⟩
      · by_contra hne
        have hzero := hi.released (Option.eq_none_iff_forall_ne_some.mpr (not_exists.mp hne))
        omega
    exact ⟨hi.lt_fresh he, live_of_entry he⟩
  usage := hi.usage

/-- **The representation invariant** holds in every reachable session in which no handle is
ever held `2 ^ 32 - 1` times. -/
theorem repInvariant_of_reachable {s : Session}
    (h : ReachableWithin Fits Session.start Session.Enabled Session.exec s) :
    RepInvariant s := by
  obtain ⟨calls, hrun⟩ := h.exists_run
  obtain ⟨hs, -⟩ := (implements_opened 0).run (PinnedLru.wf_new 0 0) hrun
  refine ⟨?_, fun call hen => ?_⟩
  · obtain ⟨⟨lists, hr⟩, hheld⟩ := hs
    exact ⟨lists, (hheld ▸ hr.inv).represents⟩
  · obtain ⟨s', hsteps, -⟩ := hs.exec hen
    exact ⟨s', hsteps.exec_eq⟩

/-- The empty key. -/
def emptyKey : Slice := { data := [], size_lt := Nat.two_pow_pos 31 }

/-- A handle may be held once, or not at all. -/
theorem update_fits {out : ℕ → ℕ} (hout : ∀ n, out n + 1 < 2 ^ 32) {k : ℕ} (hk : k ≤ 1)
    (i n : ℕ) : Function.update out i k n + 1 < 2 ^ 32 := by
  rw [Function.update_apply]
  split
  · omega
  · exact hout n

theorem update_one_fits (n : ℕ) : Function.update (fun _ : ℕ => 0) 0 1 n + 1 < 2 ^ 32 :=
  update_fits (fun _ => Nat.one_lt_two_pow (by decide)) le_rfl 0 n

/-- A session with an entry on each list: two were cached, and the first was released. -/
theorem repInvariant_twoKeys :
    ∃ s, runAll Session.exec Session.start [.setCapacity 2, .insert emptyKey 0 0 1 0,
        .insert (.single 97) 0 0 1 0, .release 0] = .ok s ∧
      s.cache.cells.next (.head .lru) = some (.handle 0) ∧
      s.cache.cells.next (.head .inUse) = some (.handle 1) ∧ RepInvariant s := by
  have hzero : Fits Session.start := fun _ => by simp [Session.start]
  refine ⟨_, rfl, rfl, rfl, repInvariant_of_reachable ?_⟩
  have hstart : ReachableWithin Fits Session.start Session.Enabled Session.exec Session.start :=
    .init hzero
  have hfirst := hstart.step (i := Call.setCapacity 2) trivial rfl hzero
  have hsecond := hfirst.step (i := Call.insert emptyKey 0 0 1 0) trivial rfl
    (by exact update_fits hzero le_rfl 0)
  have hthird := hsecond.step (i := Call.insert (.single 97) 0 0 1 0) trivial rfl
    (by exact update_fits (update_fits hzero le_rfl 0) le_rfl 1)
  exact hthird.step (i := Call.release 0) (by exact Nat.one_pos) rfl
    (by exact update_fits (update_fits (update_fits hzero le_rfl 0) le_rfl 1) (Nat.zero_le 1) 0)

/-! ### The reference count wraps around -/

/-- A session that cached one entry, under the empty key, and holds it `1 + j` times. -/
def Pinned (s : Session) (j : ℕ) : Prop :=
  s.cache.table.lookup [] = some (.handle 0) ∧ s.outstanding 0 = 1 + j ∧
    ∃ h, s.cache.cells (.handle 0) = some h ∧ h.inCache = true ∧ h.refs = UInt32.ofNat (2 + j)

/-- The entry is alone on `in_use_`. -/
def InUse (s : Session) : Prop :=
  (∃ list, s.cache.cells (.head .inUse) = some list) ∧
    s.cache.cells.next (.handle 0) = some (.head .inUse) ∧
    s.cache.cells.prev (.handle 0) = some (.head .inUse)

/-- One more `Lookup` of the entry, while its count is not one, only counts up. -/
theorem Pinned.exec {s : Session} {j : ℕ} (hs : Pinned s j) (hlinks : InUse s)
    (hj : (2 + j) % 2 ^ 32 ≠ 1) :
    ∃ s', s.exec (.lookup emptyKey) = .ok s' ∧ Pinned s' (j + 1) ∧ InUse s' := by
  obtain ⟨hlookup, hout, h, hcell, hc, hrefs⟩ := hs
  have hne : h.refs ≠ 1 := by
    rw [hrefs, ← UInt32.toNat_inj.ne, UInt32.toNat_ofNat']
    exact hj
  have hlookup' : s.cache.table.lookup emptyKey.data = some (.handle 0) := hlookup
  have hcond : ¬ (h.refs = 1 ∧ h.inCache = true) := fun hand => hne hand.1
  obtain ⟨cells, hcells⟩ : ∃ cells, cells = Function.update s.cache.cells (.handle 0)
    (some { h with refs := h.refs + 1 }) := ⟨_, rfl⟩
  refine ⟨⟨{ s.cache with cells }, Session.giveOut s.outstanding (some (.handle 0))⟩, ?_,
    ⟨hlookup, ?_, { h with refs := h.refs + 1 }, ?_, hc, ?_⟩, ?_⟩
  · simp only [Session.exec, Session.execWith, LRUCache.lookup, hlookup', Cells.ref,
      deref_some hcell, ok_bind, if_neg hcond, modify_some hcell, hcells]
  · simp only [Session.giveOut, Function.update_self, hout]
    omega
  · simp only [hcells, Function.update_self]
  · rw [hrefs, ← UInt32.toNat_inj]
    simp [Nat.add_assoc]
  · obtain ⟨hhead, hnext, hprev⟩ := hlinks
    obtain ⟨hn, hp⟩ := links_update hcell { h with refs := h.refs + 1 } rfl rfl
    refine ⟨by simpa [hcells] using hhead, ?_, ?_⟩
    · simp only [hcells, hn, hnext]
    · simp only [hcells, hp, hprev]

/-- A client can hold the entry as often as it likes. -/
theorem exists_pinned (j : ℕ) (hj : j < 2 ^ 32) :
    ∃ s, Run (Session.opened 1) Session.Enabled Session.exec
        (.insert emptyKey 0 0 0 0 :: List.replicate j (.lookup emptyKey)) s ∧
      Pinned s j ∧ InUse s := by
  induction j with
  | zero =>
    -- the first reference is the one `Insert` returned
    exact ⟨_, (RunWithin.init trivial).step (i := Call.insert emptyKey 0 0 0 0) trivial rfl trivial,
      ⟨rfl, rfl, _, rfl, rfl, rfl⟩, ⟨_, rfl⟩, rfl, rfl⟩
  | succ j ih =>
    obtain ⟨s, hs, hp, hlinks⟩ := ih (by omega)
    obtain ⟨s', hok, hp', hlinks'⟩ := hp.exec hlinks (by omega)
    refine ⟨s', ?_, hp', hlinks'⟩
    rw [List.replicate_succ', ← List.cons_append]
    exact hs.step (i := Call.lookup emptyKey) trivial hok trivial

/-- When the count of the entry has wrapped around to one, `Erase` calls its deleter and frees
it. -/
theorem Pinned.eraseWith {s : Session} {j : ℕ} (hs : Pinned s j) (hlinks : InUse s)
    (hj : (2 + j) % 2 ^ 32 = 1) :
    ∃ c c' : LRUCache, c'.cells (.handle 0) = none ∧ ∀ onDelete : Deleter,
      s.cache.eraseWith onDelete emptyKey = (onDelete c (.handle 0) >>= fun _ => .ok c') := by
  obtain ⟨hlookup, -, h, hcell, hc, hrefs⟩ := hs
  obtain ⟨⟨list, hhead⟩, hnext, hprev⟩ := hlinks
  rw [next_eq hcell] at hnext
  rw [prev_eq hcell] at hprev
  have hone : h.refs = 1 := by
    rw [hrefs, ← UInt32.toNat_inj, UInt32.toNat_ofNat']
    exact hj
  have hlookup' : s.cache.table.lookup emptyKey.data = some (.handle 0) := hlookup
  obtain ⟨cells₁, hcells₁⟩ : ∃ cells₁, cells₁ = Function.update s.cache.cells (.head .inUse)
    (some { list with prev := some (.head .inUse), next := some (.head .inUse) }) := ⟨_, rfl⟩
  have hrem : s.cache.cells.lruRemove (.handle 0) = .ok cells₁ := by
    simp [lruRemove, deref, Cells.modify, hcell, hhead, hnext, hprev, hcells₁]
  have hcell₁ : cells₁ (.handle 0) = some h := by simp [hcells₁, hcell]
  -- outside the cache, and then without a reference
  obtain ⟨h₁, hh₁⟩ : ∃ h₁, h₁ = { h with inCache := false } := ⟨_, rfl⟩
  obtain ⟨h₂, hh₂⟩ : ∃ h₂, h₂ = { h₁ with refs := h₁.refs - 1 } := ⟨_, rfl⟩
  have hpos : 0 < h₁.refs := by
    rw [hh₁, hone]
    decide
  have hrefs₂ : h₂.refs = 0 := by
    rw [hh₂, hh₁, hone]
    rfl
  have hc₂ : h₂.inCache = false := by rw [hh₂, hh₁]
  have hkey : Cells.key (Function.update cells₁ (.handle 0) (some h₂)) (.handle 0) =
      .ok h₂.key := by
    have hself : h₂.next ≠ some (.handle 0) := by simp [hh₂, hh₁, hnext]
    simp only [Cells.key, deref_some (Function.update_self _ _ _), ok_bind, assert_of hself]
  refine ⟨{ s.cache with
      cells := Function.update cells₁ (.handle 0) (some h₂)
      usage := s.cache.usage - h₁.charge
      table := s.cache.table.erase emptyKey.data }, { s.cache with
      cells := Function.update cells₁ (.handle 0) none
      usage := s.cache.usage - h₁.charge
      table := s.cache.table.erase emptyKey.data
      deleted := s.cache.deleted ++ [deletion h₂.lruEntry] },
    by simp only [Function.update_self], fun onDelete => ?_⟩
  simp only [LRUCache.eraseWith, LRUCache.tableRemove, hlookup', finishEraseWith, deref_some hcell,
    ok_bind, hc, assert_true, hrem, modify_some hcell₁, ← hh₁,
    deref_some (Function.update_self _ _ _), unrefWith, assert_of hpos,
    modify_some (Function.update_self _ _ _), Function.update_idem, ← hh₂, settleWith,
    if_pos hrefs₂, hc₂, Bool.not_false, hkey]
  rcases onDelete _ _ with _ | _ <;> rfl

/-- After an `Insert` and `2 ^ 32 - 2` calls of `Lookup` the count of the entry is zero. -/
theorem not_repInvariant_of_reachable :
    ¬ ∀ s, Reachable Session.start Session.Enabled Session.exec s → RepInvariant s := by
  intro hall
  obtain ⟨s, hs, ⟨-, hout, h, hcell, hc, hrefs⟩, -⟩ := exists_pinned (2 ^ 32 - 2) (by omega)
  have hrun : Run Session.start Session.Enabled Session.exec _ s :=
    hs.cons (i := Call.setCapacity 1) trivial trivial rfl
  obtain ⟨⟨lists, hr⟩, -⟩ := hall s hrun.reachable
  have hcount := hr.refs 0 h hcell
  have hzero : h.refs.toNat = 0 := by
    rw [hrefs]
    rfl
  rw [hc, if_pos rfl, hout, hzero] at hcount
  omega

end LRUCache

end TinyLeveldb
