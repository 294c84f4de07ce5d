import TinyLeveldb.Cache.Operations

/-!
# The calls refine those of the map

`Insert`, `Lookup`, `Release`, `Erase` and `Prune` complete from a cache that implements a map,
and do to the cache what the request does to the map.
-/

namespace TinyLeveldb

open Library Cells

namespace LRUCache

variable {c : LRUCache} {out : ℕ → ℕ} {lists : Side → List ℕ} {m : EntryMap} {x : Option ℕ}
  {n : ℕ} {h : LRUHandle}

/-! ### `Insert` -/

/-- The next allocation is not in use. -/
theorem Inv.entry_fresh {x : Pointer Addr} (hi : Inv x c out lists) :
    c.cells.entry c.fresh = none := by
  by_contra hne
  obtain ⟨h, he⟩ := Option.ne_none_iff_exists'.mp hne
  exact (hi.lt_fresh he).false

theorem Inv.fresh_notMem {x : Pointer Addr} (hi : Inv x c out lists) (side : Side) :
    c.fresh ∉ lists side := fun hmem => by
  obtain ⟨h, he, -⟩ := hi.mem_lists.mp hmem
  simp [hi.entry_fresh] at he

/-- Allocating a handle without links leaves the lists as they are. -/
theorem Inv.alloc {x : Pointer Addr} (hi : Inv x c out lists) (hnext : h.next = none)
    (hprev : h.prev = none) :
    Cells.entry (Function.update c.cells (.handle c.fresh) (some h)) =
        Function.update c.cells.entry c.fresh (some h) ∧
      Linked (Function.update c.cells (.handle c.fresh) (some h)) lists := by
  refine ⟨?_, hi.linked.update_detached hi.fresh_notMem (by simp [hnext])⟩
  rw [entry_update, Option.map_some, LRUHandle.unlinked_eq_self hnext hprev]

/-- The entries after a handle was allocated. -/
theorem Refines.entries_alloc (hr : Refines x c lists m) {c' : LRUCache} {h' : LRUHandle}
    (hentry : c'.cells.entry = Function.update c.cells.entry c.fresh (some h'))
    (hh' : h'.lruEntry = h.lruEntry) {i : ℕ} {hᵢ : LRUHandle} (hi : c'.cells.entry i = some hᵢ) :
    (m.create h.lruEntry).entries[i]? = some hᵢ.lruEntry := by
  change (m.entries ++ [h.lruEntry])[i]? = _
  by_cases hin : i = c.fresh
  · rw [hin, hentry, Function.update_self] at hi
    obtain rfl := Option.some.inj hi
    rw [hin, ← hr.length_entries, List.getElem?_concat_length, hh']
  · rw [hentry, Function.update_of_ne hin] at hi
    have hlt : i < m.entries.length := hr.length_entries ▸ hr.inv.lt_fresh hi
    rw [List.getElem?_append_left hlt]
    exact hr.entries hi

/-- Before `table_.Insert` the new handle is cached and on `in_use_`, but the table does not have
it. -/
theorem Inv.cacheNew (hi : Inv none c out lists) (hnext : h.next = none) (hprev : h.prev = none)
    (hrefs : h.refs = 1) :
    ∃ cells₁ cells₂,
      Cells.modify (Function.update c.cells (.handle c.fresh) (some h)) (some (.handle c.fresh))
          (fun h => { h with refs := h.refs + 1, inCache := true }) = .ok cells₁ ∧
        cells₁.lruAppend .inUse (.handle c.fresh) = .ok cells₂ ∧
        cells₂.entry = Function.update c.cells.entry c.fresh
          (some { h with refs := h.refs + 1, inCache := true }) ∧
        Inv (some (.handle c.fresh))
          { c with cells := cells₂, fresh := c.fresh + 1, usage := c.usage + h.charge }
          (Function.update out c.fresh 1)
          (Function.update lists .inUse (lists .inUse ++ [c.fresh])) := by
  have hnone : c.cells.entry c.fresh = none := hi.entry_fresh
  have hout : ∀ side, c.fresh ∉ lists side := hi.fresh_notMem
  obtain ⟨hent₀, hl₀⟩ := hi.alloc hnext hprev
  obtain ⟨cells₁, hmod, hent₁, hl₁⟩ := hl₀.modify (n := c.fresh) (h := h)
    (by rw [hent₀, Function.update_self])
    (f := fun h => { h with refs := h.refs + 1, inCache := true }) fun _ => rfl
  have he₁ : cells₁.entry c.fresh = some { h with refs := h.refs + 1, inCache := true } := by
    rw [hent₁, Function.update_self]
  obtain ⟨cells₂, happ, hent₂, hl₂⟩ := hl₁.lruAppend (live_of_entry he₁) hout .inUse
  have htwo : h.refs + 1 = 2 := by
    rw [hrefs]
    rfl
  have hentry : cells₂.entry = Function.update c.cells.entry c.fresh
      (some { h with refs := h.refs + 1, inCache := true }) := by
    rw [hent₂, hent₁, hent₀, Function.update_idem]
  refine ⟨cells₁, cells₂, hmod, happ, hentry, ?_⟩
  refine hi.update hl₂ hentry (by simp) (by simp) rfl (fun side m hm => ?_)
    (fun side => ?_) (fun a ha => ?_) (fun k => ?_) (fun h' hh' => ?_) (by simp)
    (fun m hm => Function.update_of_ne hm _ _) ?_
  · rw [mem_append_iff]
    simp [hm]
  · rw [mem_append_iff]
    simp only [hout side, false_or, true_and, Option.some.injEq, exists_eq_left',
      LRUHandle.side, htwo]
    exact eq_comm
  · exact iff_of_false (by simpa using fun heq => ha heq.symm) (by simp)
  · exact iff_of_false (by simp) (by simp [hnone])
  · obtain rfl := Option.some.inj hh'
    rw [Function.update_self, htwo]
    rfl
  · have hsum : cachedCharge
        { c with cells := cells₂, fresh := c.fresh + 1, usage := c.usage + h.charge } =
          c.cachedCharge +
            LRUHandle.charged (some { h with refs := h.refs + 1, inCache := true }) :=
      cachedCharge_alloc hentry rfl
    have hcv : LRUHandle.charged (some { h with refs := h.refs + 1, inCache := true }) =
        h.charge.toNat := rfl
    have husage := hi.usage
    rw [hsum, hcv, UInt64.toNat_add]
    omega

/-- A new handle of a cache with capacity is cached at once, held by its client, and displaces
what was under its key. -/
theorem Refines.enter (hr : Refines none c lists m) (hcap : 0 < c.capacity)
    (hnext : h.next = none) (hprev : h.prev = none) (hrefs : h.refs = 1) :
    ∃ c' lists',
      Completes (m.create h.lruEntry).held
        (enterWith · { c with cells := Function.update c.cells (.handle c.fresh) (some h),
                              fresh := c.fresh + 1 } (.handle c.fresh) h.charge) c' ∧
        Refines none c' lists' (m.enter h.lruEntry) := by
  have hlen := hr.length_entries
  obtain ⟨cells₁, cells₂, hmod, happ, hentry, hi₂⟩ := hr.inv.cacheNew hnext hprev hrefs
  obtain ⟨c₂, hc₂⟩ : ∃ c₂ : LRUCache, c₂ = { c with
      cells := cells₂, fresh := c.fresh + 1, usage := c.usage + h.charge } := ⟨_, rfl⟩
  rw [← hc₂] at hi₂
  have hent₂ : c₂.cells.entry = Function.update c.cells.entry c.fresh
      (some { h with refs := h.refs + 1, inCache := true }) := by rw [hc₂, hentry]
  -- now it is the displaced handle that the table does not have
  obtain ⟨hins, hi₃⟩ := hi₂.tableInsert (h := { h with refs := h.refs + 1, inCache := true })
    (by rw [hent₂, Function.update_self]) rfl
  have hold : c₂.table.lookup h.key = (m.table h.key).map .handle := by rw [hc₂, hr.table]
  rw [hold] at hins hi₃
  have hr₃ : Refines (m.table h.key) { c₂ with table := c₂.table.insert h.key (.handle c.fresh) }
      (Function.update lists .inUse (lists .inUse ++ [c.fresh]))
      { m.create h.lruEntry with
        usage := m.usage + h.charge
        table := Function.update m.table h.key (some m.entries.length)
        log := m.log ++ [.inserted h.key m.entries.length] } := by
    refine ⟨?_, ?_, ?_, fun k => ?_, ?_, ?_, fun hi => ?_, ?_⟩
    · simpa only [PinnedLru.create, hlen] using hi₃
    · rw [hc₂]
      exact hr.capacity
    · rw [hc₂]
      exact congrArg (· + h.charge) hr.usage
    · by_cases hk : k = h.key
      · subst hk
        simp [hlen]
      · simp [hk, hc₂, hr.table]
    · rw [Function.update_of_ne (by simp)]
      exact hr.idle
    · simp [PinnedLru.create, hlen, hc₂]
    · exact hr.entries_alloc hent₂ rfl hi
    · rw [hc₂]
      exact hr.deleted
  obtain ⟨c₄, lists₄, hfin, hr₄⟩ := hr₃.finishErase_removed fun n hn => by
    obtain ⟨h', he', hc', -⟩ := hr.exists_of_table hn
    have hne : n ≠ c.fresh := (hr.inv.lt_fresh he').ne
    exact ⟨h', by simpa only [hent₂, Function.update_of_ne hne] using he', hc'⟩
  refine ⟨c₄, lists₄, fun onDelete haccepts => ?_, hr₄⟩
  have hfin' := hfin onDelete haccepts
  rw [hc₂] at hins hfin'
  simp only [enterWith, if_pos hcap, hmod, ok_bind, happ, hins, hfin']

/-- Without capacity a new handle stays outside the cache, for its one client. -/
theorem Refines.create (hr : Refines none c lists m) (hcap : ¬ 0 < c.capacity)
    (hnext : h.next = none) (hprev : h.prev = none) (hrefs : h.refs = 1)
    (hc : h.inCache = false) :
    ∃ c' lists',
      Completes (m.create h.lruEntry).held
        (enterWith · { c with cells := Function.update c.cells (.handle c.fresh) (some h),
                              fresh := c.fresh + 1 } (.handle c.fresh) h.charge) c' ∧
        Refines none c' lists' (m.create h.lruEntry) := by
  have hi := hr.inv
  have hself : { h with next := none } = h := by rw [← hnext]
  have hnone : c.cells.entry c.fresh = none := hi.entry_fresh
  have hout : ∀ side, c.fresh ∉ lists side := hi.fresh_notMem
  have hlen := hr.length_entries
  obtain ⟨hent₀, hl₀⟩ := hi.alloc hnext hprev
  refine ⟨{ c with cells := Function.update c.cells (.handle c.fresh) (some h),
                   fresh := c.fresh + 1 }, lists, fun onDelete _ => ?_, ?_⟩
  · simp only [enterWith, if_neg hcap, modify_some (Function.update_self _ _ _),
      Function.update_idem, hself, ok_bind]
  · refine ⟨?_, hr.capacity, hr.usage, hr.table, hr.idle, ?_, fun hi => ?_, hr.deleted⟩
    · rw [PinnedLru.create, hlen]
      refine hi.update hl₀ hent₀ (by simp) (by simp) rfl (fun _ _ _ => Iff.rfl)
        (fun side => ?_) (fun a _ => Iff.rfl) (fun k => ?_) (fun h' hh' => ?_) (by simp)
        (fun m hm => Function.update_of_ne hm _ _) ?_
      · exact iff_of_false (hout side) (by simp [hc])
      · exact iff_of_false (by simp [hc]) (by simp [hnone])
      · obtain rfl := Option.some.inj hh'
        simp only [Function.update_self, hrefs, hc]
        rfl
      · rw [cachedCharge_alloc hent₀ rfl, LRUHandle.charged, hc]
        exact hi.usage
    · simp [PinnedLru.create, hlen]
    · exact hr.entries_alloc hent₀ rfl hi

/-- Before the loop of `Insert` the new handle is cached, if there is any capacity. -/
theorem Refines.enterNew (hr : Refines none c lists m) (key : Slice) (hash : UInt32) (value : ℕ)
    (charge : UInt64) (deleter : ℕ) :
    ∃ c' lists',
      Completes m.held
        (enterWith · { c with
          cells := Function.update c.cells (.handle c.fresh)
            (some (newHandle key hash value charge deleter))
          fresh := c.fresh + 1 } (.handle c.fresh) charge) c' ∧
        Refines none c' lists'
          (if 0 < m.capacity then m.enter { key := key.data, value := (value, deleter), charge }
            else m.create { key := key.data, value := (value, deleter), charge }) := by
  obtain ⟨h, hh⟩ : ∃ h, h = newHandle key hash value charge deleter := ⟨_, rfl⟩
  have hentry : { key := key.data, value := (value, deleter), charge } = h.lruEntry := by
    rw [hh]
    rfl
  have hcharge : charge = h.charge := by
    rw [hh]
    rfl
  have hzero : m.held c.fresh = 0 := hr.inv.released hr.inv.entry_fresh
  -- the deleters run before a client holds the new handle
  have hmono : ∀ n, (m.create h.lruEntry).held n = 0 → m.held n = 0 := by
    intro n hn
    by_cases hnf : n = c.fresh
    · exact hnf ▸ hzero
    · simpa [PinnedLru.create, hr.length_entries, hnf] using hn
  rw [← hh, hentry, hcharge, hr.capacity]
  by_cases hcap : 0 < c.capacity
  · obtain ⟨c', lists', hok, hr'⟩ :=
      hr.enter hcap (h := h) (by rw [hh]; rfl) (by rw [hh]; rfl) (by rw [hh]; rfl)
    rw [if_pos hcap]
    exact ⟨c', lists', fun onDelete haccepts => hok onDelete (haccepts.mono hmono), hr'⟩
  · obtain ⟨c', lists', hok, hr'⟩ := hr.create hcap (h := h) (by rw [hh]; rfl) (by rw [hh]; rfl)
      (by rw [hh]; rfl) (by rw [hh]; rfl)
    rw [if_neg hcap]
    exact ⟨c', lists', fun onDelete haccepts => hok onDelete (haccepts.mono hmono), hr'⟩

/-- `Insert` completes with a new handle for its client. -/
theorem Refines.insert (hr : Refines none c lists m) (key : Slice) (hash : UInt32) (value : ℕ)
    (charge : UInt64) (deleter : ℕ) :
    ∃ c' lists',
      Completes m.held (c.insertWith · key hash value charge deleter) (.handle c.fresh, c') ∧
        Refines none c' lists'
          (m.insert { key := key.data, value := (value, deleter), charge }) := by
  obtain ⟨c₁, lists₁, hok₁, hr₁⟩ := hr.enterNew key hash value charge deleter
  obtain ⟨m₁, hm₁⟩ : ∃ m₁ : EntryMap, m₁ =
      if 0 < m.capacity then m.enter { key := key.data, value := (value, deleter), charge }
        else m.create { key := key.data, value := (value, deleter), charge } := ⟨_, rfl⟩
  rw [← hm₁] at hr₁
  have hheld₁ : m₁.held = Function.update m.held c.fresh 1 := by
    rw [hm₁, ← hr.length_entries]
    split <;> simp [PinnedLru.enter, PinnedLru.create]
  have hmono : ∀ n, m₁.held n = 0 → m.held n = 0 := by
    intro n hn
    rw [hheld₁, Function.update_apply] at hn
    split at hn
    · cases hn
    · exact hn
  obtain ⟨c₂, lists₂, hok₂, hr₂⟩ := hr₁.evictWhile
    (fun c => decide (c.capacity < c.usage)) (fun m => decide (m.capacity < m.usage))
    (fun hr => by rw [hr.capacity, hr.usage]) (Nat.lt_succ_of_le hr₁.length_idle_le)
  refine ⟨c₂, lists₂, fun onDelete haccepts => ?_, ?_⟩
  · simp only [insertWith, hok₁ onDelete haccepts, ok_bind,
      hok₂ onDelete (haccepts.mono hmono)]
  · rw [PinnedLru.insert, ← hm₁]
    exact hr₂

/-! ### The other calls -/

/-- `Ref` on a cached handle counts the new reference and moves the handle to `in_use_`. -/
theorem Inv.ref (hi : Inv none c out lists) (he : c.cells.entry n = some h)
    (hc : h.inCache = true) :
    ∃ cells' lists', c.cells.ref (.handle n) = .ok cells' ∧
      cells'.entry = Function.update c.cells.entry n (some { h with refs := h.refs + 1 }) ∧
      Linked cells' lists' ∧
      (∀ side m, m ∈ lists' side ↔ m ∈ lists side ∧ m ≠ n ∨ m = n ∧ side = .inUse) ∧
      lists' .lru = (lists .lru).erase n := by
  obtain ⟨h', hd, hu⟩ := deref_of_entry he
  have hrefs' : h'.refs = h.refs := by rw [← h'.unlinked_refs, hu]
  have hc' : h'.inCache = true := by rw [← h'.unlinked_inCache, hu, hc]
  have hn : n ∈ lists h.side := hi.mem_lists.mpr ⟨h, he, hc, rfl⟩
  by_cases hone : h.refs = 1
  · -- its first client: from `lru_` to `in_use_`
    rw [LRUHandle.side, if_pos hone] at hn
    obtain ⟨cells₁, hrem, hent₁, hl₁⟩ := hi.linked.lruRemove hn
    have hn₁ : ∀ side, n ∉ Function.update lists .lru ((lists .lru).erase n) side :=
      fun side hmem => ((hi.linked.mem_erase_iff hn).mp hmem).2 rfl
    obtain ⟨cells₂, happ, hent₂, hl₂⟩ :=
      hl₁.lruAppend (live_of_entry (hent₁ ▸ he)) hn₁ .inUse
    obtain ⟨cells₃, hmod, hent₃, hl₃⟩ := hl₂.modify (by rw [hent₂, hent₁, he])
      (f := fun h => { h with refs := h.refs + 1 }) fun _ => rfl
    refine ⟨cells₃, _, ?_, by rw [hent₃, hent₂, hent₁], hl₃, fun side m => ?_, ?_⟩
    · simp only [Cells.ref, hd, ok_bind, hrefs', hone, hc', and_self, if_true, hrem, happ, hmod]
    · rw [mem_append_iff, hi.linked.mem_erase_iff hn]
    · rw [Function.update_of_ne (by simp), Function.update_self]
  · -- it is on `in_use_` already
    rw [LRUHandle.side, if_neg hone] at hn
    obtain ⟨cells₁, hmod, hent₁, hl₁⟩ := hi.linked.modify he
      (f := fun h => { h with refs := h.refs + 1 }) fun _ => rfl
    refine ⟨cells₁, lists, ?_, hent₁, hl₁, fun side m => ?_, ?_⟩
    · have hcond : ¬ (h'.refs = 1 ∧ h'.inCache = true) := fun hcond => hone (hrefs' ▸ hcond.1)
      simp only [Cells.ref, hd, ok_bind, if_neg hcond, hmod]
    · exact hi.linked.mem_iff_of_mem hn
    · exact (List.erase_of_not_mem fun hmem => hi.linked.disjoint n hmem hn).symm

/-- `Lookup` returns what the map has under the key. As long as the reference count of the handle
does not wrap around, it pins it. -/
theorem Refines.lookup (hr : Refines none c lists m) (key : Slice) :
    ∃ c', c.lookup key = .ok ((m.table key.data).map .handle, c') ∧
      ((∀ n, (m.lookup key.data).held n + 1 < 2 ^ 32) →
        ∃ lists', Refines none c' lists' (m.lookup key.data)) := by
  have hlookup := hr.table key.data
  rcases htable : m.table key.data with _ | n
  · rw [htable] at hlookup
    refine ⟨c, by simp only [LRUCache.lookup, hlookup, Option.map_none], fun _ => ⟨lists, ?_⟩⟩
    rwa [PinnedLru.lookup, htable]
  · rw [htable, Option.map_some] at hlookup
    obtain ⟨h, he, hc, -⟩ := hr.exists_of_table htable
    obtain ⟨cells', lists', href, hent, hl, hmem, hlru⟩ := hr.inv.ref he hc
    obtain ⟨c', hc'⟩ : ∃ c' : LRUCache, c' = { c with cells := cells' } := ⟨_, rfl⟩
    have hent' : c'.cells.entry =
        Function.update c.cells.entry n (some { h with refs := h.refs + 1 }) := by rwa [hc']
    refine ⟨c', ?_, fun hfits => ⟨lists', ?_⟩⟩
    · simp only [LRUCache.lookup, hlookup, href, ok_bind, hc', Option.map_some]
    · have hpin : m.lookup key.data = { m with
          held := Function.update m.held n (m.held n + 1), idle := m.idle.erase n } := by
        rw [PinnedLru.lookup, htable]
      rw [hpin] at hfits ⊢
      have hfit := hfits n
      simp only [Function.update_self] at hfit
      have hrefs : h.refs.toNat = m.held n + 1 := by rw [hr.inv.refs he, hc, Bool.toNat_true]
      have hadd : (h.refs + 1).toNat = m.held n + 2 := by
        rw [UInt32.toNat_add, hrefs]
        exact Nat.mod_eq_of_lt (by change m.held n + 1 + 1 < 2 ^ 32; omega)
      have hside : ({ h with refs := h.refs + 1 } : LRUHandle).side = .inUse := by
        exact LRUHandle.side_of_two_le (h := { h with refs := h.refs + 1 }) (by
          simp only [hadd]
          omega)
      have hframe : Frame c c' := by
        rw [hc']
        exact ⟨rfl, rfl, rfl, rfl⟩
      have hrecount := hr.recount he hc hent' (by rwa [hc']) hframe (by rw [hc'])
        (fun side m => by rw [hmem, hside]) hadd
      rwa [hlru, hr.idle] at hrecount

/-- A handle that a client holds is allocated. -/
theorem Inv.exists_of_held {x : Pointer Addr} (hi : Inv x c out lists) (hn : out n ≠ 0) :
    ∃ h, c.cells.entry n = some h := by
  by_contra hne
  exact hn (hi.released (Option.eq_none_iff_forall_ne_some.mpr (not_exists.mp hne)))

/-- `Release` of a handle outside the cache: the last client frees it. -/
theorem Refines.release_uncached (hr : Refines none c lists m) (he : c.cells.entry n = some h)
    (hc : h.inCache = false) (hheld : m.held n ≠ 0) :
    ∃ c', Completes (Function.update m.held n (m.held n - 1)) (c.releaseWith · (.handle n)) c' ∧
      Refines none c' lists
        (PinnedLru.giveUp { m with held := Function.update m.held n (m.held n - 1) } n) := by
  have hi := hr.inv
  have hrefs := hi.refs he
  rw [hc, Bool.toNat_false] at hrefs
  have hn : ∀ side, n ∉ lists side := fun side hmem => by
    obtain ⟨h', he', hc', -⟩ := hi.mem_lists.mp hmem
    obtain rfl := Option.some.inj (he.symm.trans he')
    simp [hc] at hc'
  have ht : ∀ k, c.table.lookup k ≠ some (.handle n) := fun k hk => by
    obtain ⟨i, h', hni, he', hc', -⟩ := hi.exists_of_lookup hk
    obtain rfl : n = i := by simpa using hni
    obtain rfl := Option.some.inj (he.symm.trans he')
    simp [hc] at hc'
  obtain ⟨c₁, hunref, hent₁, hl₁, hf₁, hdel₁⟩ := unrefWith_eq hi.linked he (by omega)
  have he₁ : c₁.cells.entry n = some { h with refs := h.refs - 1 } := by
    rw [hent₁, Function.update_self]
  have hcount : (h.refs - 1).toNat = Function.update m.held n (m.held n - 1) n := by
    rw [Function.update_self, toNat_sub_one (by omega)]
    omega
  obtain ⟨c₂, hsettle, hent₂, hl₂, hf₂, hdel₂⟩ :=
    settleWith_uncached hl₁ he₁ hc hn (by rwa [hf₁.table]) hcount
  rw [hent₁, Function.update_idem] at hent₂
  rw [Function.update_self] at hent₂ hdel₂ hcount
  have hf := hf₁.trans hf₂
  refine ⟨c₂, fun onDelete haccepts => ?_, ?_⟩
  · simp only [releaseWith, hunref, hsettle onDelete haccepts]
  · have hgive := hr.giveUp he (by simp [hc]) hent₂ ⟨rfl, hc, hcount⟩ hl₂ hf.capacity hf.fresh
      hf.table (by simp [hc, hf.usage])
      (fun side m => ⟨fun hm => ⟨hm, ne_of_mem_of_not_mem hm (hn side)⟩, And.left⟩)
      (by rw [hdel₂, hdel₁])
    rwa [hr.idle, hf.usage, ← hr.usage] at hgive

/-- `Release` of a cached handle: the last client sends it back to `lru_`. -/
theorem Refines.release_cached (hr : Refines none c lists m) (he : c.cells.entry n = some h)
    (hc : h.inCache = true) (hheld : m.held n ≠ 0) :
    ∃ c' lists',
      Completes (Function.update m.held n (m.held n - 1)) (c.releaseWith · (.handle n)) c' ∧
        Refines none c' lists' { m with
          held := Function.update m.held n (m.held n - 1)
          idle := if m.held n - 1 = 0 then m.idle ++ [n] else m.idle } := by
  have hi := hr.inv
  have hrefs := hi.refs he
  rw [hc, Bool.toNat_true] at hrefs
  have hn : n ∈ lists .inUse :=
    hi.mem_lists.mpr ⟨h, he, hc, LRUHandle.side_of_two_le (by omega)⟩
  obtain ⟨c₁, hunref, hent₁, hl₁, hf₁, hdel₁⟩ := unrefWith_eq hi.linked he (by omega)
  have he₁ : c₁.cells.entry n = some { h with refs := h.refs - 1 } := by
    rw [hent₁, Function.update_self]
  have hsub : (h.refs - 1).toNat = m.held n := by
    rw [toNat_sub_one (by omega)]
    omega
  have hne : h.refs - 1 ≠ 0 := ne_of_apply_ne UInt32.toNat (by rwa [hsub])
  have hone : h.refs - 1 = 1 ↔ m.held n - 1 = 0 := by
    rw [← UInt32.toNat_inj, hsub]
    change m.held n = 1 ↔ _
    omega
  obtain ⟨c₂, lists₂, hsettle, hent₂, hl₂, hf₂, hdel₂, hlists, hlru⟩ :=
    settleWith_cached hl₁ he₁ hne hc hn
  have hrecount := hr.recount (k := m.held n - 1) he hc (hent₂.trans hent₁) hl₂ (hf₁.trans hf₂)
    (hdel₂.trans hdel₁) hlists (by omega)
  refine ⟨c₂, lists₂, fun onDelete _ => ?_, ?_⟩
  · simp only [releaseWith, hunref, hsettle]
  · simpa only [hlru, hr.idle, hone] using hrecount

/-- `Release` of a handle that a client holds. -/
theorem Refines.release (hr : Refines none c lists m) (hheld : m.held n ≠ 0) :
    ∃ c' lists',
      Completes (Function.update m.held n (m.held n - 1)) (c.releaseWith · (.handle n)) c' ∧
        Refines none c' lists' (m.release n) := by
  obtain ⟨h, he⟩ := hr.inv.exists_of_held hheld
  have hcached : PinnedLru.cached
      { m with held := Function.update m.held n (m.held n - 1) } n = h.inCache :=
    (PinnedLru.cached_congr rfl rfl).trans (hr.cached_eq he (by simp))
  rw [PinnedLru.release]
  simp only [hcached, Function.update_self]
  rcases hc : h.inCache with _ | _
  · obtain ⟨c', hok, hr'⟩ := hr.release_uncached he hc hheld
    exact ⟨c', lists, hok, by simpa using hr'⟩
  · obtain ⟨c', lists', hok, hr'⟩ := hr.release_cached he hc hheld
    refine ⟨c', lists', hok, ?_⟩
    rw [if_pos rfl]
    -- whether or not it becomes idle
    split_ifs at hr' ⊢
    · exact hr'
    · exact hr'

/-- `Erase`. -/
theorem Refines.erase (hr : Refines none c lists m) (key : Slice) :
    ∃ c' lists', Completes m.held (c.eraseWith · key) c' ∧
      Refines none c' lists' (m.erase key.data) := by
  obtain ⟨c', lists', hok, hr'⟩ := (hr.tableRemove key.data
    (m.log ++ [.erased key.data])).finishErase_removed fun n hn => by
      obtain ⟨h, he, hc, -⟩ := hr.exists_of_table hn
      exact ⟨h, he, hc⟩
  refine ⟨c', lists', fun onDelete haccepts => ?_, hr'⟩
  have hok' := hok onDelete haccepts
  rw [← hr.table] at hok'
  simp only [eraseWith, LRUCache.tableRemove] at hok' ⊢
  rw [hok', ok_bind]

/-- `Prune`. -/
theorem Refines.prune (hr : Refines none c lists m) :
    ∃ c' lists', Completes m.held (c.pruneWith ·) c' ∧ Refines none c' lists' m.prune :=
  hr.evictWhile (fun _ => true) (fun _ => true) (fun _ => rfl) (Nat.lt_succ_of_le hr.length_idle_le)

/-- `SetCapacity`. -/
theorem Refines.setCapacity (hr : Refines none c lists m) (capacity : UInt64) :
    Refines none (c.setCapacity capacity) lists { m with capacity } :=
  ⟨{ hr.inv with }, rfl, hr.usage, hr.table, hr.idle, hr.length_entries, hr.entries, hr.deleted⟩

end LRUCache

end TinyLeveldb
