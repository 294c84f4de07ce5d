import TinyLeveldb.Cache.Refinement

/-!
# Dropping and evicting

One lemma for each function inside the cache: from a cache that implements a map it completes,
with every deleter that accepts unreachable handles nobody holds, and what it returns implements
the map after the corresponding operation. `Unref` is taken apart first, because its callers use
different branches of it.
-/

namespace TinyLeveldb

open Library Cells

namespace LRUCache

/-- Two caches with the same capacity, charge, table and allocations. -/
structure Frame (c c' : LRUCache) : Prop where
  capacity : c'.capacity = c.capacity
  usage : c'.usage = c.usage
  table : c'.table = c.table
  fresh : c'.fresh = c.fresh

variable {c : LRUCache} {out : ℕ → ℕ} {lists : Side → List ℕ} {m : EntryMap} {x : Option ℕ}
  {n : ℕ} {h : LRUHandle}

theorem Frame.trans {c c' c'' : LRUCache} (h : Frame c c') (h' : Frame c' c'') : Frame c c'' :=
  ⟨h'.capacity.trans h.capacity, h'.usage.trans h.usage, h'.table.trans h.table,
    h'.fresh.trans h.fresh⟩

/-! ### One handle changes -/

/-- **A cached handle is counted anew** and goes to the list of its new count. -/
theorem Inv.recount {c' : LRUCache} {lists' : Side → List ℕ} {r : UInt32} {k : ℕ}
    (hi : Inv none c out lists) (he : c.cells.entry n = some h) (hc : h.inCache = true)
    (hentry : c'.cells.entry = Function.update c.cells.entry n (some { h with refs := r }))
    (hl : Linked c'.cells lists') (hf : Frame c c')
    (hmem : ∀ side m, m ∈ lists' side ↔
      m ∈ lists side ∧ m ≠ n ∨ m = n ∧ side = ({ h with refs := r } : LRUHandle).side)
    (hr : r.toNat = k + 1) : Inv none c' (Function.update out n k) lists' := by
  refine hi.update hl hentry hf.fresh.ge (hf.fresh ▸ hi.lt_fresh he) hf.table
    (fun side m hm => ?_) (fun side => ?_) (fun _ _ => Iff.rfl) (fun key => ?_)
    (fun h' hh' => ?_) (by simp) (fun m hm => Function.update_of_ne hm _ _) ?_
  · rw [hmem]
    simp [hm]
  · rw [hmem]
    simp only [ne_eq, not_true_eq_false, and_false, true_and, false_or, Option.some.injEq,
      exists_eq_left', hc]
    exact eq_comm
  · simp [he, hc]
  · cases hh'
    rw [Function.update_self]
    simp only [hr, hc, Bool.toNat_true]
  · have hsum := cachedCharge_update hentry hf.fresh (hi.lt_fresh he)
    simp only [he, LRUHandle.charged] at hsum
    rw [hf.usage, Nat.add_right_cancel hsum]
    exact hi.usage

/-- **A handle is outside the cache**, or freed, after the change; the table does not have
it. -/
theorem Inv.uncache {c' : LRUCache} {lists' : Side → List ℕ} {x : Pointer Addr}
    {v : Option LRUHandle} {k : ℕ} (hi : Inv x c out lists) (he : c.cells.entry n = some h)
    (hx : x = if h.inCache then some (.handle n) else none)
    (hentry : c'.cells.entry = Function.update c.cells.entry n v)
    (hl : Linked c'.cells lists') (hfresh : c'.fresh = c.fresh) (htable : c'.table = c.table)
    (hlists : ∀ side m, m ∈ lists' side ↔ m ∈ lists side ∧ m ≠ n)
    (hv : ∀ h', v = some h' → h'.inCache = false ∧ h'.refs.toNat = k) (hnone : v = none → k = 0)
    (husage : c'.usage = if h.inCache then c.usage - h.charge else c.usage) :
    Inv none c' (Function.update out n k) lists' := by
  have hnc : ∀ h', v = some h' → h'.inCache ≠ true := fun h' hh' => by simp [(hv h' hh').1]
  refine hi.update hl hentry hfresh.ge (hfresh ▸ hi.lt_fresh he) htable
    (fun side m hm => ?_) (fun side => ?_) (fun a ha => ?_) (fun key => ?_) (fun h' hh' => ?_)
    (fun hvnone => ?_) (fun m hm => Function.update_of_ne hm _ _) ?_
  · rw [hlists, and_iff_left hm]
  · rw [hlists]
    exact iff_of_false (fun hmem => hmem.2 rfl) fun ⟨h', hh', hc', _⟩ => hnc h' hh' hc'
  · rw [hx]
    split_ifs
    · exact iff_of_false (by simp) (by simpa using ha.symm)
    · exact Iff.rfl
  · -- the handle is not what the table has under its key, before or after
    refine iff_of_false (fun ⟨⟨h', hh', hc', _⟩, _⟩ => hnc h' hh' hc') ?_
    rintro ⟨⟨h', hh', hc', -⟩, hne⟩
    rw [he] at hh'
    cases hh'
    exact hne (by rw [hx, if_pos hc'])
  · rw [Function.update_self, (hv h' hh').1, (hv h' hh').2]
    rfl
  · rw [Function.update_self, hnone hvnone]
  · have hsum := cachedCharge_update hentry hfresh (hi.lt_fresh he)
    have hcv : LRUHandle.charged v = 0 := by
      cases v with
      | none => rfl
      | some h' => simp [LRUHandle.charged, (hv h' rfl).1]
    have hlt := h.charge.toNat_lt
    have husage₀ := hi.usage
    rw [he, hcv, LRUHandle.charged] at hsum
    rw [husage]
    split_ifs at hsum ⊢
    · rw [UInt64.toNat_sub]
      omega
    · omega

/-- **The map after a cached handle is counted anew.** -/
theorem Refines.recount {c' : LRUCache} {lists' : Side → List ℕ} {r : UInt32} {k : ℕ}
    (hr : Refines none c lists m) (he : c.cells.entry n = some h) (hc : h.inCache = true)
    (hentry : c'.cells.entry = Function.update c.cells.entry n (some { h with refs := r }))
    (hl : Linked c'.cells lists') (hf : Frame c c') (hdeleted : c'.deleted = c.deleted)
    (hmem : ∀ side m, m ∈ lists' side ↔
      m ∈ lists side ∧ m ≠ n ∨ m = n ∧ side = ({ h with refs := r } : LRUHandle).side)
    (hr' : r.toNat = k + 1) :
    Refines none c' lists'
      { m with held := Function.update m.held n k, idle := lists' .lru } := by
  refine ⟨hr.inv.recount he hc hentry hl hf hmem hr', hr.capacity.trans hf.capacity.symm,
    hr.usage.trans hf.usage.symm, fun i => ?_, rfl, hr.length_entries.trans hf.fresh.symm,
    fun hi => ?_, hdeleted.trans hr.deleted⟩
  · rw [hf.table, hr.table]
  · refine hr.entries_update hentry (fun h' hh' => ?_) hi
    obtain rfl := Option.some.inj hh'
    exact (hr.entries he :)

/-- **The map after a handle left the cache**, or while it is outside: it is freed once no client
holds it. -/
theorem Refines.giveUp {c' : LRUCache} {lists' : Side → List ℕ} {h' : LRUHandle} {k : ℕ}
    (hr : Refines x c lists m) (he : c.cells.entry n = some h)
    (hx : x = if h.inCache then some n else none)
    (hentry : c'.cells.entry = Function.update c.cells.entry n (if k = 0 then none else some h'))
    (hh' : h'.lruEntry = h.lruEntry ∧ h'.inCache = false ∧ h'.refs.toNat = k)
    (hl : Linked c'.cells lists') (hcapacity : c'.capacity = c.capacity)
    (hfresh : c'.fresh = c.fresh) (htable : c'.table = c.table)
    (husage : c'.usage = if h.inCache then c.usage - h.charge else c.usage)
    (hlists : ∀ side m, m ∈ lists' side ↔ m ∈ lists side ∧ m ≠ n)
    (hdeleted : c'.deleted = if k = 0 then c.deleted ++ [deletion h'.lruEntry] else c.deleted) :
    Refines none c' lists' (PinnedLru.giveUp
      { m with held := Function.update m.held n k, idle := lists' .lru, usage := c'.usage } n) := by
  obtain ⟨hlru, hc', hk⟩ := hh'
  -- what is left of the handle, unless it is freed
  have hleft : ∀ h'', (if k = 0 then none else some h') = some h'' → h'' = h' := by
    intro h'' hsome
    split at hsome
    · cases hsome
    · exact (Option.some.inj hsome).symm
  have hinv : Inv none c' (Function.update m.held n k) lists' := by
    refine hr.inv.uncache he ?_ hentry hl hfresh htable hlists (fun h'' hsome => ?_)
      (fun hnone => ?_) husage
    · rw [hx]
      split <;> rfl
    · rw [hleft h'' hsome]
      exact ⟨hc', hk⟩
    · by_contra hne
      rw [if_neg hne] at hnone
      cases hnone
  have hgive := PinnedLru.giveUp_eq
    (m := { m with held := Function.update m.held n k, idle := lists' .lru, usage := c'.usage })
    (hr.entries he)
  simp only [Function.update_self] at hgive
  rw [hgive]
  refine ⟨hinv, hr.capacity.trans hcapacity.symm, rfl, fun i => ?_, rfl,
    hr.length_entries.trans hfresh.symm, fun hi => ?_, ?_⟩
  · rw [htable, hr.table]
  · refine hr.entries_update hentry (fun h'' hsome => ?_) hi
    rw [hleft h'' hsome, hlru]
    exact hr.entries he
  · rw [hdeleted, hr.deleted, hlru]
    split <;> simp

theorem toNat_sub_one {r : UInt32} (hr : 0 < r.toNat) : (r - 1).toNat = r.toNat - 1 := by
  rw [UInt32.toNat_sub_of_le]
  · rfl
  · exact UInt32.le_iff_toNat_le.mpr hr

/-! ### `Unref` -/

/-- `Unref` decrements the count and then looks at it. -/
theorem unrefWith_eq (hl : Linked c.cells lists) (he : c.cells.entry n = some h)
    (hpos : 0 < h.refs.toNat) :
    ∃ c', (∀ onDelete, c.unrefWith onDelete (.handle n) = c'.settleWith onDelete (.handle n)) ∧
      c'.cells.entry = Function.update c.cells.entry n (some { h with refs := h.refs - 1 }) ∧
      Linked c'.cells lists ∧ Frame c c' ∧ c'.deleted = c.deleted := by
  obtain ⟨h', hd, hu⟩ := deref_of_entry he
  obtain ⟨cells, hm, hentry, hl'⟩ := hl.modify he
    (f := fun h => { h with refs := h.refs - 1 }) fun _ => rfl
  refine ⟨{ c with cells }, fun onDelete => ?_, hentry, hl', ⟨rfl, rfl, rfl, rfl⟩, rfl⟩
  have hpos' : 0 < h'.refs := by
    rw [← h'.unlinked_refs, hu]
    exact UInt32.lt_iff_toNat_lt.mpr hpos
  simp only [unrefWith, hd, ok_bind, assert_of hpos', hm]

/-- A handle outside the cache is freed when its last client released it, and stays as it is
otherwise. Nothing leads to it when its deleter is called. -/
theorem settleWith_uncached (hl : Linked c.cells lists) (he : c.cells.entry n = some h)
    (hc : h.inCache = false) (hn : ∀ side, n ∉ lists side)
    (ht : ∀ k, c.table.lookup k ≠ some (.handle n)) (hrefs : h.refs.toNat = out n) :
    ∃ c', Completes out (c.settleWith · (.handle n)) c' ∧
      c'.cells.entry = Function.update c.cells.entry n (if out n = 0 then none else some h) ∧
      Linked c'.cells lists ∧ Frame c c' ∧
      c'.deleted = if out n = 0 then c.deleted ++ [deletion h.lruEntry] else c.deleted := by
  obtain ⟨h', hd, rfl⟩ := deref_of_entry he
  rw [LRUHandle.unlinked_inCache] at hc
  rw [LRUHandle.unlinked_refs] at hrefs
  have hzero : h'.refs = 0 ↔ out n = 0 := by
    rw [← UInt32.toNat_inj, hrefs]
    rfl
  by_cases hout : out n = 0
  · refine ⟨{ c with
      cells := Function.update c.cells (.handle n) none
      deleted := c.deleted ++ [{ deleter := h'.deleter, key := h'.key, value := h'.value }] },
      fun onDelete haccepts => ?_, ?_, ?_, ⟨rfl, rfl, rfl, rfl⟩, ?_⟩
    · have hok : onDelete c (.handle n) = .ok () := haccepts c n hout ⟨ht, hl.not_reachable hn⟩
      simp only [settleWith, hd, ok_bind, if_pos (hzero.mpr hout), hc, Bool.not_false, assert_true,
        hl.key_eq he, LRUHandle.unlinked_key, hok]
    · rw [if_pos hout]
      exact entry_update _ _ _
    · exact hl.update_detached hn (by simp)
    · rw [if_pos hout]
      rfl
  · refine ⟨c, fun onDelete _ => ?_, ?_, hl, ⟨rfl, rfl, rfl, rfl⟩, by rw [if_neg hout]⟩
    · simp only [settleWith, hd, ok_bind, if_neg (hzero.not.mpr hout), hc, Bool.false_eq_true,
        false_and, if_false]
    · rw [if_neg hout, ← he, Function.update_eq_self]

/-- A cached handle in use goes back to `lru_` when its count is one, and stays as it is
otherwise: it ends on the list of its new count. -/
theorem settleWith_cached (hl : Linked c.cells lists) (he : c.cells.entry n = some h)
    (hrefs : h.refs ≠ 0) (hc : h.inCache = true) (hn : n ∈ lists .inUse) :
    ∃ c' lists', (∀ onDelete, c.settleWith onDelete (.handle n) = .ok c') ∧
      c'.cells.entry = c.cells.entry ∧ Linked c'.cells lists' ∧ Frame c c' ∧
      c'.deleted = c.deleted ∧
      (∀ side m, m ∈ lists' side ↔ m ∈ lists side ∧ m ≠ n ∨ m = n ∧ side = h.side) ∧
      lists' .lru = if h.refs = 1 then lists .lru ++ [n] else lists .lru := by
  obtain ⟨h', hd, rfl⟩ := deref_of_entry he
  rw [LRUHandle.unlinked_inCache] at hc
  rw [LRUHandle.unlinked_refs] at hrefs
  by_cases hone : h'.refs = 1
  · obtain ⟨cells₁, hrem, hentry₁, hl₁⟩ := hl.lruRemove hn
    have hn₁ : ∀ side, n ∉ Function.update lists .inUse ((lists .inUse).erase n) side :=
      fun side hc => ((hl.mem_erase_iff hn).mp hc).2 rfl
    have hlive₁ : cells₁.Live (.handle n) := live_of_entry (hentry₁ ▸ he)
    obtain ⟨cells₂, happ, hentry₂, hl₂⟩ := hl₁.lruAppend hlive₁ hn₁ .lru
    refine ⟨{ c with cells := cells₂ }, _, fun onDelete => ?_, by rw [hentry₂, hentry₁], hl₂,
      ⟨rfl, rfl, rfl, rfl⟩, rfl, fun side m => ?_, ?_⟩
    · simp only [settleWith, hd, ok_bind, if_neg hrefs, if_pos (And.intro hc hone), hrem, happ]
    · rw [mem_append_iff, hl.mem_erase_iff hn, LRUHandle.side, LRUHandle.unlinked_refs,
        if_pos hone]
    · rw [LRUHandle.unlinked_refs, if_pos hone, Function.update_self,
        Function.update_of_ne (by simp)]
  · refine ⟨c, lists, fun onDelete => ?_, rfl, hl, ⟨rfl, rfl, rfl, rfl⟩, rfl, fun side m => ?_, ?_⟩
    · simp only [settleWith, hd, ok_bind, if_neg hrefs, if_neg hone, hc, true_and]
    · rw [LRUHandle.side, LRUHandle.unlinked_refs, if_neg hone]
      exact hl.mem_iff_of_mem hn
    · rw [LRUHandle.unlinked_refs, if_neg hone]

/-! ### Erasing and evicting -/

/-- `FinishErase` unlinks the handle, counts it out and gives up the cache's reference. -/
theorem Refines.finishErase (hr : Refines (some n) c lists m) (he : c.cells.entry n = some h)
    (hc : h.inCache = true) :
    ∃ c' lists', Completes m.held (c.finishEraseWith · (some (.handle n))) (true, c') ∧
      Refines none c' lists' (m.drop n) := by
  have hi := hr.inv
  have hn : n ∈ lists h.side := hi.mem_lists.mpr ⟨h, he, hc, rfl⟩
  have hrefs : h.refs.toNat = m.held n + 1 := by rw [hi.refs he, hc, Bool.toNat_true]
  have ht : ∀ k, c.table.lookup k ≠ some (.handle n) := fun k hk => (hi.lookup_iff.mp hk).2 rfl
  obtain ⟨h', hd, hu⟩ := deref_of_entry he
  have hc' : h'.inCache = true := by rw [← h'.unlinked_inCache, hu, hc]
  -- off its list, then `in_cache = false`, then one reference less
  obtain ⟨cells₁, hrem, hentry₁, hl₁⟩ := hi.linked.lruRemove hn
  obtain ⟨cells₂, hmod, hentry₂, hl₂⟩ := hl₁.modify (hentry₁ ▸ he)
    (f := fun h => { h with inCache := false }) fun _ => rfl
  have he₂ : cells₂.entry n = some { h with inCache := false } := by
    rw [hentry₂, Function.update_self]
  obtain ⟨h₂, hd₂, hu₂⟩ := deref_of_entry he₂
  have hcharge : h₂.charge = h.charge := by rw [← h₂.unlinked_charge, hu₂]
  obtain ⟨c₃, hunref, hentry₃, hl₃, hf₃, hdel₃⟩ := unrefWith_eq
    (c := { c with cells := cells₂, usage := c.usage - h.charge }) hl₂ he₂
    (by simp only; omega)
  have hentry : c₃.cells.entry = Function.update c.cells.entry n
      (some { h with inCache := false, refs := h.refs - 1 }) := by
    rw [hentry₃, hentry₂, hentry₁, Function.update_idem]
  have he₃ : c₃.cells.entry n = some { h with inCache := false, refs := h.refs - 1 } := by
    rw [hentry, Function.update_self]
  have hn₃ : ∀ side, n ∉ Function.update lists h.side ((lists h.side).erase n) side :=
    fun side hmem => ((hi.linked.mem_erase_iff hn).mp hmem).2 rfl
  have hsub : (h.refs - 1).toNat = m.held n := by
    rw [toNat_sub_one (by omega), hrefs, Nat.add_sub_cancel]
  obtain ⟨c₄, hsettle, hent₄, hl₄, hf₄, hdel₄⟩ := settleWith_uncached hl₃ he₃ rfl hn₃
    (by rwa [hf₃.table]) hsub
  rw [hentry, Function.update_idem] at hent₄
  have husage : c₄.usage = c.usage - h.charge := hf₄.usage.trans hf₃.usage
  refine ⟨c₄, Function.update lists h.side ((lists h.side).erase n), fun onDelete haccepts => ?_,
    ?_⟩
  · simp only [finishEraseWith, hd, ok_bind, hc', assert_true, hrem, hmod, hd₂, hcharge, hunref,
      hsettle onDelete haccepts]
  · have hidle : Function.update lists h.side ((lists h.side).erase n) .lru = m.idle.erase n := by
      rw [← hr.idle]
      rcases hside : h.side with _ | _
      · rw [Function.update_self]
      · -- a handle in use is not on `lru_`
        have hnotin : n ∉ lists .lru := fun hmem => hi.linked.disjoint n hmem (hside ▸ hn)
        rw [Function.update_of_ne (by simp), List.erase_of_not_mem hnotin]
    have hgive := hr.giveUp he (by rw [if_pos hc]) hent₄ ⟨rfl, rfl, hsub⟩ hl₄
      (hf₄.capacity.trans hf₃.capacity) (hf₄.fresh.trans hf₃.fresh) (hf₄.table.trans hf₃.table)
      (by rw [if_pos hc, husage]) (fun side m => hi.linked.mem_erase_iff hn)
      (by rw [hdel₄, hdel₃])
    rw [hidle, husage, Function.update_eq_self, ← hr.usage] at hgive
    rw [PinnedLru.drop_eq (hr.entries he)]
    exact hgive

/-- Finishing the erasure of what the table removed, whether or not that was anything. -/
theorem Refines.finishErase_removed (hr : Refines x c lists m)
    (hx : ∀ n, x = some n → ∃ h, c.cells.entry n = some h ∧ h.inCache = true) :
    ∃ c' lists', Completes m.held (c.finishEraseWith · (x.map .handle)) (x.isSome, c') ∧
      Refines none c' lists' (m.dropOld x) := by
  rcases x with _ | n
  · exact ⟨c, lists, fun _ _ => rfl, hr⟩
  · obtain ⟨h, he, hc⟩ := hx n rfl
    exact hr.finishErase he hc

/-- Once the key is out of the table, what was under it is the handle that the refinement
excepts. -/
theorem Refines.tableRemove (hr : Refines none c lists m) (key : Bytes)
    (log : List (LruEvent Bytes)) :
    Refines (m.table key) (c.tableRemove key).2 lists
      { m with table := Function.update m.table key none, log } := by
  refine ⟨?_, hr.capacity, hr.usage, fun k => ?_, hr.idle, hr.length_entries, hr.entries,
    hr.deleted⟩
  · have hi := hr.inv.tableRemove key
    rwa [show (c.tableRemove key).1 = (m.table key).map .handle from hr.table key] at hi
  · by_cases hk : k = key
    · subst hk
      simp [LRUCache.tableRemove]
    · simp [LRUCache.tableRemove, hk, hr.table]

/-- The body of the eviction loops takes the oldest entry off `lru_`. -/
theorem Refines.evictOldest (hr : Refines none c lists m) {l : List ℕ} (hidle : m.idle = n :: l) :
    ∃ c' lists', Completes m.held (c.evictOldestWith ·) c' ∧
      Refines none c' lists' m.evictOldest ∧ m.evictOldest.idle = l := by
  have hi := hr.inv
  have hlru : lists .lru = n :: l := hr.idle.trans hidle
  obtain ⟨h, he, hc, hside⟩ := hi.mem_lists.mp (show n ∈ lists .lru by simp [hlru])
  -- on `lru_` only the cache holds the handle
  have hrefs : h.refs = 1 := by
    by_contra hne
    simp [LRUHandle.side, hne] at hside
  obtain ⟨list, hd, hnext, -⟩ := (hi.linked.live_head .lru).deref
  rw [(hi.linked.ring .lru).next_head, hlru, List.map_cons, List.headD_cons] at hnext
  obtain ⟨h', hd', hu'⟩ := deref_of_entry he
  have hrefs' : h'.refs = 1 := by rw [← h'.unlinked_refs, hu', hrefs]
  have hlookup : c.table.lookup h.key = some (.handle n) :=
    hi.lookup_iff.mpr ⟨⟨n, h, rfl, he, hc, rfl⟩, by simp⟩
  have hr₁ := hr.tableRemove h.key (m.log ++ [.dropped n])
  rw [hr.lookup_eq_some.mp hlookup] at hr₁
  obtain ⟨c', lists', hok, hr'⟩ := hr₁.finishErase he hc
  refine ⟨c', lists', fun onDelete haccepts => ?_, ?_,
    PinnedLru.idle_evictOldest hidle (hr.entries he)⟩
  · have hok' := hok onDelete haccepts
    rw [LRUCache.tableRemove] at hok'
    simp only [evictOldestWith, hd, ok_bind, hnext, hd', assert_of hrefs', hi.linked.key_eq he,
      LRUCache.tableRemove, hlookup, hok', assert_true]
  · rwa [PinnedLru.evictOldest_eq hidle (hr.entries he)]

/-- The eviction loops end: each round shortens `lru_`. -/
theorem Refines.evictWhile (full : LRUCache → Bool) (full' : EntryMap → Bool)
    (hfull : ∀ {c lists m}, Refines none c lists m → full c = full' m) {fuel : ℕ}
    (hr : Refines none c lists m) (hfuel : m.idle.length < fuel) :
    ∃ c' lists', Completes m.held (c.evictWhileWith · full fuel) c' ∧
      Refines none c' lists' (m.evictWhile full' m.idle.length) := by
  induction fuel generalizing c lists m with
  | zero => omega
  | succ fuel ih =>
    obtain ⟨list, hd, hnext, -⟩ := (hr.inv.linked.live_head .lru).deref
    have hnil : list.next = some (.head .lru) ↔ m.idle = [] := by
      rw [hnext, (hr.inv.linked.ring .lru).next_head_eq_iff, List.map_eq_nil_iff, hr.idle]
    rcases hidle : m.idle with _ | ⟨n, l⟩
    · -- nothing to evict
      refine ⟨c, lists, fun onDelete _ => ?_, hr⟩
      have hcond : ¬ (full c = true ∧ list.next ≠ some (.head .lru)) :=
        fun hcond => hcond.2 (hnil.mpr hidle)
      simp only [evictWhileWith, hd, ok_bind, if_neg hcond]
    · have hne : list.next ≠ some (.head .lru) := by
        rw [ne_eq, hnil, hidle]
        exact List.cons_ne_nil n l
      have hne' : m.idle ≠ [] := by
        rw [hidle]
        exact List.cons_ne_nil n l
      rw [List.length_cons, PinnedLru.evictWhile]
      by_cases hcond : full c = true
      · obtain ⟨c₁, lists₁, hok₁, hr₁, hidle₁⟩ := hr.evictOldest hidle
        have hlen : m.evictOldest.idle.length < fuel := by
          rw [hidle, List.length_cons] at hfuel
          rw [hidle₁]
          omega
        obtain ⟨c', lists', hok, hr'⟩ := ih hr₁ hlen
        refine ⟨c', lists', fun onDelete haccepts => ?_, ?_⟩
        · have haccepts' : Accepts onDelete m.evictOldest.held := by
            rwa [PinnedLru.evictOldest_held]
          simp only [evictWhileWith, hd, ok_bind, if_pos (And.intro hcond hne),
            hok₁ onDelete haccepts, hok onDelete haccepts']
        · rw [if_pos ⟨hfull hr ▸ hcond, hne'⟩, ← hidle₁]
          exact hr'
      · refine ⟨c, lists, fun onDelete _ => ?_, ?_⟩
        · simp only [evictWhileWith, hd, ok_bind, if_neg fun hand => hcond (And.left hand)]
        · rw [if_neg fun hand => hcond (hfull hr ▸ hand.1)]
          exact hr

/-- The lists hold no more handles than were allocated. -/
theorem Refines.length_idle_le (hr : Refines x c lists m) : m.idle.length ≤ c.fresh := by
  have hsub : lists .lru ⊆ List.range c.fresh := fun n hn => by
    obtain ⟨h, he, -⟩ := hr.inv.mem_lists.mp hn
    exact List.mem_range.mpr (hr.inv.lt_fresh he)
  rw [← hr.idle]
  simpa using ((hr.inv.linked.nodup .lru).subperm hsub).length_le

end LRUCache

end TinyLeveldb
