import TinyLeveldb.Cache.Invariant

/-!
# Hashes and charges in completed calls

Two facts about a cache do not depend on its lists, its table or its clients: a handle keeps
the hash it was made with, and `usage_` is the sum of the charges of the handles that have
`in_cache` set, in 64 bits. Both are about the *tag* of a handle, which the list operations
leave alone, so they hold after every call that completes, however often a reference count has
wrapped.
-/

namespace TinyLeveldb

open Library

/-- What `Insert` and `FinishErase` write in a handle, and the list operations do not. -/
structure Tag where
  hash : UInt32
  charge : UInt64
  inCache : Bool

/-- The tag of a handle. -/
def LRUHandle.tag (h : LRUHandle) : Tag := ⟨h.hash, h.charge, h.inCache⟩

/-- What a handle with the tag contributes to `usage_`. -/
def Tag.charged : Option Tag → ℕ
  | none => 0
  | some t => if t.inCache then t.charge.toNat else 0

namespace Cells

/-- The tags of the handles in memory. -/
def tags (cells : Cells) (a : Addr) : Option Tag := (cells a).map LRUHandle.tag

variable {cells cells' : Cells} {a : Addr} {p : Pointer Addr} {h : LRUHandle}
  {f : LRUHandle → LRUHandle}

theorem tags_eq (hc : cells a = some h) : cells.tags a = some h.tag := by
  rw [tags, hc, Option.map_some]

theorem tags_update (cells : Cells) (a : Addr) (v : Option LRUHandle) :
    tags (Function.update cells a v) = Function.update cells.tags a (v.map LRUHandle.tag) := by
  funext b
  by_cases hb : b = a
  · subst hb
    simp [tags]
  · simp [tags, hb]

theorem deref_eq_ok (hd : cells.deref p = .ok h) : ∃ a, p = some a ∧ cells a = some h := by
  rcases p with _ | a
  · cases hd
  · rw [deref] at hd
    split at hd
    · cases hd
    · rename_i h' hc
      cases hd
      exact ⟨a, rfl, hc⟩

theorem modify_eq_ok (hm : cells.modify p f = .ok cells') :
    ∃ a h, p = some a ∧ cells a = some h ∧ cells' = Function.update cells a (some (f h)) := by
  rcases p with _ | a
  · cases hm
  · rw [modify] at hm
    split at hm
    · cases hm
    · rename_i h hc
      cases hm
      exact ⟨a, h, rfl, hc, rfl⟩

/-- An assignment to other fields keeps the tags. -/
theorem tags_modify (hm : cells.modify p f = .ok cells') (hf : ∀ h, (f h).tag = h.tag) :
    cells'.tags = cells.tags := by
  obtain ⟨a, h, -, hc, rfl⟩ := modify_eq_ok hm
  rw [tags_update, Option.map_some, hf, ← tags_eq hc, Function.update_eq_self]

theorem tags_lruRemove {e : Addr} (hr : cells.lruRemove e = .ok cells') :
    cells'.tags = cells.tags := by
  obtain ⟨h₁, -, hr⟩ := bind_eq_ok.mp hr
  obtain ⟨cells₁, hm₁, hr⟩ := bind_eq_ok.mp hr
  obtain ⟨h₂, -, hm₂⟩ := bind_eq_ok.mp hr
  exact (tags_modify hm₂ fun _ => rfl).trans (tags_modify hm₁ fun _ => rfl)

theorem tags_lruAppend {side : Side} {e : Addr} (ha : cells.lruAppend side e = .ok cells') :
    cells'.tags = cells.tags := by
  obtain ⟨cells₁, hm₁, ha⟩ := bind_eq_ok.mp ha
  obtain ⟨list, -, ha⟩ := bind_eq_ok.mp ha
  obtain ⟨cells₂, hm₂, ha⟩ := bind_eq_ok.mp ha
  obtain ⟨h₁, -, ha⟩ := bind_eq_ok.mp ha
  obtain ⟨cells₃, hm₃, ha⟩ := bind_eq_ok.mp ha
  obtain ⟨h₂, -, hm₄⟩ := bind_eq_ok.mp ha
  calc cells'.tags = cells₃.tags := tags_modify hm₄ fun _ => rfl
    _ = cells₂.tags := tags_modify hm₃ fun _ => rfl
    _ = cells₁.tags := tags_modify hm₂ fun _ => rfl
    _ = cells.tags := tags_modify hm₁ fun _ => rfl

theorem tags_ref {e : Addr} (hr : cells.ref e = .ok cells') : cells'.tags = cells.tags := by
  obtain ⟨h, -, hr⟩ := bind_eq_ok.mp hr
  split at hr
  · obtain ⟨cells₁, hrem, hr⟩ := bind_eq_ok.mp hr
    obtain ⟨cells₂, happ, hm⟩ := bind_eq_ok.mp hr
    calc cells'.tags = cells₂.tags := tags_modify hm fun _ => rfl
      _ = cells₁.tags := tags_lruAppend happ
      _ = cells.tags := tags_lruRemove hrem
  · exact tags_modify hr fun _ => rfl

end Cells

namespace LRUCache

open Cells

variable {P : UInt32 → Prop} {c c' : LRUCache} {e : Addr}

theorem cachedCharge_eq_sum_tags (c : LRUCache) :
    c.cachedCharge = ∑ n ∈ Finset.range c.fresh, Tag.charged (c.cells.tags (.handle n)) := by
  refine Finset.sum_congr rfl fun n _ => ?_
  rw [entry, tags]
  rcases c.cells (.handle n) with _ | h <;> rfl

/-- The hash of every handle satisfies `P`, and `usage_` is the charge of the cached handles. -/
structure Tally (P : UInt32 → Prop) (c : LRUCache) : Prop where
  unallocated : ∀ n, c.fresh ≤ n → c.cells.tags (.handle n) = none
  hash : ∀ {n t}, c.cells.tags (.handle n) = some t → P t.hash
  head : ∀ {side t}, c.cells.tags (.head side) = some t → t.inCache = false
  usage : c.usage.toNat = c.cachedCharge % 2 ^ 64

theorem Tally.new (P : UInt32 → Prop) : Tally P new where
  unallocated _ _ := rfl
  hash h := by cases h
  head h := by
    cases h
    rfl
  usage := rfl

/-- What leaves the tags, the charge and the allocations alone keeps the tally. -/
theorem Tally.congr (ht : Tally P c) (htags : c'.cells.tags = c.cells.tags)
    (husage : c'.usage = c.usage) (hfresh : c'.fresh = c.fresh) : Tally P c' where
  unallocated n hn := by
    rw [htags]
    exact ht.unallocated n (hfresh ▸ hn)
  hash h := ht.hash (htags ▸ h)
  head h := ht.head (htags ▸ h)
  usage := by
    rw [husage, ht.usage, cachedCharge_eq_sum_tags, cachedCharge_eq_sum_tags, htags, hfresh]

/-- The tag of one handle changes, and the charge with it. -/
theorem Tally.update {n : ℕ} {t : Tag} {v : Option Tag} (ht : Tally P c)
    (hn : c.cells.tags (.handle n) = some t) (hhash : ∀ t', v = some t' → t'.hash = t.hash)
    (htags : c'.cells.tags = Function.update c.cells.tags (.handle n) v)
    (hfresh : c'.fresh = c.fresh)
    (husage : (c'.usage.toNat + Tag.charged (some t)) % 2 ^ 64 =
      (c.usage.toNat + Tag.charged v) % 2 ^ 64) : Tally P c' where
  unallocated m hm := by
    have hmn : m ≠ n := by
      rintro rfl
      rw [ht.unallocated m (hfresh ▸ hm)] at hn
      cases hn
    rw [htags, Function.update_of_ne (by simpa using hmn)]
    exact ht.unallocated m (hfresh ▸ hm)
  hash {m t'} hm := by
    rw [htags] at hm
    by_cases hmn : m = n
    · subst hmn
      rw [Function.update_self] at hm
      rw [hhash t' hm]
      exact ht.hash hn
    · rw [Function.update_of_ne (by simpa using hmn)] at hm
      exact ht.hash hm
  head h := by
    rw [htags, Function.update_of_ne (by simp)] at h
    exact ht.head h
  usage := by
    have hlt : n < c.fresh := by
      by_contra hge
      rw [ht.unallocated n (not_lt.mp hge)] at hn
      cases hn
    have hg : (fun m => c'.cells.tags (.handle m)) =
        Function.update (fun m => c.cells.tags (.handle m)) n v := by
      funext m
      rw [htags]
      by_cases hmn : m = n
      · subst hmn
        simp
      · simp [hmn]
    have hsum := sum_range_update (f := Tag.charged) hg hlt
    have hold := ht.usage
    have hlt' := c'.usage.toNat_lt
    simp only [hn] at hsum
    rw [cachedCharge_eq_sum_tags] at hold ⊢
    rw [hfresh]
    omega

/-- A new handle brings its hash and, when it is cached, its charge. -/
theorem Tally.alloc (ht : Tally P c) {hash : UInt32} (charge : UInt64) (b : Bool) (hhash : P hash)
    (htags : c'.cells.tags =
      Function.update c.cells.tags (.handle c.fresh) (some ⟨hash, charge, b⟩))
    (hfresh : c'.fresh = c.fresh + 1)
    (husage : c'.usage = if b then c.usage + charge else c.usage) : Tally P c' where
  unallocated m hm := by
    have hne : m ≠ c.fresh := by omega
    rw [htags, Function.update_of_ne (by simpa using hne)]
    exact ht.unallocated m (by omega)
  hash {m t} hm := by
    rw [htags] at hm
    by_cases hne : m = c.fresh
    · subst hne
      rw [Function.update_self] at hm
      cases hm
      exact hhash
    · rw [Function.update_of_ne (by simpa using hne)] at hm
      exact ht.hash hm
  head {side t} hm := by
    rw [htags, Function.update_of_ne (by simp)] at hm
    exact ht.head hm
  usage := by
    have hsum := ht.usage
    have hrest : ∑ n ∈ Finset.range c.fresh, Tag.charged (c'.cells.tags (.handle n)) =
        c.cachedCharge := by
      rw [cachedCharge_eq_sum_tags]
      refine Finset.sum_congr rfl fun n hn => ?_
      rw [htags, Function.update_of_ne (by simpa using (Finset.mem_range.mp hn).ne)]
    rw [cachedCharge_eq_sum_tags c', hfresh, Finset.sum_range_succ, hrest, htags,
      Function.update_self, husage]
    rcases b with _ | _
    · simpa [Tag.charged] using hsum
    · simp only [if_true, UInt64.toNat_add, hsum, Tag.charged]
      omega

/-! ### The functions of the cache -/

variable {onDelete : Deleter}

/-- `Unref` frees only what is not cached. -/
theorem Tally.settleWith (ht : Tally P c) (h : c.settleWith onDelete e = .ok c') :
    Tally P c' := by
  obtain ⟨he, hderef, h⟩ := bind_eq_ok.mp h
  obtain ⟨_, ⟨⟩, hcell⟩ := deref_eq_ok hderef
  split at h
  · obtain ⟨_, hassert, h⟩ := bind_eq_ok.mp h
    obtain ⟨key, -, h⟩ := bind_eq_ok.mp h
    obtain ⟨_, -, h⟩ := bind_eq_ok.mp h
    cases h
    have hout : he.inCache = false := by simpa using of_assert hassert
    rcases e with side | n
    · -- a list head is no handle
      refine ⟨fun m hm => ?_, fun {m t} hm => ?_, fun {side' t} hm => ?_, ?_⟩
      · rw [tags_update, Function.update_of_ne (by simp)]
        exact ht.unallocated m hm
      · rw [tags_update, Function.update_of_ne (by simp)] at hm
        exact ht.hash hm
      · rw [tags_update] at hm
        by_cases hside : Addr.head side' = .head side
        · rw [hside, Function.update_self] at hm
          cases hm
        · rw [Function.update_of_ne hside] at hm
          exact ht.head hm
      · have hsum := ht.usage
        rw [cachedCharge_eq_sum_tags] at hsum ⊢
        simpa [tags_update] using hsum
    · refine ht.update (v := none) (tags_eq hcell) (by simp) (tags_update _ _ _) rfl ?_
      simp [Tag.charged, LRUHandle.tag, hout]
  · split at h
    · obtain ⟨cells₁, hrem, h⟩ := bind_eq_ok.mp h
      obtain ⟨cells₂, happ, h⟩ := bind_eq_ok.mp h
      cases h
      exact ht.congr ((tags_lruAppend happ).trans (tags_lruRemove hrem)) rfl rfl
    · cases h
      exact ht

theorem Tally.unrefWith (ht : Tally P c) (h : c.unrefWith onDelete e = .ok c') :
    Tally P c' := by
  obtain ⟨he, -, h⟩ := bind_eq_ok.mp h
  obtain ⟨_, -, h⟩ := bind_eq_ok.mp h
  obtain ⟨cells, hm, h⟩ := bind_eq_ok.mp h
  have hcongr : Tally P { c with cells } := ht.congr (tags_modify hm fun _ => rfl) rfl rfl
  exact hcongr.settleWith h

/-- `FinishErase` takes the charge of the entry off with its flag. -/
theorem Tally.finishEraseWith (ht : Tally P c) {p : Pointer Addr} {b : Bool}
    (h : c.finishEraseWith onDelete p = .ok (b, c')) : Tally P c' := by
  rcases p with _ | e
  · cases h
    exact ht
  obtain ⟨he, hderef, h⟩ := bind_eq_ok.mp h
  obtain ⟨_, ⟨⟩, hcell⟩ := deref_eq_ok hderef
  obtain ⟨_, hassert, h⟩ := bind_eq_ok.mp h
  have hin : he.inCache = true := of_assert hassert
  obtain ⟨cells₁, hrem, h⟩ := bind_eq_ok.mp h
  obtain ⟨cells₂, hmod, h⟩ := bind_eq_ok.mp h
  obtain ⟨h₂, hderef₂, h⟩ := bind_eq_ok.mp h
  obtain ⟨c₃, hunref, h⟩ := bind_eq_ok.mp h
  cases h
  refine Tally.unrefWith ?_ hunref
  rcases e with side | n
  · have hhead := ht.head (tags_eq hcell)
    rw [LRUHandle.tag, hin] at hhead
    cases hhead
  obtain ⟨_, h₁, ⟨⟩, hc₁, rfl⟩ := modify_eq_ok hmod
  obtain ⟨_, ⟨⟩, hc₂⟩ := deref_eq_ok hderef₂
  rw [Function.update_self] at hc₂
  cases hc₂
  have htags₁ := tags_lruRemove hrem
  have htag₁ : h₁.tag = he.tag := by
    have := (tags_eq hc₁).symm.trans ((congrFun htags₁ _).trans (tags_eq hcell))
    simpa using this
  refine ht.update (v := some ⟨h₁.hash, h₁.charge, false⟩) (tags_eq hcell)
    (fun t' ht' => ?_) ?_ rfl ?_
  · cases ht'
    have hhash₁ : h₁.tag.hash = he.tag.hash := congrArg Tag.hash htag₁
    exact hhash₁
  · rw [tags_update, htags₁]
    rfl
  · have hcharge₁ : h₁.tag.charge = he.tag.charge := congrArg Tag.charge htag₁
    have hcharge : h₁.charge = he.charge := hcharge₁
    have hlt := he.charge.toNat_lt
    simp only [Tag.charged, LRUHandle.tag, hin, if_true, hcharge, UInt64.toNat_sub,
      Bool.false_eq_true, if_false]
    omega

theorem Tally.tableInsert (ht : Tally P c) {old : Pointer Addr}
    (h : c.tableInsert e = .ok (old, c')) : Tally P c' := by
  obtain ⟨key, -, h⟩ := bind_eq_ok.mp h
  cases h
  exact ht.congr rfl rfl rfl

theorem Tally.tableRemove (ht : Tally P c) (key : Bytes) : Tally P (c.tableRemove key).2 :=
  ht.congr rfl rfl rfl

theorem Tally.evictOldestWith (ht : Tally P c) (h : c.evictOldestWith onDelete = .ok c') :
    Tally P c' := by
  obtain ⟨lru, -, h⟩ := bind_eq_ok.mp h
  split at h
  · cases h
  · obtain ⟨hold, -, h⟩ := bind_eq_ok.mp h
    obtain ⟨_, -, h⟩ := bind_eq_ok.mp h
    obtain ⟨key, -, h⟩ := bind_eq_ok.mp h
    obtain ⟨⟨erased, c₁⟩, hfinish, h⟩ := bind_eq_ok.mp h
    obtain ⟨_, -, h⟩ := bind_eq_ok.mp h
    cases h
    exact (ht.tableRemove key).finishEraseWith hfinish

theorem Tally.evictWhileWith {full : LRUCache → Bool} {fuel : ℕ} (ht : Tally P c)
    (h : c.evictWhileWith onDelete full fuel = .ok c') : Tally P c' := by
  induction fuel generalizing c with
  | zero => cases h
  | succ fuel ih =>
    obtain ⟨lru, -, h⟩ := bind_eq_ok.mp h
    split at h
    · obtain ⟨c₁, hevict, h⟩ := bind_eq_ok.mp h
      exact ih (ht.evictOldestWith hevict) h
    · cases h
      exact ht

theorem Tally.insert (ht : Tally P c) {key : Slice} {hash : UInt32} {value : ℕ} {charge : UInt64}
    {deleter : ℕ} (hhash : P hash) (h : c.insert key hash value charge deleter = .ok (e, c')) :
    e = .handle c.fresh ∧ Tally P c' := by
  obtain ⟨c₁, henter, h⟩ := bind_eq_ok.mp h
  obtain ⟨c₂, hevict, h⟩ := bind_eq_ok.mp h
  cases h
  refine ⟨rfl, Tally.evictWhileWith ?_ hevict⟩
  rw [enterWith] at henter
  split at henter
  · obtain ⟨cells₁, hmod, henter⟩ := bind_eq_ok.mp henter
    obtain ⟨cells₂, happ, henter⟩ := bind_eq_ok.mp henter
    obtain ⟨⟨old, c₃⟩, hins, henter⟩ := bind_eq_ok.mp henter
    obtain ⟨⟨b, c₄⟩, hfinish, henter⟩ := bind_eq_ok.mp henter
    cases henter
    have halloc : Tally P
        { c with cells := cells₂, fresh := c.fresh + 1, usage := c.usage + charge } := by
      refine ht.alloc charge true hhash ?_ rfl rfl
      obtain ⟨_, h₁, ⟨⟩, hc₁, rfl⟩ := modify_eq_ok hmod
      simp only [Function.update_self, Option.some.injEq] at hc₁
      subst hc₁
      rw [tags_lruAppend happ, Function.update_idem, tags_update]
      rfl
    exact (halloc.tableInsert hins).finishEraseWith hfinish
  · obtain ⟨cells₁, hmod, henter⟩ := bind_eq_ok.mp henter
    cases henter
    refine ht.alloc charge false hhash ?_ rfl rfl
    rw [tags_modify hmod fun _ => rfl, tags_update]
    rfl

theorem Tally.lookup (ht : Tally P c) {key : Slice} {p : Pointer Addr}
    (h : c.lookup key = .ok (p, c')) : Tally P c' := by
  rw [LRUCache.lookup] at h
  split at h
  · cases h
    exact ht
  · obtain ⟨cells, href, h⟩ := bind_eq_ok.mp h
    cases h
    exact ht.congr (tags_ref href) rfl rfl

theorem Tally.erase (ht : Tally P c) {key : Slice} (h : c.erase key = .ok c') : Tally P c' := by
  obtain ⟨⟨b, c₁⟩, hfinish, h⟩ := bind_eq_ok.mp h
  cases h
  exact (ht.tableRemove key.data).finishEraseWith hfinish

end LRUCache

end TinyLeveldb
