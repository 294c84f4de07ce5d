import Mathlib.Data.List.Perm.Subperm
import TinyLeveldb.SkipList.Levels

/-!
# What a call does to the keys of a skip list

The calls on any skip list that is `Structured` (ascending and nested levels) and `Allocated`
(every array has the slots its node needs), whatever calls made it: such a list is represented by
towers (`exists_repr`). What a run of calls leaves is such a list (`exists_structured_of_run`).

`insert` and `remove` test the key of the node behind the one they found. So `insert` adds a key
only when it is above all others, and `remove` removes nothing; when exactly one key of the list is
not below the key of the call, the tested node is null. `updates_iff` says what is left of the
semantics of a set of keys.
-/

namespace TinyLeveldb

open Library

namespace SkipList

variable {Key κ : Type}

/-! ### Lists in memory -/

/-- The memory of a list with the given chains: the head has `maxLevel` slots, a node one for each
level it is linked on, and no node is linked above the level of the list. -/
structure Allocated (spare : ℕ) (s : SkipList Key) (chain : ℕ → List ℕ) : Prop where
  headNode : ∃ n, s.nodes head = some n ∧ n.slots = s.maxLevel + spare
  node : ∀ a ∈ chain 0, ∃ n, s.nodes a = some n ∧ ∀ i, a ∈ chain i ↔ i + spare < n.slots
  head_lt : head < s.fresh
  addr_pos : ∀ a ∈ chain 0, head < a
  addr_lt : ∀ a ∈ chain 0, a < s.fresh
  chain_eq_nil : ∀ i, s.level < i → chain i = []
  level_le : s.level ≤ s.maxLevel

/-- Distinct addresses that were handed out, apart from the head's. -/
theorem length_lt_of_nodup {l : List ℕ} {fresh : ℕ} (hnodup : l.Nodup) (hfresh : head < fresh)
    (hpos : ∀ a ∈ l, head < a) (hlt : ∀ a ∈ l, a < fresh) : l.length < fresh := by
  have hsub : head :: l ⊆ List.range fresh := by
    intro a ha
    rcases List.mem_cons.mp ha with rfl | ha
    · exact List.mem_range.mpr hfresh
    · exact List.mem_range.mpr (hlt a ha)
  have hnodup' : (head :: l).Nodup :=
    List.nodup_cons.mpr ⟨fun hmem => absurd (hpos head hmem) (lt_irrefl _), hnodup⟩
  have hle := (hnodup'.subperm hsub).length_le
  rwa [List.length_cons, List.length_range] at hle

/-- The elements of a sublist, picked out of a list without duplicates. -/
theorem filter_mem_of_sublist {l l' : List ℕ} (h : l.Sublist l') (hnodup : l'.Nodup) :
    l'.filter (fun a => decide (a ∈ l)) = l := by
  have hself : l.filter (fun a => decide (a ∈ l)) = l := List.filter_eq_self.mpr (by simp)
  have hsub : l.Sublist (l'.filter fun a => decide (a ∈ l)) := by
    conv_lhs => rw [← hself]
    exact h.filter _
  have hle := ((hnodup.filter fun a => decide (a ∈ l)).subperm fun a ha =>
    of_decide_eq_true (List.mem_filter.mp ha).2).length_le
  exact (hsub.eq_of_length_le hle).symm

variable [LinearOrder κ] {decodeKey : Key → κ} {spare : ℕ} {s : SkipList Key}
  {chain : ℕ → List ℕ} {keys : ℕ → List κ}

theorem Structured.sublist (hs : Structured decodeKey s chain keys) (i : ℕ) :
    (chain i).Sublist (chain 0) := by
  induction i with
  | zero => exact List.Sublist.refl _
  | succ i ih => exact (hs.nested i).trans ih

theorem Structured.nodup_chain (hs : Structured decodeKey s chain keys) : (chain 0).Nodup := by
  refine List.Nodup.of_map (s.keyAt decodeKey) ?_
  rw [hs.keys_eq]
  exact (hs.nodup 0).map fun _ _ heq => Option.some.inj heq

/-- The towers of the nodes on the bottom level, as high as the levels they are linked on. -/
structure TowersOf (spare : ℕ) (s : SkipList Key) (chain : ℕ → List ℕ) (ts : List (Tower Key)) :
    Prop where
  addrs_eq : addrs ts = chain 0
  node : ∀ t ∈ ts, ∃ n, s.nodes t.addr = some n ∧ n.key = t.key ∧ n.slots = t.height + spare
  mem_chain_iff : ∀ t ∈ ts, ∀ i, t.addr ∈ chain i ↔ i < t.height

theorem Allocated.exists_towers (ha : Allocated spare s chain) :
    ∃ ts, TowersOf spare s chain ts := by
  have htower : ∀ a ∈ chain 0, ∃ t : Tower Key, t.addr = a ∧
      (∃ n, s.nodes t.addr = some n ∧ n.key = t.key ∧ n.slots = t.height + spare) ∧
      ∀ i, t.addr ∈ chain i ↔ i < t.height := by
    intro a hmem
    obtain ⟨n, hn, hslots⟩ := ha.node a hmem
    have hspare : 0 + spare < n.slots := (hslots 0).mp hmem
    refine ⟨⟨a, n.key, n.slots - spare⟩, rfl, ⟨n, hn, rfl, ?_⟩, fun i => (hslots i).trans ?_⟩
    · change n.slots = n.slots - spare + spare
      omega
    · change i + spare < n.slots ↔ i < n.slots - spare
      omega
  obtain ⟨n, -⟩ := ha.headNode
  have : Nonempty (Tower Key) := ⟨⟨head, n.key, 0⟩⟩
  choose! tower haddr hnode hiff using htower
  refine ⟨(chain 0).map tower, ?_, List.forall_mem_map.mpr hnode, List.forall_mem_map.mpr hiff⟩
  rw [addrs, List.map_map]
  exact (List.map_congr_left haddr).trans (List.map_id _)

variable {ts : List (Tower Key)}

theorem TowersOf.mem_bottom (ht : TowersOf spare s chain ts) {t : Tower Key} (hmem : t ∈ ts) :
    t.addr ∈ chain 0 :=
  ht.addrs_eq ▸ List.mem_map_of_mem hmem

theorem TowersOf.addrs_reaching (ht : TowersOf spare s chain ts)
    (hs : Structured decodeKey s chain keys) (i : ℕ) : addrs (reaching i ts) = chain i := by
  have hfilter : reaching i ts = ts.filter fun t => decide (t.addr ∈ chain i) :=
    List.filter_congr fun t hmem => decide_eq_decide.mpr (ht.mem_chain_iff t hmem i).symm
  calc addrs (reaching i ts)
    _ = (addrs ts).filter fun a => decide (a ∈ chain i) := by
      rw [hfilter, addrs, addrs, List.filter_map]
      rfl
    _ = chain i := by
      rw [ht.addrs_eq, filter_mem_of_sublist (hs.sublist i) hs.nodup_chain]

theorem TowersOf.keysOf_eq (ht : TowersOf spare s chain ts)
    (hs : Structured decodeKey s chain keys) : keysOf decodeKey ts = keys 0 := by
  refine List.map_injective_iff.mpr (fun _ _ heq => Option.some.inj heq) ?_
  rw [← hs.keys_eq, ← ht.addrs_eq, keysOf, List.map_map, List.map_map]
  refine List.map_congr_left fun t hmem => ?_
  obtain ⟨n, hn, hkey, -⟩ := ht.node t hmem
  simp [keyAt, hn, hkey]

/-- **A structured list in memory is represented by towers.** -/
theorem TowersOf.repr (ht : TowersOf spare s chain ts) (hs : Structured decodeKey s chain keys)
    (ha : Allocated spare s chain) : Repr decodeKey spare s ts where
  headNode := ha.headNode
  node := ht.node
  chain i := ht.addrs_reaching hs i ▸ hs.path i
  ascending := by
    have hasc := hs.ascending 0
    rw [← ht.keysOf_eq hs] at hasc
    exact List.pairwise_map.mp hasc
  nodup := ht.addrs_eq ▸ hs.nodup_chain
  addr_pos t hmem := ha.addr_pos _ (ht.mem_bottom hmem)
  addr_lt t hmem := ha.addr_lt _ (ht.mem_bottom hmem)
  length_lt := by
    have hlt := length_lt_of_nodup hs.nodup_chain ha.head_lt ha.addr_pos ha.addr_lt
    rwa [← ht.addrs_eq, List.length_map] at hlt
  height_pos t hmem := (ht.mem_chain_iff t hmem 0).mp (ht.mem_bottom hmem)
  height_le t hmem := by
    by_contra hgt
    -- otherwise the tower is linked above the level of the list
    have habove := (ht.mem_chain_iff t hmem (s.level + 1)).mpr (by omega)
    rw [ha.chain_eq_nil _ (Nat.lt_succ_self _)] at habove
    exact List.not_mem_nil habove
  level_le := ha.level_le

/-- A represented list is allocated. -/
theorem Repr.allocated (h : Repr decodeKey spare s ts) :
    Allocated spare s fun i => addrs (reaching i ts) where
  headNode := h.headNode
  node := by
    intro a hmem
    obtain ⟨t, ht, rfl⟩ := List.mem_map.mp hmem
    have htmem := (mem_reaching.mp ht).1
    obtain ⟨n, hn, -, hslots⟩ := h.node t htmem
    refine ⟨n, hn, fun i => ⟨fun hi => ?_, fun hi => ?_⟩⟩
    · obtain ⟨u, hu, haddr⟩ := List.mem_map.mp hi
      obtain ⟨humem, hheight⟩ := mem_reaching.mp hu
      obtain rfl := List.inj_on_of_nodup_map h.nodup humem htmem haddr
      omega
    · exact List.mem_map_of_mem (mem_reaching.mpr ⟨htmem, by omega⟩)
  head_lt := Nat.zero_lt_of_lt h.length_lt
  addr_pos := by
    intro a hmem
    obtain ⟨t, ht, rfl⟩ := List.mem_map.mp hmem
    exact h.addr_pos t (mem_reaching.mp ht).1
  addr_lt := by
    intro a hmem
    obtain ⟨t, ht, rfl⟩ := List.mem_map.mp hmem
    exact h.addr_lt t (mem_reaching.mp ht).1
  chain_eq_nil i hi := by
    rw [reaching_eq_nil fun t ht => (h.height_le t ht).trans hi]
    rfl
  level_le := h.level_le

/-- **The lists that runs make** are structured and allocated. -/
theorem exists_structured_of_run {maxLevel : ℕ} {hpos : 1 ≤ maxLevel} {nokey : Key}
    {calls : List (Call Key)} (h : runNew decodeKey maxLevel hpos nokey calls = .ok s) :
    ∃ chain keys, Structured decodeKey s chain keys ∧ Allocated 0 s chain := by
  obtain ⟨⟨ts, hinv⟩, -⟩ := runInv_of_runNew h
  exact ⟨_, _, hinv.repr.structured, hinv.repr.allocated⟩

theorem exists_repr (hs : Structured decodeKey s chain keys) (ha : Allocated spare s chain) :
    ∃ ts, Repr decodeKey spare s ts ∧ keysOf decodeKey ts = keys 0 := by
  obtain ⟨ts, ht⟩ := ha.exists_towers
  exact ⟨ts, ht.repr hs ha, ht.keysOf_eq hs⟩

/-! ### `insert` and `remove` -/

/-- The bottom level holds the keys that satisfy `p`. -/
def HoldsKeys (decodeKey : Key → κ) (s : SkipList Key) (p : κ → Prop) : Prop :=
  ∃ bottom, Path (s.fwd 0) head bottom none ∧
    ∀ k, some k ∈ bottom.map (s.keyAt decodeKey) ↔ p k

/-- What a call is meant to do to a list with the given chains and the given keys on the bottom
level. -/
def Updates (decodeKey : Key → κ) (spare : ℕ) (s : SkipList Key) (chain : ℕ → List ℕ)
    (keys : List κ) : Call Key → Prop
  | .insert coins key => ∃ s', s.insert decodeKey spare coins key = .ok s' ∧
      HoldsKeys decodeKey s' fun k => k ∈ keys ∨ k = decodeKey key
  | .remove key => ∃ s', s.remove decodeKey spare key = .ok s' ∧
      HoldsKeys decodeKey s' (fun k => k ∈ keys ∧ k ≠ decodeKey key) ∧
      ∀ i, ∃ chain', Path (s'.fwd i) head chain' none ∧
        ∀ a ∈ chain i, s.keyAt decodeKey a ≠ some (decodeKey key) → a ∈ chain'

/-- The calls that do it: an `insert` of a key above all keys, or of a key of the list that is not
the largest; a `remove` of a key that is not in the list, and is above all keys or below two of
them. -/
def Call.Fits (decodeKey : Key → κ) (keys : List κ) : Call Key → Prop
  | .insert _ key => (∀ k ∈ keys, k < decodeKey key) ∨
      decodeKey key ∈ keys ∧ ∃ k ∈ keys, decodeKey key < k
  | .remove key => decodeKey key ∉ keys ∧ Decided keys (decodeKey key)

variable {key : Key}

/-- A represented list holds the keys of its towers. -/
theorem Repr.holdsKeys_iff (h : Repr decodeKey spare s ts) {p : κ → Prop} :
    HoldsKeys decodeKey s p ↔ ∀ k, k ∈ keysOf decodeKey ts ↔ p k := by
  have hkeys : (addrs (reaching 0 ts)).map (s.keyAt decodeKey) =
      (keysOf decodeKey ts).map some := by
    rw [h.structured.keys_eq 0, reaching_zero h.height_pos]
    rfl
  have hmem : ∀ k, some k ∈ (addrs (reaching 0 ts)).map (s.keyAt decodeKey) ↔
      k ∈ keysOf decodeKey ts := by
    intro k
    rw [hkeys, List.mem_map_of_injective fun _ _ heq => Option.some.inj heq]
  constructor
  · rintro ⟨bottom, hpath, hbottom⟩ k
    obtain rfl := hpath.unique (h.chain 0)
    rw [← hbottom, hmem]
  · intro hp
    exact ⟨_, h.chain 0, fun k => (hmem k).trans (hp k)⟩

/-- The calls that fit are decided. -/
theorem Call.Fits.decided {keys : List κ} {call : Call Key} (h : call.Fits decodeKey keys) :
    Decided keys (decodeKey call.key) := by
  cases call with
  | insert coins key =>
    rcases h with hall | ⟨hmem, k, hk, hlt⟩
    · exact .inl hall
    · exact .inr ⟨decodeKey key, hmem, k, hk, le_rfl, hlt⟩
  | remove key => exact h.2

/-- Inserting a decided key adds it exactly when it is above all keys or there already. -/
theorem mem_addRecord_iff {keys : List κ} {target : κ} (hdec : Decided keys target) :
    (∀ k, k ∈ addRecord keys target ↔ k ∈ keys ∨ k = target) ↔
      (∀ k ∈ keys, k < target) ∨ target ∈ keys ∧ ∃ k ∈ keys, target < k := by
  by_cases hall : ∀ k ∈ keys, k < target
  · exact iff_of_true (fun k => by simp [addRecord_of_forall_lt hall]) (.inl hall)
  · obtain ⟨x, hx, y, hy, hle, hlt⟩ := hdec.resolve_left hall
    rw [addRecord_of_le hx hle]
    constructor
    · intro h
      exact .inr ⟨(h target).mpr (.inr rfl), y, hy, hle.trans_lt hlt⟩
    · rintro (h | ⟨hmem, -⟩) k
      · exact absurd h hall
      · exact ⟨.inl, fun h => h.elim id fun heq => heq ▸ hmem⟩

theorem Repr.insert_updates_iff (h : Repr decodeKey spare s ts)
    (hbound : s.level < s.maxLevel + spare) (coins : List Bool)
    (hdec : Decided (keysOf decodeKey ts) (decodeKey key)) :
    Updates decodeKey spare s chain (keysOf decodeKey ts) (.insert coins key) ↔
      (Call.insert coins key).Fits decodeKey (keysOf decodeKey ts) := by
  obtain ⟨s', ts', hs', hrepr, hadd, -⟩ := h.insert_of_decided hbound coins hdec
  rw [Call.Fits, ← mem_addRecord_iff hdec, ← hadd, ← hrepr.holdsKeys_iff, Updates]
  constructor
  · rintro ⟨s'', hs'', hholds⟩
    obtain rfl := Except.ok.inj (hs'.symm.trans hs'')
    exact hholds
  · exact fun hholds => ⟨s', hs', hholds⟩

/-- Removing a decided key does nothing, so it is right when the key is not there. -/
theorem Repr.remove_updates_iff (h : Repr decodeKey spare s ts)
    (hpath : ∀ i, Path (s.fwd i) head (chain i) none) (hbound : s.level < s.maxLevel + spare)
    (hdec : Decided (keysOf decodeKey ts) (decodeKey key)) :
    Updates decodeKey spare s chain (keysOf decodeKey ts) (.remove key) ↔
      (Call.remove key).Fits decodeKey (keysOf decodeKey ts) := by
  have hself := h.remove_eq_self hbound ((decided_keysOf_iff h.ascending).mp hdec)
  rw [Call.Fits, Updates]
  constructor
  · rintro ⟨s', hs', hholds, -⟩
    obtain rfl := Except.ok.inj (hself.symm.trans hs')
    refine ⟨fun hmem => ?_, hdec⟩
    exact ((h.holdsKeys_iff.mp hholds (decodeKey key)).mp hmem).2 rfl
  · rintro ⟨hnot, -⟩
    refine ⟨s, hself, h.holdsKeys_iff.mpr fun k => ?_, fun i => ?_⟩
    · exact ⟨fun hk => ⟨hk, fun heq => hnot (heq ▸ hk)⟩, And.left⟩
    · exact ⟨chain i, hpath i, fun a ha _ => ha⟩

/-- A call that fails updates nothing. -/
theorem not_updates_of_error {keys : List κ} {call : Call Key} {fault : Fault}
    (h : exec decodeKey spare s call = .error fault) :
    ¬ Updates decodeKey spare s chain keys call := by
  cases call with
  | insert coins key =>
    rintro ⟨s', hs', -⟩
    cases hs'.symm.trans h
  | remove key =>
    rintro ⟨s', hs', -⟩
    cases hs'.symm.trans h

/-- **The semantics of `insert` and `remove`**, exactly: the arrays have a slot for the level of
the list, and the call fits. -/
theorem updates_iff (hs : Structured decodeKey s chain keys) (ha : Allocated spare s chain)
    (call : Call Key) : Updates decodeKey spare s chain (keys 0) call ↔
      s.level < s.maxLevel + spare ∧ call.Fits decodeKey (keys 0) := by
  obtain ⟨ts, h, hkeys⟩ := exists_repr hs ha
  rw [← hkeys]
  by_cases hbound : s.level < s.maxLevel + spare
  · rw [and_iff_right hbound]
    by_cases hdec : Decided (keysOf decodeKey ts) (decodeKey call.key)
    · cases call with
      | insert coins key => exact h.insert_updates_iff hbound coins hdec
      | remove key => exact h.remove_updates_iff hs.path hbound hdec
    · -- one key is not below the key of the call: the node behind it is null
      exact iff_of_false (not_updates_of_error (h.exec_eq_nullDeref hbound hdec))
        fun hfits => hdec hfits.decided
  · exact iff_of_false (not_updates_of_error (h.exec_outOfBounds (not_lt.mp hbound)))
      fun hfits => hbound hfits.1

/-- A list of three keys, all on the bottom level alone. -/
def threeNodes (nokey a b c : Key) : SkipList Key where
  maxLevel := 4
  level := 1
  nodes
    | 0 => some { key := nokey, forward := fun i => if i = 0 then some 1 else none, slots := 4 }
    | 1 => some { key := a, forward := fun i => if i = 0 then some 2 else none, slots := 1 }
    | 2 => some { key := b, forward := fun i => if i = 0 then some 3 else none, slots := 1 }
    | 3 => some { key := c, slots := 1 }
    | _ => none
  fresh := 4
  maxLevel_pos := by decide

/-- The first level of a list that has no other. -/
def onBottom {α : Type} (l : List α) : ℕ → List α
  | 0 => l
  | _ + 1 => []

theorem structured_threeNodes {nokey a b c : Key} (hab : decodeKey a < decodeKey b)
    (hbc : decodeKey b < decodeKey c) :
    Structured decodeKey (threeNodes nokey a b c) (onBottom [1, 2, 3])
      (onBottom [decodeKey a, decodeKey b, decodeKey c]) where
  path i := by
    cases i with
    | zero => exact ⟨rfl, rfl, rfl, rfl⟩
    | succ i => rfl
  keys_eq i := by cases i <;> rfl
  ascending i := by
    cases i with
    | zero => simp [onBottom, hab, hbc, hab.trans hbc]
    | succ i => exact .nil
  nodup i := by
    cases i with
    | zero => simp [onBottom, hab.ne, hbc.ne, (hab.trans hbc).ne]
    | succ i => exact .nil
  nested i := List.nil_sublist _

theorem allocated_threeNodes (nokey a b c : Key) :
    Allocated 0 (threeNodes nokey a b c) (onBottom [1, 2, 3]) where
  headNode := ⟨_, rfl, rfl⟩
  node := by
    intro x hx
    have hmem : ∀ i, x ∈ onBottom [1, 2, 3] i ↔ i + 0 < 1 := by
      intro i
      cases i with
      | zero => exact iff_of_true hx (by decide)
      | succ i => exact iff_of_false List.not_mem_nil (by omega)
    have hcases : x = 1 ∨ x = 2 ∨ x = 3 := by simpa [onBottom] using hx
    rcases hcases with rfl | rfl | rfl <;> exact ⟨_, rfl, hmem⟩
  head_lt := Nat.succ_pos 3
  addr_pos := by decide
  addr_lt x hx := by
    have hcases : x = 1 ∨ x = 2 ∨ x = 3 := by simpa [onBottom] using hx
    change x < 4
    omega
  chain_eq_nil i hi := by
    cases i with
    | zero => cases hi
    | succ i => rfl
  level_le := Nat.succ_pos 3

/-- A key above all others is inserted. -/
theorem updates_threeNodes :
    Updates (id : Bytes → Bytes) 0 (threeNodes [] [97] [99] [100]) (onBottom [1, 2, 3])
      [[97], [99], [100]] (.insert [true] [101]) :=
  (updates_iff (structured_threeNodes (by decide) (by decide))
    (allocated_threeNodes [] [97] [99] [100]) (.insert [true] [101])).mpr
    ⟨by decide, .inl (by decide)⟩

/-- A key between others is not: the list stays as it is. -/
theorem not_updates_threeNodes :
    Structured (id : Bytes → Bytes) (threeNodes [] [97] [99] [100]) (onBottom [1, 2, 3])
      (onBottom [[97], [99], [100]]) ∧
    ¬ Updates (id : Bytes → Bytes) 0 (threeNodes [] [97] [99] [100]) (onBottom [1, 2, 3])
      [[97], [99], [100]] (.insert [] [98]) := by
  have hs : Structured (id : Bytes → Bytes) (threeNodes [] [97] [99] [100])
      (onBottom [1, 2, 3]) (onBottom [[97], [99], [100]]) :=
    structured_threeNodes (by decide) (by decide)
  refine ⟨hs, ?_⟩
  rintro ⟨s', hs', bottom, hpath, hkeys⟩
  have hself : (threeNodes [] [97] [99] [100]).insert (id : Bytes → Bytes) 0 [] [98] =
      .ok (threeNodes [] [97] [99] [100]) := rfl
  obtain rfl := Except.ok.inj (hself.symm.trans hs')
  obtain rfl := hpath.unique (hs.path 0)
  exact absurd ((hkeys [98]).mpr (.inr rfl)) (by decide)

/-! ### `search` -/

/-- `search` agrees with a linear scan of the bottom level for the bytes of the query. -/
def SearchAgrees (s : SkipList Bytes) (bottom : List ℕ) (query : Slice) : Prop :=
  ∃ result, s.search SkipList.decodeKey query.cString = .ok result ∧
    (result ≠ none ↔ ∃ a ∈ bottom, s.keyAt SkipList.decodeKey a = some query.data) ∧
    ∀ a ∈ bottom, ∀ n, s.nodes a = some n → SkipList.decodeKey n.key = query.data →
      ∃ e, decodeEntry (some n.key) = .ok e ∧ result = some e.value

/-- **`search` agrees with a linear scan**, exactly: the arrays have a slot for the level of the
list, every key is below the C string at the query's data pointer, and none is the query. -/
theorem searchAgrees_iff {s : SkipList Bytes} {chain : ℕ → List ℕ} {keys : ℕ → List Bytes}
    (hs : Structured SkipList.decodeKey s chain keys) (ha : Allocated spare s chain)
    (query : Slice) : SearchAgrees s (chain 0) query ↔
      s.level < s.maxLevel + spare ∧ (∀ k ∈ keys 0, k < query.cString) ∧
        query.data ∉ keys 0 := by
  obtain ⟨ts, h, hkeys⟩ := exists_repr hs ha
  have hscan : (∃ a ∈ chain 0, s.keyAt SkipList.decodeKey a = some query.data) ↔
      query.data ∈ keys 0 := by
    rw [← List.mem_map, hs.keys_eq, List.mem_map_of_injective fun _ _ heq => Option.some.inj heq]
  by_cases hbound : s.level < s.maxLevel + spare
  · by_cases hall : ∀ k ∈ keys 0, k < query.cString
    · have hnone := h.search_eq_none hbound (forall_mem_keysOf.mp (hkeys ▸ hall))
      constructor
      · rintro ⟨result, hresult, hfound, -⟩
        obtain rfl := Except.ok.inj (hnone.symm.trans hresult)
        refine ⟨hbound, hall, fun hmem => ?_⟩
        exact hfound.mpr (hscan.mpr hmem) rfl
      · rintro ⟨-, -, hnot⟩
        refine ⟨none, hnone, iff_of_false (· rfl) (mt hscan.mp hnot), fun a ha n hn hkey => ?_⟩
        exact absurd (hscan.mp ⟨a, ha, by simp [keyAt, hn, hkey]⟩) hnot
    · refine iff_of_false ?_ fun hcond => hall hcond.2.1
      rintro ⟨result, hresult, -⟩
      push Not at hall
      obtain ⟨k, hk, hle⟩ := hall
      rw [← hkeys] at hk
      obtain ⟨t, ht, rfl⟩ := List.mem_map.mp hk
      cases hresult.symm.trans (h.search_eq_nullDeref hbound ht hle)
  · refine iff_of_false ?_ fun hcond => hbound hcond.1
    rintro ⟨result, hresult, -⟩
    cases hresult.symm.trans (h.search_outOfBounds (not_lt.mp hbound))

/-- An entry with a key of one byte: sequence number and type 1, and the value `x`. -/
def oneByteEntry (key : UInt8) : Bytes :=
  [1, 0, 0, 0, key, 1, 1, 0, 0, 0, 0, 0, 0, 1, 0, 0, 0, 120]

/-- The entries `a`, `b` and `c`. -/
def threeEntries : SkipList Bytes :=
  threeNodes [] (oneByteEntry 97) (oneByteEntry 98) (oneByteEntry 99)

theorem structured_threeEntries : Structured SkipList.decodeKey threeEntries
    (onBottom [1, 2, 3]) (onBottom [[97], [98], [99]]) :=
  structured_threeNodes (by decide) (by decide)

/-- A query above all keys finds nothing. -/
theorem searchAgrees_threeEntries :
    SearchAgrees threeEntries [1, 2, 3] ⟨[100], [], by decide⟩ :=
  (searchAgrees_iff structured_threeEntries (allocated_threeNodes ..)
    ⟨[100], [], by decide⟩).mpr ⟨by decide, by decide, by decide⟩

/-- A query for the entry in the middle compares with the one behind it, and then decodes the null
data pointer of the local slice. -/
theorem not_searchAgrees_threeEntries :
    Structured SkipList.decodeKey threeEntries (onBottom [1, 2, 3])
      (onBottom [[97], [98], [99]]) ∧
    threeEntries.search SkipList.decodeKey (Slice.cString ⟨[98], [], by decide⟩) =
      .error .nullDeref ∧
    ¬ SearchAgrees threeEntries [1, 2, 3] ⟨[98], [], by decide⟩ := by
  have hnull : threeEntries.search SkipList.decodeKey (Slice.cString ⟨[98], [], by decide⟩) =
      .error .nullDeref := rfl
  refine ⟨structured_threeEntries, hnull, ?_⟩
  rintro ⟨result, hresult, -⟩
  cases hnull.symm.trans hresult

end SkipList

end TinyLeveldb
