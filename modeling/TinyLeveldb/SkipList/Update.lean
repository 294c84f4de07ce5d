import TinyLeveldb.SkipList.Towers

/-!
# What `insert`, `remove` and `search` do to a represented list

The outcome of every operation on a represented list depends only on the towers that are not
below its key:

* none: `insert` splices a new tower in behind all others (`Repr.insert_of_all_lt`);
* exactly one: the test behind the descent reads the key of the tower after it, and there is
  none, so the operation dereferences a null pointer (`Repr.insert_eq_nullDeref`);
* two or more: the tower after the first is above the key, so nothing happens
  (`Repr.insert_eq_self`).

`remove` agrees in the last two cases and does nothing in the first one; `search` dereferences
a null pointer wherever a tower is not below the key.
-/

namespace TinyLeveldb

open Library

namespace SkipList

variable {Key κ : Type}

/-! ### Pointer writes -/

/-- Two heaps that differ in `forward` pointers only. -/
structure SameShape (s s' : SkipList Key) : Prop where
  maxLevel : s'.maxLevel = s.maxLevel
  level : s'.level = s.level
  fresh : s'.fresh = s.fresh
  nodes : ∀ a, (s'.nodes a).map (fun n => (n.key, n.slots)) =
    (s.nodes a).map fun n => (n.key, n.slots)

theorem SameShape.refl (s : SkipList Key) : SameShape s s := ⟨rfl, rfl, rfl, fun _ => rfl⟩

theorem SameShape.trans {s t u : SkipList Key} (h₁ : SameShape s t) (h₂ : SameShape t u) :
    SameShape s u :=
  ⟨h₂.maxLevel.trans h₁.maxLevel, h₂.level.trans h₁.level, h₂.fresh.trans h₁.fresh,
    fun a => (h₂.nodes a).trans (h₁.nodes a)⟩

/-- A node keeps its key and its slots. -/
theorem SameShape.node {s s' : SkipList Key} (h : SameShape s s') {a : ℕ} {n : Node Key}
    (hn : s.nodes a = some n) :
    ∃ n', s'.nodes a = some n' ∧ n'.key = n.key ∧ n'.slots = n.slots := by
  have hmap := h.nodes a
  rw [hn] at hmap
  obtain ⟨n', hn', heq⟩ := Option.map_eq_some_iff.mp hmap
  exact ⟨n', hn', congrArg Prod.fst heq, congrArg Prod.snd heq⟩

/-- Writing one `forward` pointer updates one level's successor function at one node. -/
theorem setForward_spec {s : SkipList Key} {a i : ℕ} {n : Node Key} (hn : s.nodes a = some n)
    (hi : i < n.slots) (q : Pointer ℕ) :
    ∃ s', s.setForward (some a) i q = .ok s' ∧ SameShape s s' ∧
      ∀ j, s'.fwd j = if j = i then Function.update (s.fwd i) a q else s.fwd j := by
  refine ⟨s.store a { n with forward := Function.update n.forward i q },
    by simp [setForward, hn, hi], ⟨rfl, rfl, rfl, fun b => ?_⟩, fun j => ?_⟩
  · rcases eq_or_ne b a with rfl | hb
    · simp [store, hn]
    · simp [store, Function.update_of_ne hb]
  · funext b
    rcases eq_or_ne b a with rfl | hb
    · rcases eq_or_ne j i with rfl | hj
      · simp [fwd, store]
      · simp [fwd, store, hn, hj]
    · rcases eq_or_ne j i with rfl | hj
      · simp [fwd, store, Function.update_of_ne hb]
      · simp [fwd, store, Function.update_of_ne hb, hj]

/-! ### Splicing -/

theorem foldlM_setUpdate {size : ℕ} (p : Pointer ℕ) (n : ℕ) :
    ∀ (a : ℕ) (update : UpdateVector), a + n ≤ size →
      (List.range' a n).foldlM (fun update i => setUpdate size update i p) update =
        .ok fun i => if a ≤ i ∧ i < a + n then p else update i := by
  induction n with
  | zero =>
    intro a update _
    have : (fun i => if a ≤ i ∧ i < a + 0 then p else update i) = update :=
      funext fun i => if_neg (by omega)
    rw [this]
    rfl
  | succ n ih =>
    intro a update hsize
    rw [List.range'_succ, List.foldlM_cons, setUpdate, if_pos (by omega), ok_bind,
      ih (a + 1) _ (by omega)]
    congr 1
    funext i
    rcases eq_or_ne i a with rfl | hia
    · simp
    · have : (a + 1 ≤ i ∧ i < a + 1 + n) ↔ (a ≤ i ∧ i < a + (n + 1)) := by omega
      rw [Function.update_of_ne hia, if_congr this rfl rfl]

/-- One round of the splicing loop, at the cell `p` that `update` holds for the level. -/
theorem spliceLevel_spec {spare : ℕ} {s : SkipList Key} {update : UpdateVector}
    {new p i : ℕ} {m n : Node Key} (hi : i < s.maxLevel + spare) (hup : update i = some p)
    (hm : s.nodes p = some m) (hmi : i < m.slots) (hn : s.nodes new = some n)
    (hni : i < n.slots) :
    ∃ s', spliceLevel spare update new s i = .ok s' ∧ SameShape s s' ∧
      ∀ j, s'.fwd j = if j = i then
        Function.update (Function.update (s.fwd i) new (s.fwd i p)) p (some new)
        else s.fwd j := by
  obtain ⟨t, ht, hst, hfwd⟩ := setForward_spec hn hni (s.fwd i p)
  obtain ⟨m', hm', -, hslots⟩ := hst.node hm
  obtain ⟨s', hs', hts, hfwd'⟩ := setForward_spec hm' (hslots ▸ hmi) (some new)
  refine ⟨s', ?_, hst.trans hts, fun j => ?_⟩
  · simp only [spliceLevel, getUpdate, if_pos hi, hup, ok_bind, getForward_eq hm hmi, ht, hs']
  · rw [hfwd']
    split_ifs with hj
    · rw [hfwd, if_pos rfl]
    · rw [hfwd, if_neg hj]

/-- The splicing loop links the new node behind `p i` on every level `i < n`. -/
theorem foldlM_spliceLevel {spare : ℕ} {s : SkipList Key} {update : UpdateVector} {new : ℕ}
    {p : ℕ → ℕ} {node : Node Key} {n : ℕ} (hn : n ≤ s.maxLevel + spare)
    (hnode : s.nodes new = some node) (hslots : n ≤ node.slots)
    (hup : ∀ i < n, update i = some (p i))
    (hp : ∀ i < n, ∃ m, s.nodes (p i) = some m ∧ i < m.slots) :
    ∃ s', (List.range n).foldlM (spliceLevel spare update new) s = .ok s' ∧ SameShape s s' ∧
      ∀ j, s'.fwd j = if j < n then
        Function.update (Function.update (s.fwd j) new (s.fwd j (p j))) (p j) (some new)
        else s.fwd j := by
  induction n with
  | zero => exact ⟨s, rfl, SameShape.refl s, fun j => by simp⟩
  | succ n ih =>
    obtain ⟨t, ht, hshape, hfwd⟩ := ih (by omega) (by omega) (fun i hi => hup i (by omega))
      fun i hi => hp i (by omega)
    obtain ⟨m, hm, hmn⟩ := hp n (by omega)
    obtain ⟨m', hm', -, hm'slots⟩ := hshape.node hm
    obtain ⟨node', hnode', -, hslots'⟩ := hshape.node hnode
    have hnt : n < t.maxLevel + spare := by
      rw [hshape.maxLevel]
      omega
    obtain ⟨s', hs', hshape', hfwd'⟩ := spliceLevel_spec hnt (hup n (by omega)) hm' (by omega)
      hnode' (by omega)
    refine ⟨s', ?_, hshape.trans hshape', fun j => ?_⟩
    · simp only [List.range_succ, List.foldlM_append, ht, ok_bind, List.foldlM_cons, hs',
        List.foldlM_nil, pure, Except.pure]
    · rw [hfwd']
      rcases Nat.lt_trichotomy j n with hj | rfl | hj
      · rw [if_neg hj.ne, hfwd, if_pos hj, if_pos (by omega)]
      · rw [if_pos rfl, hfwd, if_neg (lt_irrefl j), if_pos (by omega)]
      · rw [if_neg hj.ne', hfwd, if_neg (by omega), if_neg (by omega)]

/-! ### The operations on a represented list -/

variable [LinearOrder κ] {decodeKey : Key → κ} {spare : ℕ} {s : SkipList Key}
  {ts : List (Tower Key)}

/-- The update vector of a splice holds `pred` on every level of the new node: above the list's
level `pred` is the head. -/
theorem Repr.fillUpdate_spec (h : Repr decodeKey spare s ts) {target : κ} {newLevel : ℕ}
    (hmax : newLevel ≤ s.maxLevel) {update : UpdateVector}
    (hup : ∀ i < s.level + 1, update i = some (pred decodeKey ts target i)) :
    ∃ update', s.fillUpdate spare newLevel update = .ok update' ∧
      ∀ i < newLevel, update' i = some (pred decodeKey ts target i) := by
  rw [fillUpdate]
  split_ifs with hgt
  · refine ⟨_, foldlM_setUpdate (some head) _ _ update (by omega), fun i hi => ?_⟩
    rcases Nat.lt_or_ge i (s.level + 1) with hil | hil
    · simp [hup i hil, show ¬ s.level + 1 ≤ i by omega]
    · have hin : s.level + 1 ≤ i ∧ i < s.level + 1 + (newLevel - (s.level + 1)) := by omega
      simp [hin, h.pred_of_level_lt (show s.level < i by omega)]
  · -- no higher than the list: the descent filled every slot that is needed
    exact ⟨update, rfl, fun i hi => hup i (by omega)⟩

/-- The address of the next node is on no level. -/
theorem Repr.fresh_notMem (h : Repr decodeKey spare s ts) (i : ℕ) :
    s.fresh ∉ head :: addrs (reaching i ts) := by
  intro hmem
  rcases List.mem_cons.mp hmem with heq | hmem
  · have := h.length_lt
    rw [heq] at this
    exact absurd this (Nat.not_lt_zero _)
  · obtain ⟨t, ht, hta⟩ := List.mem_map.mp hmem
    exact absurd (h.addr_lt t (mem_reaching.mp ht).1) (by omega)

theorem Repr.nodup_level (h : Repr decodeKey spare s ts) (i : ℕ) :
    (head :: addrs (reaching i ts)).Nodup := by
  refine List.nodup_cons.mpr ⟨fun hmem => ?_,
    h.nodup.sublist (List.filter_sublist.map Tower.addr)⟩
  obtain ⟨t, ht, hta⟩ := List.mem_map.mp hmem
  exact absurd (h.addr_pos t (mem_reaching.mp ht).1) (by omega)

/-- A level of the list with the new tower: the tower is linked behind the last one where it
reaches the level, and elsewhere the level is as it was. -/
theorem Repr.chain_append (h : Repr decodeKey spare s ts) (key : Key) (newLevel i : ℕ)
    {f : ℕ → Pointer ℕ}
    (hf : f = if i < newLevel then
      Function.update (Function.update (Function.update (s.fwd i) s.fresh none) s.fresh
        (Function.update (s.fwd i) s.fresh none ((addrs (reaching i ts)).getLastD head)))
        ((addrs (reaching i ts)).getLastD head) (some s.fresh)
      else Function.update (s.fwd i) s.fresh none) :
    Path f head (addrs (reaching i (ts ++ [⟨s.fresh, key, newLevel⟩]))) none := by
  have hpath : Path (Function.update (s.fwd i) s.fresh none) head
      (addrs (reaching i ts) ++ []) none := by
    rw [List.append_nil]
    exact (h.chain i).update_of_notMem (h.fresh_notMem i) none
  rw [hf, reaching_append]
  split_ifs with hi
  · have hreach : reaching i [(⟨s.fresh, key, newLevel⟩ : Tower Key)] =
        [⟨s.fresh, key, newLevel⟩] := by simp [reaching, hi]
    have haddrs : addrs (reaching i ts ++ [(⟨s.fresh, key, newLevel⟩ : Tower Key)]) =
        addrs (reaching i ts) ++ [s.fresh] := List.map_append
    rw [hreach, haddrs]
    exact hpath.splice (by simpa using h.nodup_level i) (by simpa using h.fresh_notMem i)
  · have hreach : reaching i [(⟨s.fresh, key, newLevel⟩ : Tower Key)] = [] :=
      reaching_eq_nil (by simpa using Nat.not_lt.mp hi)
    rw [hreach, List.append_nil]
    simpa using hpath

/-- A heap that has one more node, above all others and linked on its levels, holds one more
tower. -/
theorem Repr.append (h : Repr decodeKey spare s ts) {s' : SkipList Key} {key : Key}
    {newLevel : ℕ} (hlt : ∀ t ∈ ts, decodeKey t.key < decodeKey key) (hpos : 1 ≤ newLevel)
    (hmax : newLevel ≤ s.maxLevel) (hmaxLevel : s'.maxLevel = s.maxLevel)
    (hlevel : s'.level = max s.level newLevel) (hfresh : s'.fresh = s.fresh + 1)
    (hkept : ∀ a, a ≠ s.fresh → ∀ n, s.nodes a = some n →
      ∃ n', s'.nodes a = some n' ∧ n'.key = n.key ∧ n'.slots = n.slots)
    (hnew : ∃ n, s'.nodes s.fresh = some n ∧ n.key = key ∧ n.slots = newLevel + spare)
    (hchain : ∀ i, Path (s'.fwd i) head (addrs (reaching i (ts ++ [⟨s.fresh, key, newLevel⟩])))
      none) :
    Repr decodeKey spare s' (ts ++ [⟨s.fresh, key, newLevel⟩]) where
  headNode := by
    obtain ⟨n, hn, hslots⟩ := h.headNode
    obtain ⟨n', hn', -, hslots'⟩ := hkept head
      (fun heq => h.fresh_notMem 0 (heq ▸ List.mem_cons_self)) n hn
    exact ⟨n', hn', by rw [hslots', hslots, hmaxLevel]⟩
  node t ht := by
    rcases List.mem_append.mp ht with ht | ht
    · obtain ⟨n, hn, hkey, hslots⟩ := h.node t ht
      obtain ⟨n', hn', hkey', hslots'⟩ := hkept t.addr (h.addr_lt t ht).ne n hn
      exact ⟨n', hn', hkey'.trans hkey, hslots'.trans hslots⟩
    · obtain rfl := List.mem_singleton.mp ht
      exact hnew
  chain := hchain
  ascending := by
    refine List.pairwise_append.mpr ⟨h.ascending, List.pairwise_singleton _ _, ?_⟩
    intro t ht u hu
    obtain rfl := List.mem_singleton.mp hu
    exact hlt t ht
  nodup := by
    rw [addrs, List.map_append, List.nodup_append']
    refine ⟨h.nodup, List.nodup_singleton _, fun a ha hb => ?_⟩
    obtain ⟨t, ht, rfl⟩ := List.mem_map.mp ha
    exact absurd (h.addr_lt t ht) (by simpa using (List.mem_singleton.mp hb).ge)
  addr_pos t ht := by
    rcases List.mem_append.mp ht with ht | ht
    · exact h.addr_pos t ht
    · obtain rfl := List.mem_singleton.mp ht
      exact lt_of_le_of_lt (Nat.zero_le _) h.length_lt
  addr_lt t ht := by
    rw [hfresh]
    rcases List.mem_append.mp ht with ht | ht
    · exact (h.addr_lt t ht).trans (Nat.lt_succ_self _)
    · obtain rfl := List.mem_singleton.mp ht
      exact Nat.lt_succ_self _
  length_lt := by
    have := h.length_lt
    rw [hfresh, List.length_append, List.length_singleton]
    omega
  height_pos t ht := by
    rcases List.mem_append.mp ht with ht | ht
    · exact h.height_pos t ht
    · obtain rfl := List.mem_singleton.mp ht
      exact hpos
  height_le t ht := by
    rw [hlevel]
    rcases List.mem_append.mp ht with ht | ht
    · exact (h.height_le t ht).trans (Nat.succ_le_succ (le_max_left _ _))
    · obtain rfl := List.mem_singleton.mp ht
      exact (le_max_right _ _).trans (Nat.le_succ _)
  level_le := by
    rw [hlevel, hmaxLevel]
    exact max_le h.level_le hmax

/-- Splicing in a key above all others adds its tower at the end. -/
theorem Repr.splice_spec (h : Repr decodeKey spare s ts) {key : Key}
    (hlt : ∀ t ∈ ts, decodeKey t.key < decodeKey key) (coins : List Bool)
    (update : UpdateVector)
    (hup : ∀ i < s.level + 1, update i = some (pred decodeKey ts (decodeKey key) i)) :
    ∃ s', s.splice spare coins key update = .ok s' ∧
      Repr decodeKey spare s' (ts ++ [⟨s.fresh, key, randomLevel s.maxLevel coins⟩]) ∧
      s'.maxLevel = s.maxLevel ∧ s'.level = max s.level (randomLevel s.maxLevel coins) := by
  set newLevel := randomLevel s.maxLevel coins with hnewLevel
  obtain ⟨hpos, hmax⟩ := randomLevel_mem s.maxLevel_pos coins
  rw [← hnewLevel] at hpos hmax
  obtain ⟨update', hupdate', hup'⟩ := h.fillUpdate_spec hmax hup
  -- the heap with the new node, not linked yet
  set level' := if newLevel > s.level then newLevel else s.level with hlevel'
  set node : Node Key := { key := key, slots := newLevel + spare } with hnodedef
  set s₁ : SkipList Key := ({ s with level := level', fresh := s.fresh + 1 } :
    SkipList Key).store s.fresh node with hs₁
  have hnew : s₁.nodes s.fresh = some node := by simp [hs₁, store]
  have hold : ∀ a, a ≠ s.fresh → s₁.nodes a = s.nodes a := fun a ha => by
    simp [hs₁, store, Function.update_of_ne ha]
  have hfwd₁ : ∀ i, s₁.fwd i = Function.update (s.fwd i) s.fresh none := by
    intro i
    funext a
    rcases eq_or_ne a s.fresh with rfl | ha
    · simp [fwd, hnew, hnodedef]
    · simp [fwd, hold a ha, Function.update_of_ne ha]
  -- all towers are below the key, so `pred` is the last one of each level
  have hpred : ∀ i, pred decodeKey ts (decodeKey key) i =
      (addrs (reaching i ts)).getLastD head := fun i => by
    rw [pred, belowTarget_eq_self hlt]
  have hp : ∀ i < newLevel, ∃ m,
      s₁.nodes (pred decodeKey ts (decodeKey key) i) = some m ∧ i < m.slots := by
    intro i hi
    have hmem : pred decodeKey ts (decodeKey key) i ∈ head :: addrs (reaching i ts) := by
      rw [hpred]
      exact List.getLastD_mem_cons
    rw [hold _ fun heq => h.fresh_notMem i (heq ▸ hmem), hpred]
    exact h.exists_node_getLastD (List.Subset.refl ts) le_rfl (by omega)
  have hmax₁ : newLevel ≤ s₁.maxLevel + spare := by
    change newLevel ≤ s.maxLevel + spare
    omega
  obtain ⟨s', hs', hshape, hfwd'⟩ := foldlM_spliceLevel hmax₁ hnew (by simp [hnodedef]) hup' hp
  have hlevel : s'.level = max s.level newLevel := by
    rw [hshape.level, show s₁.level = level' from rfl, hlevel']
    split_ifs with hgt <;> omega
  refine ⟨s', ?_, ?_, hshape.maxLevel, hlevel⟩
  · simp only [splice, ← hnewLevel, hupdate', ok_bind]
    exact hs'
  · refine h.append hlt hpos hmax hshape.maxLevel hlevel hshape.fresh
      (fun a ha n hn => hshape.node ((hold a ha).trans hn)) (hshape.node hnew) fun i => ?_
    exact h.chain_append key newLevel i (by rw [hfwd', hfwd₁, hpred])

/-- The descent every operation starts with, from the head at the list's level. -/
theorem Repr.descend_head (h : Repr decodeKey spare s ts) (hbound : s.level < s.maxLevel + spare)
    (target : κ) :
    s.descend decodeKey spare target (s.level + 1) head (fun _ => none) =
      .ok (pred decodeKey ts target 0, fun i =>
        if i < s.level + 1 then some (pred decodeKey ts target i) else none) := by
  have := h.descend_eq target (n := s.level + 1) hbound fun _ => none
  rwa [h.pred_of_level_lt (Nat.lt_succ_self s.level)] at this

/-- Without a slot for the list's level the first access of any descent is out of bounds. -/
theorem Repr.advance_outOfBounds (h : Repr decodeKey spare s ts)
    (hbound : s.maxLevel + spare ≤ s.level) (target : κ) :
    s.advance decodeKey target s.level s.fresh head = .error .outOfBounds := by
  obtain ⟨n, hn, hslots⟩ := h.headNode
  obtain ⟨fuel, hfuel⟩ : ∃ f, s.fresh = f + 1 := ⟨s.fresh - 1, by have := h.length_lt; omega⟩
  rw [hfuel, advance, getForward_outOfBounds hn (by omega), error_bind]

/-- The test behind the descent, on the first of the towers not below the key. -/
theorem Repr.nextIsBelow_eq (h : Repr decodeKey spare s ts) {target : κ} {t : Tower Key}
    {us : List (Tower Key)} (hfrom : fromTarget decodeKey ts target = t :: us) :
    s.nextIsBelow decodeKey target t.addr =
      if us = [] then .error .nullDeref else .ok false := by
  have hts : ts = belowTarget decodeKey ts target ++ t :: us := by
    rw [← hfrom, belowTarget_append_fromTarget _ _ _]
  rw [nextIsBelow, h.getForward_tower hts, ok_bind]
  cases us with
  | nil => rfl
  | cons u us =>
    obtain ⟨n, hn, hkey, -⟩ := h.node u (by rw [hts]; simp)
    have hle : target ≤ decodeKey u.key :=
      le_of_mem_fromTarget h.ascending (by rw [hfrom]; simp)
    simp [deref_some hn, hkey, not_lt.mpr hle]

section Insert

variable {key : Key} (coins : List Bool)

/-- **`insert` of a key above all others** adds its tower at the end. -/
theorem Repr.insert_of_all_lt (h : Repr decodeKey spare s ts)
    (hbound : s.level < s.maxLevel + spare)
    (hlt : ∀ t ∈ ts, decodeKey t.key < decodeKey key) :
    ∃ s', s.insert decodeKey spare coins key = .ok s' ∧
      Repr decodeKey spare s' (ts ++ [⟨s.fresh, key, randomLevel s.maxLevel coins⟩]) ∧
      s'.maxLevel = s.maxLevel ∧ s'.level = max s.level (randomLevel s.maxLevel coins) := by
  obtain ⟨s', hs', hrest⟩ := h.splice_spec hlt coins
    (fun i => if i < s.level + 1 then some (pred decodeKey ts (decodeKey key) i) else none)
    fun i hi => if_pos hi
  refine ⟨s', ?_, hrest⟩
  rw [insert, h.descend_head hbound, ok_bind]
  simp only [h.getForward_pred (show 0 < s.maxLevel + spare by omega), ok_bind,
    fromTarget_eq_nil_iff.mpr hlt]
  exact hs'

/-- **`insert` of a key with exactly one tower not below it** dereferences a null pointer. -/
theorem Repr.insert_eq_nullDeref (h : Repr decodeKey spare s ts)
    (hbound : s.level < s.maxLevel + spare) {t : Tower Key}
    (hfrom : fromTarget decodeKey ts (decodeKey key) = [t]) :
    s.insert decodeKey spare coins key = .error .nullDeref := by
  rw [insert, h.descend_head hbound, ok_bind]
  simp only [h.getForward_pred (show 0 < s.maxLevel + spare by omega), ok_bind, hfrom,
    List.head?_cons, Option.map_some, h.nextIsBelow_eq hfrom, if_true, error_bind]

/-- **`insert` of a key with two or more towers not below it** changes nothing. -/
theorem Repr.insert_eq_self (h : Repr decodeKey spare s ts)
    (hbound : s.level < s.maxLevel + spare) {t u : Tower Key} {us : List (Tower Key)}
    (hfrom : fromTarget decodeKey ts (decodeKey key) = t :: u :: us) :
    s.insert decodeKey spare coins key = .ok s := by
  rw [insert, h.descend_head hbound, ok_bind]
  simp only [h.getForward_pred (show 0 < s.maxLevel + spare by omega), ok_bind, hfrom,
    List.head?_cons, Option.map_some, h.nextIsBelow_eq hfrom, reduceCtorEq, if_false]

theorem Repr.insert_outOfBounds (h : Repr decodeKey spare s ts)
    (hbound : s.maxLevel + spare ≤ s.level) :
    s.insert decodeKey spare coins key = .error .outOfBounds := by
  rw [insert, descend, h.advance_outOfBounds hbound, error_bind, error_bind]

end Insert

section Remove

variable {key : Key}

/-- **`remove`** changes nothing unless exactly one tower is not below the key. -/
theorem Repr.remove_eq_self (h : Repr decodeKey spare s ts)
    (hbound : s.level < s.maxLevel + spare)
    (hfrom : (fromTarget decodeKey ts (decodeKey key)).length ≠ 1) :
    s.remove decodeKey spare key = .ok s := by
  rw [remove, h.descend_head hbound, ok_bind]
  simp only [h.getForward_pred (show 0 < s.maxLevel + spare by omega), ok_bind]
  cases hd : fromTarget decodeKey ts (decodeKey key) with
  | nil => rfl
  | cons t us =>
    have hus : us ≠ [] := fun hnil => by simp [hd, hnil] at hfrom
    simp only [List.head?_cons, Option.map_some, h.nextIsBelow_eq hd, if_neg hus, ok_bind]
    rfl

/-- Then it dereferences a null pointer. -/
theorem Repr.remove_eq_nullDeref (h : Repr decodeKey spare s ts)
    (hbound : s.level < s.maxLevel + spare) {t : Tower Key}
    (hfrom : fromTarget decodeKey ts (decodeKey key) = [t]) :
    s.remove decodeKey spare key = .error .nullDeref := by
  rw [remove, h.descend_head hbound, ok_bind]
  simp only [h.getForward_pred (show 0 < s.maxLevel + spare by omega), ok_bind, hfrom,
    List.head?_cons, Option.map_some, h.nextIsBelow_eq hfrom, if_true, error_bind]

theorem Repr.remove_outOfBounds (h : Repr decodeKey spare s ts)
    (hbound : s.maxLevel + spare ≤ s.level) :
    s.remove decodeKey spare key = .error .outOfBounds := by
  rw [remove, descend, h.advance_outOfBounds hbound, error_bind, error_bind]

end Remove

section Search

variable {target : κ}

/-- **`search`** finds nothing when every tower is below the target. -/
theorem Repr.search_eq_none (h : Repr decodeKey spare s ts)
    (hbound : s.level < s.maxLevel + spare) (hlt : ∀ t ∈ ts, decodeKey t.key < target) :
    s.search decodeKey target = .ok none := by
  have hseek := h.seek_eq target (n := s.level + 1) hbound
  rw [h.pred_of_level_lt (Nat.lt_succ_self s.level)] at hseek
  rw [search, hseek, ok_bind, h.getForward_pred (by omega), fromTarget_eq_nil_iff.mpr hlt]
  rfl

/-- Otherwise it dereferences a null pointer: there is no tower after the one it found, or
`DecodeEntry` runs on the null data pointer of the slice it was given. -/
theorem Repr.search_eq_nullDeref (h : Repr decodeKey spare s ts)
    (hbound : s.level < s.maxLevel + spare) {t : Tower Key} (ht : t ∈ ts)
    (hle : target ≤ decodeKey t.key) : s.search decodeKey target = .error .nullDeref := by
  have hseek := h.seek_eq target (n := s.level + 1) hbound
  rw [h.pred_of_level_lt (Nat.lt_succ_self s.level)] at hseek
  rw [search, hseek, ok_bind, h.getForward_pred (by omega)]
  cases hd : fromTarget decodeKey ts target with
  | nil => exact absurd (fromTarget_eq_nil_iff.mp hd t ht) (not_lt.mpr hle)
  | cons u us =>
    have hts : ts = belowTarget decodeKey ts target ++ u :: us := by
      rw [← hd, belowTarget_append_fromTarget _ _ _]
    simp only [List.head?_cons, Option.map_some, ok_bind, h.getForward_tower hts]
    cases us with
    | nil => rfl
    | cons v us =>
      obtain ⟨n, hn, hkey, -⟩ := h.node v (by rw [hts]; simp)
      -- the tower after the one found is strictly above the target
      have huv : decodeKey u.key < decodeKey v.key := by
        have hasc := hts ▸ h.ascending
        exact (List.pairwise_cons.mp (List.pairwise_append.mp hasc).2.1).1 v (by simp)
      have hlt : target < decodeKey v.key :=
        (le_of_mem_fromTarget h.ascending (by rw [hd]; simp)).trans_lt huv
      simp [deref_some hn, hkey, hlt.ne', decodeEntry]

theorem Repr.search_outOfBounds (h : Repr decodeKey spare s ts)
    (hbound : s.maxLevel + spare ≤ s.level) :
    s.search decodeKey target = .error .outOfBounds := by
  rw [search, seek, h.advance_outOfBounds hbound, error_bind, error_bind]

end Search

end SkipList

end TinyLeveldb
