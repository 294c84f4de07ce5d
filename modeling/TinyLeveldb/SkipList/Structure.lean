import TinyLeveldb.SkipList.Update
import TinyLeveldb.Library.Records

/-!
# The structure of a skip list over runs of `insert` and `remove`

`Structured` is the shape a skip list is meant to keep: every level's chain from the head is
strictly ascending, and each chain is a sublist of the one below it. A represented list has
it, so every completed run ends in it.

Not every run completes. `insert` keeps the records of the keys it is given, and an operation
whose key has exactly one key of the list at or above it dereferences a null pointer. In terms
of the keys inserted before, the operation completes exactly when its key is `Decided` by
them; over a whole run this is `calls_keepStructure_iff`.
-/

namespace TinyLeveldb

open Library

namespace SkipList

variable {Key κ : Type} [LinearOrder κ]

/-- The key at an address. -/
def keyAt (decodeKey : Key → κ) (s : SkipList Key) (a : ℕ) : Option κ :=
  (s.nodes a).map fun n => decodeKey n.key

/-- The levels' chains are `chain i`, with keys `keys i`: strictly ascending, without a key
twice, and nested. -/
structure Structured (decodeKey : Key → κ) (s : SkipList Key) (chain : ℕ → List ℕ)
    (keys : ℕ → List κ) : Prop where
  path : ∀ i, Path (s.fwd i) head (chain i) none
  keys_eq : ∀ i, (chain i).map (s.keyAt decodeKey) = (keys i).map some
  ascending : ∀ i, (keys i).Pairwise (· < ·)
  nodup : ∀ i, (keys i).Nodup
  nested : ∀ i, (chain (i + 1)).Sublist (chain i)

/-- A represented list is structured. -/
theorem Repr.structured {decodeKey : Key → κ} {spare : ℕ} {s : SkipList Key}
    {ts : List (Tower Key)} (h : Repr decodeKey spare s ts) :
    Structured decodeKey s (fun i => addrs (reaching i ts))
      fun i => (reaching i ts).map fun t => decodeKey t.key where
  path := h.chain
  keys_eq i := by
    rw [List.map_map, List.map_map]
    refine List.map_congr_left fun t ht => ?_
    obtain ⟨n, hn, hkey, -⟩ := h.node t (mem_reaching.mp ht).1
    simp [keyAt, hn, hkey]
  ascending i := List.pairwise_map.mpr (h.ascending.sublist List.filter_sublist)
  nodup i := by
    have hasc : ((reaching i ts).map fun t => decodeKey t.key).Pairwise (· < ·) :=
      List.pairwise_map.mpr (h.ascending.sublist List.filter_sublist)
    exact hasc.imp fun hlt => hlt.ne
  nested i := (reaching_succ_sublist i ts).map Tower.addr

/-! ### The keys decide the outcome -/

section Decided

variable {decodeKey : Key → κ} {ts : List (Tower Key)} {target : κ}

/-- The keys of towers. -/
def keysOf (decodeKey : Key → κ) (ts : List (Tower Key)) : List κ :=
  ts.map fun t => decodeKey t.key

omit [LinearOrder κ] in
theorem forall_mem_keysOf {p : κ → Prop} :
    (∀ k ∈ keysOf decodeKey ts, p k) ↔ ∀ t ∈ ts, p (decodeKey t.key) := by
  simp [keysOf]

/-- A target with exactly one tower at or above it is the undecided one. -/
theorem decided_keysOf_iff (hs : ts.Pairwise fun t u => decodeKey t.key < decodeKey u.key) :
    Decided (keysOf decodeKey ts) target ↔ (fromTarget decodeKey ts target).length ≠ 1 := by
  have hts := belowTarget_append_fromTarget decodeKey ts target
  constructor
  · rintro (hall | ⟨x, hx, y, hy, htx, hxy⟩) hlen
    · rw [fromTarget_eq_nil_iff.mpr (forall_mem_keysOf.mp hall)] at hlen
      exact absurd hlen (by simp)
    · obtain ⟨t, hfrom⟩ := List.length_eq_one_iff.mp hlen
      -- both witnesses would have to be the one tower that is not below the target
      have hkey : ∀ k ∈ keysOf decodeKey ts, target ≤ k → k = decodeKey t.key := by
        intro k hk hle
        obtain ⟨u, hu, rfl⟩ := List.mem_map.mp hk
        rw [← hts, hfrom] at hu
        rcases List.mem_append.mp hu with hu | hu
        · exact absurd (lt_of_mem_belowTarget hu) (not_lt.mpr hle)
        · rw [List.mem_singleton.mp hu]
      have hxeq := hkey x hx htx
      have hyeq := hkey y hy (htx.trans hxy.le)
      exact hxy.ne (hxeq.trans hyeq.symm)
  · intro hlen
    cases hfrom : fromTarget decodeKey ts target with
    | nil => exact Or.inl (forall_mem_keysOf.mpr (fromTarget_eq_nil_iff.mp hfrom))
    | cons t us =>
      cases us with
      | nil => exact absurd (by simp [hfrom]) hlen
      | cons u us =>
        right
        rw [hfrom] at hts
        have hasc := hts ▸ hs
        refine ⟨decodeKey t.key, List.mem_map.mpr ⟨t, by rw [← hts]; simp, rfl⟩,
          decodeKey u.key, List.mem_map.mpr ⟨u, by rw [← hts]; simp, rfl⟩, ?_, ?_⟩
        · exact le_of_mem_fromTarget hs (by rw [hfrom]; simp)
        · exact (List.pairwise_cons.mp (List.pairwise_append.mp hasc).2.1).1 u (by simp)

end Decided

/-- One tower at or above the target, as its list. -/
theorem exists_fromTarget_eq_singleton {decodeKey : Key → κ} {ts : List (Tower Key)}
    {target : κ} (hs : ts.Pairwise fun t u => decodeKey t.key < decodeKey u.key)
    (h : ¬ Decided (keysOf decodeKey ts) target) :
    ∃ t, fromTarget decodeKey ts target = [t] := by
  rw [decided_keysOf_iff hs, not_not] at h
  exact List.length_eq_one_iff.mp h

/-- **Step lemma for `insert`**: with a slot for its level and a decided key it completes, and
the list holds the records of its keys and the new one. -/
theorem Repr.insert_of_decided {decodeKey : Key → κ} {spare : ℕ} {s : SkipList Key}
    {ts : List (Tower Key)} (h : Repr decodeKey spare s ts)
    (hbound : s.level < s.maxLevel + spare) {key : Key} (coins : List Bool)
    (hdec : Decided (keysOf decodeKey ts) (decodeKey key)) :
    ∃ s' ts', s.insert decodeKey spare coins key = .ok s' ∧ Repr decodeKey spare s' ts' ∧
      keysOf decodeKey ts' = addRecord (keysOf decodeKey ts) (decodeKey key) ∧
      s'.maxLevel = s.maxLevel ∧
      s'.level = if ∀ k ∈ keysOf decodeKey ts, k < decodeKey key then
        max s.level (randomLevel s.maxLevel coins) else s.level := by
  by_cases hall : ∀ k ∈ keysOf decodeKey ts, k < decodeKey key
  · obtain ⟨s', hs', hrepr, hmax, hlevel⟩ :=
      h.insert_of_all_lt coins hbound (forall_mem_keysOf.mp hall)
    refine ⟨s', _, hs', hrepr, ?_, hmax, by rw [hlevel, if_pos hall]⟩
    rw [addRecord_of_forall_lt hall]
    simp [keysOf]
  · have hlen := (decided_keysOf_iff h.ascending).mp hdec
    -- some tower is not below the key, and not exactly one
    obtain ⟨t, u, us, hfrom⟩ : ∃ t u us,
        fromTarget decodeKey ts (decodeKey key) = t :: u :: us := by
      match hfrom : fromTarget decodeKey ts (decodeKey key) with
      | [] => exact absurd (forall_mem_keysOf.mpr (fromTarget_eq_nil_iff.mp hfrom)) hall
      | [t] => exact absurd (by simp [hfrom]) hlen
      | t :: u :: us => exact ⟨t, u, us, rfl⟩
    refine ⟨s, ts, h.insert_eq_self coins hbound hfrom, h, ?_, rfl, by rw [if_neg hall]⟩
    have ht : t ∈ fromTarget decodeKey ts (decodeKey key) := by simp [hfrom]
    exact (addRecord_of_le (List.mem_map.mpr ⟨t, mem_of_mem_fromTarget ht, rfl⟩)
      (le_of_mem_fromTarget h.ascending ht)).symm

/-! ### Runs -/

/-- A call on a skip list; `coins` are the outcomes of the random tests of `randomLevel`. -/
inductive Call (Key : Type)
  | insert (coins : List Bool) (key : Key)
  | remove (key : Key)

/-- The key a call is about. -/
def Call.key : Call Key → Key
  | .insert _ key => key
  | .remove key => key

@[simp] theorem Call.key_insert (coins : List Bool) (key : Key) :
    (Call.insert coins key).key = key := rfl

/-- The keys the calls insert, in order. -/
def insertedKeys (calls : List (Call Key)) : List Key :=
  calls.filterMap fun
    | .insert _ key => some key
    | .remove _ => none

/-- Execute a call. -/
def exec (decodeKey : Key → κ) (spare : ℕ) (s : SkipList Key) :
    Call Key → Except Fault (SkipList Key)
  | .insert coins key => s.insert decodeKey spare coins key
  | .remove key => s.remove decodeKey spare key

/-- With an undecided key a call dereferences a null pointer. -/
theorem Repr.exec_eq_nullDeref {decodeKey : Key → κ} {spare : ℕ} {s : SkipList Key}
    {ts : List (Tower Key)} (h : Repr decodeKey spare s ts)
    (hbound : s.level < s.maxLevel + spare) {call : Call Key}
    (hdec : ¬ Decided (keysOf decodeKey ts) (decodeKey call.key)) :
    exec decodeKey spare s call = .error .nullDeref := by
  obtain ⟨t, hfrom⟩ := exists_fromTarget_eq_singleton h.ascending hdec
  cases call with
  | insert coins key => exact h.insert_eq_nullDeref coins hbound hfrom
  | remove key => exact h.remove_eq_nullDeref hbound hfrom

/-- Without a slot for the level of the list every call is out of bounds. -/
theorem Repr.exec_outOfBounds {decodeKey : Key → κ} {spare : ℕ} {s : SkipList Key}
    {ts : List (Tower Key)} (h : Repr decodeKey spare s ts)
    (hbound : s.maxLevel + spare ≤ s.level) {call : Call Key} :
    exec decodeKey spare s call = .error .outOfBounds := by
  cases call with
  | insert coins key => exact h.insert_outOfBounds coins hbound
  | remove key => exact h.remove_outOfBounds hbound

/-- The structure claim for one run from the constructed list: every call completes, and the
list is structured after each of them. -/
def KeepsStructure (decodeKey : Key → κ) (spare maxLevel : ℕ) (hpos : 1 ≤ maxLevel)
    (nokey : Key) (calls : List (Call Key)) : Prop :=
  ∀ pre, pre <+: calls → ∃ s chain keys,
    runAll (exec decodeKey spare) (new spare maxLevel hpos nokey) pre = .ok s ∧
      Structured decodeKey s chain keys

/-- The level a call that completes leaves, on a list over the given keys. -/
def Call.levelAfter (decodeKey : Key → κ) (keys : List κ) (s : SkipList Key) : Call Key → ℕ
  | .insert coins key =>
      if ∀ k ∈ keys, k < decodeKey key then max s.level (randomLevel s.maxLevel coins)
      else s.level
  | .remove _ => s.level

/-- The run invariant: the list holds the records of the keys inserted so far. -/
structure RunInv (decodeKey : Key → κ) (spare : ℕ) (calls : List (Call Key))
    (s : SkipList Key) (ts : List (Tower Key)) : Prop where
  repr : Repr decodeKey spare s ts
  keys : keysOf decodeKey ts = records ((insertedKeys calls).map decodeKey)
  covered : Covered ((insertedKeys calls).map decodeKey)

section RunInv

variable {decodeKey : Key → κ} {spare : ℕ} {pre : List (Call Key)} {s s' : SkipList Key}
  {ts : List (Tower Key)} {call : Call Key}

theorem RunInv.decided_iff (h : RunInv decodeKey spare pre s ts) {k : κ} :
    Decided (keysOf decodeKey ts) k ↔ Decided ((insertedKeys pre).map decodeKey) k := by
  rw [h.keys, h.covered.decided_records_iff]

theorem runInv_new (decodeKey : Key → κ) (spare maxLevel : ℕ) (hpos : 1 ≤ maxLevel) (nokey : Key) :
    RunInv decodeKey spare [] (new spare maxLevel hpos nokey) [] :=
  ⟨repr_new .., rfl, covered_nil⟩

/-- **Step lemma.** A call whose key is decided by the keys inserted before completes, with a slot
for the level of the list, and keeps the run invariant. -/
theorem RunInv.exec_ok (h : RunInv decodeKey spare pre s ts)
    (hbound : s.level < s.maxLevel + spare)
    (hdec : Decided ((insertedKeys pre).map decodeKey) (decodeKey call.key)) :
    ∃ s', exec decodeKey spare s call = .ok s' ∧
      (∃ ts', RunInv decodeKey spare (pre ++ [call]) s' ts') ∧ s'.maxLevel = s.maxLevel ∧
      s'.level = call.levelAfter decodeKey ((insertedKeys pre).map decodeKey) s := by
  have hdec' := h.decided_iff.mpr hdec
  cases call with
  | insert coins key =>
    obtain ⟨s', ts', hs', hrepr, hkeys, hmax, hlevel⟩ := h.repr.insert_of_decided hbound coins hdec'
    refine ⟨s', hs', ⟨ts', hrepr, ?_, ?_⟩, hmax, ?_⟩
    · simp only [insertedKeys, List.filterMap_append, List.map_append, List.filterMap_cons,
        List.filterMap_nil, List.map_cons, List.map_nil, records_concat]
      rw [hkeys, h.keys]
      rfl
    · simpa [insertedKeys] using h.covered.concat hdec
    · rw [hlevel, h.keys, Call.levelAfter]
      exact if_congr forall_records_lt_iff rfl rfl
  | remove key =>
    have hlen := (decided_keysOf_iff h.repr.ascending).mp hdec'
    exact ⟨s, h.repr.remove_eq_self hbound hlen, ⟨ts, h.repr,
      by simpa [insertedKeys] using h.keys, by simpa [insertedKeys] using h.covered⟩, rfl, rfl⟩

/-- A call whose key is not decided dereferences a null pointer. -/
theorem RunInv.exec_eq_nullDeref (h : RunInv decodeKey spare pre s ts)
    (hbound : s.level < s.maxLevel + spare)
    (hdec : ¬ Decided ((insertedKeys pre).map decodeKey) (decodeKey call.key)) :
    exec decodeKey spare s call = .error .nullDeref :=
  h.repr.exec_eq_nullDeref hbound (mt h.decided_iff.mp hdec)

/-- A call that completes had a slot for the level, and its key was decided. -/
theorem RunInv.of_exec_ok (h : RunInv decodeKey spare pre s ts)
    (hexec : exec decodeKey spare s call = .ok s') :
    s.level < s.maxLevel + spare ∧
      Decided ((insertedKeys pre).map decodeKey) (decodeKey call.key) := by
  have hbound : s.level < s.maxLevel + spare := by
    by_contra hbound
    cases hexec.symm.trans (h.repr.exec_outOfBounds (not_lt.mp hbound))
  refine ⟨hbound, ?_⟩
  by_contra hdec
  cases hexec.symm.trans (h.exec_eq_nullDeref hbound hdec)

end RunInv

/-- **Structure over runs.** With a slot for every level in use, all calls of a run complete
and keep the list structured exactly when every call's key is either above all keys inserted
before it or at most one of them that is not the largest. -/
theorem calls_keepStructure_iff (decodeKey : Key → κ) (spare maxLevel : ℕ) (nokey : Key)
    (calls : List (Call Key)) :
    KeepsStructure decodeKey (spare + 1) (maxLevel + 1) (Nat.le_add_left 1 maxLevel) nokey
        calls ↔
      AllSteps (fun pre call => Decided ((insertedKeys pre).map decodeKey) (decodeKey call.key))
        calls := by
  have h₀ : ∃ ts, RunInv decodeKey (spare + 1) []
      (new (spare + 1) (maxLevel + 1) (Nat.le_add_left 1 maxLevel) nokey) ts :=
    ⟨[], runInv_new ..⟩
  have hok : ∀ pre call s, (∃ ts, RunInv decodeKey (spare + 1) pre s ts) →
      Decided ((insertedKeys pre).map decodeKey) (decodeKey call.key) →
      ∃ s', exec decodeKey (spare + 1) s call = .ok s' ∧
        ∃ ts, RunInv decodeKey (spare + 1) (pre ++ [call]) s' ts := by
    rintro pre call s ⟨ts, h⟩ hdec
    have hlevel := h.repr.level_le
    obtain ⟨s', hs', hinv, -⟩ := h.exec_ok (by omega) hdec
    exact ⟨s', hs', hinv⟩
  constructor
  · intro h
    obtain ⟨s, -, -, hs, -⟩ := h calls (List.prefix_refl calls)
    refine (runAll_isOk_iff hok ?_ h₀).mp ⟨s, hs⟩
    rintro pre call s s' ⟨ts, h⟩ hexec
    exact (h.of_exec_ok hexec).2
  · rintro h pre ⟨post, hpost⟩
    -- what every call of the run satisfies, every call of a prefix does
    have hpre : AllSteps (fun pre call =>
        Decided ((insertedKeys pre).map decodeKey) (decodeKey call.key)) pre := by
      intro p call q hpq
      exact h p call (q ++ post) (by rw [← hpost, hpq]; simp)
    obtain ⟨s, hs, ts, hinv⟩ := runAll_ok_of_allSteps hok h₀ hpre
    exact ⟨s, _, _, hs, hinv.repr.structured⟩

/-- Inserting a key below the only key of the list dereferences a null pointer. -/
theorem not_keepsStructure_descending :
    ¬ KeepsStructure (id : Bytes → Bytes) 1 4 (by decide) []
      [.insert [] [98], .insert [] [97]] := by
  intro h
  obtain ⟨s, -, -, hs, -⟩ := h _ (List.prefix_refl _)
  have hnull : runAll (exec (id : Bytes → Bytes) 1) (new 1 4 (by decide) [])
      [.insert [] [98], .insert [] [97]] = .error .nullDeref := by rfl
  rw [hnull] at hs
  cases hs

end SkipList

end TinyLeveldb
