import TinyLeveldb.SkipList.Model
import TinyLeveldb.Library.Path
import Mathlib.Data.List.TakeWhile

/-!
# The towers of a skip list, and where a descent ends

`Repr s ts` says that the heap of `s` holds exactly the towers `ts`: every level's chain from
the head runs through the towers that reach that level, in ascending key order. It is the
invariant behind all the operations.

For a represented list a descent is determined: on every level it stops at `pred`, the last
tower below the target that reaches the level, or at the head (`descend_eq`, `seek_eq`). What
follows on the bottom level is the first tower not below the target.
-/

namespace TinyLeveldb

open Library

namespace SkipList

variable {Key κ : Type}

/-- `a->forward[i]`, without the bounds check. -/
def fwd (s : SkipList Key) (i a : ℕ) : Pointer ℕ := (s.nodes a).bind (·.forward i)

theorem fwd_eq {s : SkipList Key} {a i : ℕ} {n : Node Key} (h : s.nodes a = some n) :
    s.fwd i a = n.forward i := by
  simp [fwd, h]

@[simp]
theorem deref_some {s : SkipList Key} {a : ℕ} {n : Node Key} (h : s.nodes a = some n) :
    s.deref (some a) = .ok n := by
  simp [deref, h]

theorem getForward_eq {s : SkipList Key} {a i : ℕ} {n : Node Key} (h : s.nodes a = some n)
    (hi : i < n.slots) : s.getForward (some a) i = .ok (s.fwd i a) := by
  simp [getForward, deref_some h, hi, fwd_eq h]

theorem getForward_outOfBounds {s : SkipList Key} {a i : ℕ} {n : Node Key}
    (h : s.nodes a = some n) (hi : n.slots ≤ i) :
    s.getForward (some a) i = .error .outOfBounds := by
  simp [getForward, deref_some h, Nat.not_lt.mpr hi]

/-! ### Random levels -/

theorem randomLevelLoop_bounds {maxLevel : ℕ} (coins : List Bool) {lvl : ℕ}
    (h : lvl ≤ maxLevel) : lvl ≤ randomLevelLoop maxLevel coins lvl ∧
      randomLevelLoop maxLevel coins lvl ≤ maxLevel := by
  induction coins generalizing lvl with
  | nil => exact ⟨le_rfl, h⟩
  | cons coin coins ih =>
    rw [randomLevelLoop]
    split
    · next hc =>
      have hlt : lvl + 1 ≤ maxLevel := by
        simp only [Bool.and_eq_true, decide_eq_true_eq] at hc
        exact hc.2
      obtain ⟨h₁, h₂⟩ := ih hlt
      exact ⟨by omega, h₂⟩
    · exact ⟨le_rfl, h⟩

/-- `randomLevel` returns a level in `1..maxLevel`. -/
theorem randomLevel_mem {maxLevel : ℕ} (h : 1 ≤ maxLevel) (coins : List Bool) :
    1 ≤ randomLevel maxLevel coins ∧ randomLevel maxLevel coins ≤ maxLevel :=
  randomLevelLoop_bounds coins h

theorem randomLevelLoop_replicate {maxLevel : ℕ} (k : ℕ) {lvl : ℕ} (h : lvl + k ≤ maxLevel) :
    randomLevelLoop maxLevel (List.replicate k true) lvl = lvl + k := by
  induction k generalizing lvl with
  | zero => rfl
  | succ k ih =>
    have hlt : lvl < maxLevel := by omega
    rw [List.replicate_succ, randomLevelLoop, if_pos (by simpa using hlt), ih (by omega)]
    omega

/-- Every level in `1..maxLevel` is a possible outcome of `randomLevel`. -/
theorem exists_randomLevel_eq {maxLevel lvl : ℕ} (h₁ : 1 ≤ lvl) (h₂ : lvl ≤ maxLevel) :
    ∃ coins, randomLevel maxLevel coins = lvl := by
  refine ⟨List.replicate (lvl - 1) true, ?_⟩
  rw [randomLevel, randomLevelLoop_replicate _ (by omega)]
  omega

/-! ### Representation by towers -/

/-- A linked node: its address, its key and its height. -/
structure Tower (Key : Type) where
  addr : ℕ
  key : Key
  height : ℕ

/-- The towers of `ts` that reach level `i`. -/
def reaching (i : ℕ) (ts : List (Tower Key)) : List (Tower Key) :=
  ts.filter fun t => i < t.height

/-- The addresses of towers. -/
abbrev addrs (ts : List (Tower Key)) : List ℕ := ts.map Tower.addr

@[simp]
theorem reaching_append (i : ℕ) (ts us : List (Tower Key)) :
    reaching i (ts ++ us) = reaching i ts ++ reaching i us :=
  List.filter_append ..

theorem mem_reaching {i : ℕ} {ts : List (Tower Key)} {t : Tower Key} :
    t ∈ reaching i ts ↔ t ∈ ts ∧ i < t.height := by
  simp [reaching]

theorem reaching_eq_nil {i : ℕ} {ts : List (Tower Key)} (h : ∀ t ∈ ts, t.height ≤ i) :
    reaching i ts = [] := by
  simpa [reaching, List.filter_eq_nil_iff] using h

theorem reaching_zero {ts : List (Tower Key)} (h : ∀ t ∈ ts, 1 ≤ t.height) :
    reaching 0 ts = ts :=
  List.filter_eq_self.mpr fun t ht => decide_eq_true (h t ht)

/-- A higher level is a sublist of a lower one. -/
theorem reaching_succ_sublist (i : ℕ) (ts : List (Tower Key)) :
    (reaching (i + 1) ts).Sublist (reaching i ts) := by
  induction ts with
  | nil => exact List.Sublist.refl _
  | cons t ts ih =>
    simp only [reaching, List.filter_cons] at ih ⊢
    split_ifs with h₁ h₂ h₂
    · exact ih.cons_cons t
    · exact absurd h₁ (by simp only [decide_eq_true_eq] at h₂ ⊢; omega)
    · exact ih.cons t
    · exact ih

variable [LinearOrder κ]

/-- The heap of `s` holds exactly the towers `ts`, in ascending key order. -/
structure Repr (decodeKey : Key → κ) (spare : ℕ) (s : SkipList Key)
    (ts : List (Tower Key)) : Prop where
  headNode : ∃ n, s.nodes head = some n ∧ n.slots = s.maxLevel + spare
  node : ∀ t ∈ ts, ∃ n, s.nodes t.addr = some n ∧ n.key = t.key ∧ n.slots = t.height + spare
  chain : ∀ i, Path (s.fwd i) head (addrs (reaching i ts)) none
  ascending : ts.Pairwise fun t u => decodeKey t.key < decodeKey u.key
  nodup : (addrs ts).Nodup
  addr_pos : ∀ t ∈ ts, head < t.addr
  addr_lt : ∀ t ∈ ts, t.addr < s.fresh
  length_lt : ts.length < s.fresh
  height_pos : ∀ t ∈ ts, 1 ≤ t.height
  height_le : ∀ t ∈ ts, t.height ≤ s.level + 1
  level_le : s.level ≤ s.maxLevel

/-- The constructed list holds no tower. -/
theorem repr_new (decodeKey : Key → κ) (spare maxLevel : ℕ) (hpos : 1 ≤ maxLevel)
    (nokey : Key) : Repr decodeKey spare (new spare maxLevel hpos nokey) [] where
  headNode := ⟨{ key := nokey, slots := maxLevel + spare }, by simp [new], rfl⟩
  node := by simp
  chain i := by simp [reaching, new, fwd]
  ascending := List.Pairwise.nil
  nodup := List.nodup_nil
  addr_pos := by simp
  addr_lt := by simp
  length_lt := Nat.one_pos
  height_pos := by simp
  height_le := by simp
  level_le := Nat.zero_le _

variable {decodeKey : Key → κ} {spare : ℕ} {s : SkipList Key} {ts : List (Tower Key)}
  {target : κ}

/-! ### The towers below a target -/

variable (decodeKey ts target) in
/-- The towers whose key is below the target. -/
def belowTarget : List (Tower Key) := ts.takeWhile fun t => decide (decodeKey t.key < target)

variable (decodeKey ts target) in
/-- The towers whose key is not below the target. -/
def fromTarget : List (Tower Key) := ts.dropWhile fun t => decide (decodeKey t.key < target)

variable (decodeKey ts target) in
/-- Where a descent for the target stops on level `i`: the last tower below the target that
reaches the level, or the head. -/
def pred (i : ℕ) : ℕ := (addrs (reaching i (belowTarget decodeKey ts target))).getLastD head

theorem belowTarget_append_fromTarget (decodeKey : Key → κ) (ts : List (Tower Key)) (target : κ) :
    belowTarget decodeKey ts target ++ fromTarget decodeKey ts target = ts :=
  List.takeWhile_append_dropWhile

theorem lt_of_mem_belowTarget {t : Tower Key} (h : t ∈ belowTarget decodeKey ts target) :
    decodeKey t.key < target := by
  simpa using List.mem_takeWhile_imp h

theorem mem_of_mem_belowTarget {t : Tower Key} (h : t ∈ belowTarget decodeKey ts target) :
    t ∈ ts := List.takeWhile_subset _ h

theorem mem_of_mem_fromTarget {t : Tower Key} (h : t ∈ fromTarget decodeKey ts target) :
    t ∈ ts := List.dropWhile_subset _ h

/-- In an ascending list everything from the first tower not below the target on is not
below it. -/
theorem le_of_mem_fromTarget
    (hs : ts.Pairwise fun t u => decodeKey t.key < decodeKey u.key) {t : Tower Key}
    (h : t ∈ fromTarget decodeKey ts target) : target ≤ decodeKey t.key := by
  cases hd : fromTarget decodeKey ts target with
  | nil => simp [hd] at h
  | cons u us =>
    have hu : target ≤ decodeKey u.key := by
      have hne : fromTarget decodeKey ts target ≠ [] := by simp [hd]
      have := List.head_dropWhile_not _ hne
      simp only [fromTarget] at hd
      simpa [hd] using this
    have hsub : (fromTarget decodeKey ts target).Sublist ts := List.dropWhile_sublist _
    have hus := hs.sublist hsub
    rw [hd] at h hus
    rcases List.mem_cons.mp h with rfl | h
    · exact hu
    · exact hu.trans ((List.pairwise_cons.mp hus).1 t h).le

theorem fromTarget_eq_nil_iff :
    fromTarget decodeKey ts target = [] ↔ ∀ t ∈ ts, decodeKey t.key < target := by
  simp [fromTarget, List.dropWhile_eq_nil_iff]

theorem belowTarget_eq_self (h : ∀ t ∈ ts, decodeKey t.key < target) :
    belowTarget decodeKey ts target = ts := by
  have := belowTarget_append_fromTarget decodeKey ts target
  rwa [fromTarget_eq_nil_iff.mpr h, List.append_nil] at this

/-! ### Descents -/

/-- The last of the towers that reach level `i`, or the head, has a slot for level `i`. -/
theorem Repr.exists_node_getLastD (h : Repr decodeKey spare s ts) {us : List (Tower Key)}
    (hus : us ⊆ ts) {i j : ℕ} (hij : j ≤ i) (hj : j < s.maxLevel + spare) :
    ∃ n, s.nodes ((addrs (reaching i us)).getLastD head) = some n ∧ j < n.slots := by
  rcases List.mem_cons.mp (List.getLastD_mem_cons (l := addrs (reaching i us)) (a := head))
    with heq | hmem
  · obtain ⟨n, hn, hslots⟩ := h.headNode
    exact ⟨n, by rw [heq]; exact hn, by omega⟩
  · obtain ⟨t, ht, haddr⟩ := List.mem_map.mp hmem
    obtain ⟨htus, hti⟩ := mem_reaching.mp ht
    obtain ⟨n, hn, -, hslots⟩ := h.node t (hus htus)
    exact ⟨n, haddr ▸ hn, by omega⟩

/-- The inner loop passes over the towers below the target and stops before the first one
that is not. -/
theorem advance_eq {i : ℕ} {below above : List (Tower Key)} {current fuel : ℕ}
    (hpath : Path (s.fwd i) current (addrs (below ++ above)) none)
    (hcur : ∃ n, s.nodes current = some n ∧ i < n.slots)
    (hnode : ∀ t ∈ below ++ above, ∃ n, s.nodes t.addr = some n ∧ n.key = t.key ∧ i < n.slots)
    (hbelow : ∀ t ∈ below, decodeKey t.key < target)
    (habove : ∀ t ∈ above, target ≤ decodeKey t.key) (hfuel : below.length < fuel) :
    s.advance decodeKey target i fuel current = .ok ((addrs below).getLastD current) := by
  obtain ⟨n, hn, hi⟩ := hcur
  -- on the towers still to pass; the fuel covers one round for each and the last one
  induction below generalizing current fuel n with
  | nil =>
    obtain ⟨fuel, rfl⟩ : ∃ f, fuel = f + 1 := ⟨fuel - 1, by simp at hfuel; omega⟩
    rw [advance, getForward_eq hn hi]
    cases above with
    | nil => simp [path_nil.mp hpath]
    | cons t above =>
      obtain ⟨m, hm, hkey, -⟩ := hnode t (by simp)
      have hle : ¬ decodeKey m.key < target := by
        rw [hkey]
        exact not_lt.mpr (habove t (by simp))
      simp [(path_cons.mp hpath).1, deref_some hm, hle]
  | cons t below ih =>
    obtain ⟨fuel, rfl⟩ : ∃ f, fuel = f + 1 := ⟨fuel - 1, by simp at hfuel; omega⟩
    obtain ⟨m, hm, hkey, hmi⟩ := hnode t (by simp)
    have hlt : decodeKey m.key < target := by
      rw [hkey]
      exact hbelow t (by simp)
    obtain ⟨hfirst, hrest⟩ := path_cons.mp hpath
    rw [advance, getForward_eq hn hi, hfirst]
    simp only [ok_bind, deref_some hm, if_pos hlt, List.map_cons, List.getLastD_cons]
    exact ih hrest (fun u hu => hnode u (List.mem_cons_of_mem t hu))
      (fun u hu => hbelow u (List.mem_cons_of_mem t hu)) (by simpa using hfuel) m hm hmi

/-- One level of a descent: from where the level above was left to where this one is left. -/
theorem Repr.advance_pred (h : Repr decodeKey spare s ts) {i : ℕ}
    (hi : i < s.maxLevel + spare) :
    s.advance decodeKey target i s.fresh (pred decodeKey ts target (i + 1)) =
      .ok (pred decodeKey ts target i) := by
  set below := belowTarget decodeKey ts target with hbelow
  set above := fromTarget decodeKey ts target with habove
  have hts : below ++ above = ts := belowTarget_append_fromTarget _ _ _
  have hchain := h.chain i
  rw [← hts, reaching_append] at hchain
  have hnode : ∀ t ∈ reaching i below ++ reaching i above,
      ∃ n, s.nodes t.addr = some n ∧ n.key = t.key ∧ i < n.slots := by
    intro t ht
    rw [← reaching_append, hts, mem_reaching] at ht
    obtain ⟨n, hn, hkey, hslots⟩ := h.node t ht.1
    exact ⟨n, hn, hkey, by omega⟩
  have hlt : ∀ t ∈ reaching i below, decodeKey t.key < target := fun t ht =>
    lt_of_mem_belowTarget (mem_reaching.mp ht).1
  have hge : ∀ t ∈ reaching i above, target ≤ decodeKey t.key := fun t ht =>
    le_of_mem_fromTarget h.ascending (mem_reaching.mp ht).1
  have hlen : (reaching i below).length < s.fresh := by
    have h₁ : (reaching i below).length ≤ below.length := List.length_filter_le ..
    have h₂ : below.length ≤ ts.length := (List.takeWhile_sublist _).length_le
    have := h.length_lt
    omega
  have hsub : below ⊆ ts := fun t ht => mem_of_mem_belowTarget ht
  have hcur := h.exists_node_getLastD hsub (Nat.le_succ i) hi
  rw [pred, ← hbelow, pred, ← hbelow]
  -- the cell where the level above was left is the head or one of this level's towers
  rcases List.eq_nil_or_concat (reaching (i + 1) below) with hnil | ⟨us, t, hconcat⟩
  · rw [hnil] at hcur ⊢
    exact advance_eq hchain hcur hnode hlt hge hlen
  · have hmem : t ∈ reaching i below :=
      (reaching_succ_sublist i below).subset (by simp [hconcat])
    obtain ⟨pre, post, hsplit⟩ := List.append_of_mem hmem
    have hlast : (addrs (reaching (i + 1) below)).getLastD head = t.addr := by
      simp [hconcat, List.getLastD_eq_getLast?]
    have hres : (addrs (reaching i below)).getLastD head = (addrs post).getLastD t.addr := by
      simp [hsplit, List.getLastD_eq_getLast?, List.getLast?_append, List.getLast?_cons]
    rw [hlast] at hcur ⊢
    rw [hres]
    rw [hsplit] at hchain hnode hlt hlen
    have hchain' : Path (s.fwd i) t.addr (addrs (post ++ reaching i above)) none := by
      have : Path (s.fwd i) head (addrs pre ++ t.addr :: addrs (post ++ reaching i above))
          none := by
        simpa using hchain
      exact (path_append_cons.mp this).2
    refine advance_eq hchain' hcur (fun u hu => hnode u ?_) (fun u hu => hlt u ?_) hge ?_
    · simp only [List.append_assoc, List.cons_append, List.mem_append, List.mem_cons] at hu ⊢
      exact Or.inr (Or.inr hu)
    · exact List.mem_append_right pre (List.mem_cons_of_mem t hu)
    · simp only [List.length_append, List.length_cons] at hlen
      omega

/-- The descent of `insert` and `remove` below level `n` records `pred` on every level. -/
theorem Repr.descend_eq (h : Repr decodeKey spare s ts) (target : κ) {n : ℕ}
    (hn : n ≤ s.maxLevel + spare) (update : UpdateVector) :
    s.descend decodeKey spare target n (pred decodeKey ts target n) update =
      .ok (pred decodeKey ts target 0,
        fun i => if i < n then some (pred decodeKey ts target i) else update i) := by
  induction n generalizing update with
  | zero => simp [descend]
  | succ n ih =>
    rw [descend, h.advance_pred (by omega)]
    simp only [ok_bind, setUpdate, if_pos (show n < s.maxLevel + spare by omega)]
    rw [ih (by omega)]
    congr 2
    funext i
    rcases Nat.lt_trichotomy i n with hi | rfl | hi
    · simp [hi, Nat.lt_succ_of_lt hi]
    · simp
    · simp [Nat.not_lt.mpr hi.le, Function.update_of_ne hi.ne', show ¬ i < n + 1 by omega]

/-- The descent of `search` ends at `pred` on the bottom level. -/
theorem Repr.seek_eq (h : Repr decodeKey spare s ts) (target : κ) {n : ℕ}
    (hn : n ≤ s.maxLevel + spare) :
    s.seek decodeKey target n (pred decodeKey ts target n) =
      .ok (pred decodeKey ts target 0) := by
  induction n with
  | zero => rfl
  | succ n ih =>
    rw [seek, h.advance_pred (by omega), ok_bind, ih (by omega)]

/-- Above the list's level a descent starts at the head. -/
theorem Repr.pred_of_level_lt (h : Repr decodeKey spare s ts) {i : ℕ} (hi : s.level < i) :
    pred decodeKey ts target i = head := by
  have hnil : reaching i (belowTarget decodeKey ts target) = [] :=
    reaching_eq_nil fun t ht => (h.height_le t (mem_of_mem_belowTarget ht)).trans hi
  rw [pred, hnil]
  rfl

/-- What follows the end of a descent on the bottom level is the first tower that is not below
the target. -/
theorem Repr.getForward_pred (h : Repr decodeKey spare s ts)
    (hpos : 0 < s.maxLevel + spare) :
    s.getForward (some (pred decodeKey ts target 0)) 0 =
      .ok ((fromTarget decodeKey ts target).head?.map Tower.addr) := by
  have hsub : belowTarget decodeKey ts target ⊆ ts := fun t ht => mem_of_mem_belowTarget ht
  obtain ⟨n, hn, hslots⟩ := h.exists_node_getLastD hsub le_rfl hpos
  have hchain := h.chain 0
  rw [reaching_zero h.height_pos, ← belowTarget_append_fromTarget decodeKey ts target] at hchain
  have hzero : reaching 0 (belowTarget decodeKey ts target) = belowTarget decodeKey ts target :=
    reaching_zero fun t ht => h.height_pos t (mem_of_mem_belowTarget ht)
  rw [pred, getForward_eq hn hslots, hzero]
  congr 1
  cases hd : fromTarget decodeKey ts target with
  | nil =>
    rw [hd, List.append_nil] at hchain
    exact hchain.getLastD
  | cons t us =>
    rw [hd, addrs, List.map_append, List.map_cons] at hchain
    exact (path_append_cons.mp hchain).1.getLastD

/-- On the bottom level a tower points at the tower after it. -/
theorem Repr.getForward_tower (h : Repr decodeKey spare s ts) {pre post : List (Tower Key)}
    {t : Tower Key} (hts : ts = pre ++ t :: post) :
    s.getForward (some t.addr) 0 = .ok (post.head?.map Tower.addr) := by
  obtain ⟨n, hn, -, hslots⟩ := h.node t (by simp [hts])
  have hpos := h.height_pos t (by simp [hts])
  have hchain := h.chain 0
  rw [reaching_zero h.height_pos, hts, addrs, List.map_append, List.map_cons] at hchain
  rw [getForward_eq hn (by omega), (path_append_cons.mp hchain).2.head]
  cases post <;> rfl

end SkipList

end TinyLeveldb
