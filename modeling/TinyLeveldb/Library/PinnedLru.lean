import Mathlib.Data.List.Induction
import Mathlib.Data.List.Nodup
import Mathlib.Data.List.Perm.Basic
import Mathlib.Logic.Function.Basic

/-!
# A least-recently-used map with pinned entries

What a cache with handles is for. An insertion makes a new entry under a key and returns its
number, a lookup returns the number of the entry under a key, and both pin the entry until it is
released. Entries nobody has pinned are *idle*, oldest first; while the charges of the cached
entries exceed the capacity, the oldest idle entry is dropped. An entry that is neither cached
nor pinned is *freed*, once.

The map keeps a `log` of the events that decide what is under a key. `WF` is its invariant: what
is under a key is what the log says (`current`), the idle entries are the cached ones nobody has
pinned, and the freed ones are those that are neither.
-/

namespace Library

/-- What an entry was inserted with. -/
structure LruEntry (κ ν υ : Type*) where
  key : κ
  value : ν
  charge : υ

/-- What decides which entry is under a key. -/
inductive LruEvent (κ : Type*)
  | inserted (key : κ) (n : ℕ)
  | erased (key : κ)
  /-- The entry was dropped to make room, or because all idle entries were. -/
  | dropped (n : ℕ)

/-- What is under the key after one more event. -/
def LruEvent.apply {κ : Type*} [DecidableEq κ] (key : κ) (current : Option ℕ) :
    LruEvent κ → Option ℕ
  | .inserted key' n => if key' = key then some n else current
  | .erased key' => if key' = key then none else current
  | .dropped n => if current = some n then none else current

/-- What is under the key: the entry of the last insertion under it, unless the key was erased or
the entry dropped since. -/
def LruEvent.current {κ : Type*} [DecidableEq κ] (log : List (LruEvent κ)) (key : κ) : Option ℕ :=
  log.foldl (LruEvent.apply key) none

/-- The map. Entries are numbered in the order of their insertion. -/
structure PinnedLru (κ ν υ : Type*) where
  capacity : υ
  usage : υ
  table : κ → Option ℕ := fun _ => none
  /-- The cached entries nobody has pinned, oldest first. -/
  idle : List ℕ := []
  /-- How often an entry is pinned. -/
  held : ℕ → ℕ := fun _ => 0
  entries : List (LruEntry κ ν υ) := []
  freed : List (ℕ × LruEntry κ ν υ) := []
  log : List (LruEvent κ) := []

/-- A request to the map. -/
inductive LruRequest (κ ν υ : Type*)
  | setCapacity (capacity : υ)
  | insert (entry : LruEntry κ ν υ)
  | lookup (key : κ)
  | release (n : ℕ)
  | erase (key : κ)
  | prune

namespace PinnedLru

variable {κ ν υ : Type*}

/-- Entry `n` is under its key. -/
def cached (m : PinnedLru κ ν υ) (n : ℕ) : Bool :=
  match m.entries[n]? with
  | some e => m.table e.key = some n
  | none => false

/-- Free entry `n` if nobody has pinned it. -/
def giveUp (m : PinnedLru κ ν υ) (n : ℕ) : PinnedLru κ ν υ :=
  match m.entries[n]? with
  | some e => if m.held n = 0 then { m with freed := m.freed ++ [(n, e)] } else m
  | none => m

section Operations

variable [DecidableEq κ] [Sub υ]

/-- Entry `n` leaves the map; it is under no key any more. -/
def drop (m : PinnedLru κ ν υ) (n : ℕ) : PinnedLru κ ν υ :=
  match m.entries[n]? with
  | some e => giveUp { m with idle := m.idle.erase n, usage := m.usage - e.charge } n
  | none => m

/-- What was under a key leaves the map. -/
def dropOld (m : PinnedLru κ ν υ) : Option ℕ → PinnedLru κ ν υ
  | some n => m.drop n
  | none => m

/-- Drop the oldest idle entry. -/
def evictOldest (m : PinnedLru κ ν υ) : PinnedLru κ ν υ :=
  match m.idle with
  | [] => m
  | n :: _ =>
      match m.entries[n]? with
      | some e =>
          drop { m with
            table := Function.update m.table e.key none
            log := m.log ++ [.dropped n] } n
      | none => m

/-- Drop idle entries while `full` holds, at most `fuel` of them. -/
def evictWhile (full : PinnedLru κ ν υ → Bool) : ℕ → PinnedLru κ ν υ → PinnedLru κ ν υ
  | 0, m => m
  | fuel + 1, m => if full m ∧ m.idle ≠ [] then evictWhile full fuel m.evictOldest else m

variable [Add υ] [Zero υ] [LT υ] [DecidableLT υ]

/-- The new entry, pinned once and not cached yet. -/
def create (m : PinnedLru κ ν υ) (e : LruEntry κ ν υ) : PinnedLru κ ν υ :=
  { m with
    entries := m.entries ++ [e]
    held := Function.update m.held m.entries.length 1 }

/-- The new entry goes under its key. -/
def enter (m : PinnedLru κ ν υ) (e : LruEntry κ ν υ) : PinnedLru κ ν υ :=
  dropOld
    { m.create e with
      usage := m.usage + e.charge
      table := Function.update m.table e.key (some m.entries.length)
      log := m.log ++ [.inserted e.key m.entries.length] } (m.table e.key)

/-- Insert an entry; without capacity it is not cached. -/
def insert (m : PinnedLru κ ν υ) (e : LruEntry κ ν υ) : PinnedLru κ ν υ :=
  let m := if 0 < m.capacity then m.enter e else m.create e
  m.evictWhile (fun m => m.capacity < m.usage) m.idle.length

/-- Look a key up, and pin what is there. -/
def lookup (m : PinnedLru κ ν υ) (key : κ) : PinnedLru κ ν υ :=
  match m.table key with
  | none => m
  | some n =>
      { m with held := Function.update m.held n (m.held n + 1), idle := m.idle.erase n }

/-- Release a pin. -/
def release (m : PinnedLru κ ν υ) (n : ℕ) : PinnedLru κ ν υ :=
  let m := { m with held := Function.update m.held n (m.held n - 1) }
  if m.cached n then if m.held n = 0 then { m with idle := m.idle ++ [n] } else m
  else m.giveUp n

/-- Erase a key. -/
def erase (m : PinnedLru κ ν υ) (key : κ) : PinnedLru κ ν υ :=
  dropOld { m with table := Function.update m.table key none, log := m.log ++ [.erased key] }
    (m.table key)

/-- Drop all idle entries. -/
def prune (m : PinnedLru κ ν υ) : PinnedLru κ ν υ := m.evictWhile (fun _ => true) m.idle.length

/-- Execute a request. -/
def exec (m : PinnedLru κ ν υ) : LruRequest κ ν υ → PinnedLru κ ν υ
  | .setCapacity capacity => { m with capacity }
  | .insert e => m.insert e
  | .lookup key => m.lookup key
  | .release n => m.release n
  | .erase key => m.erase key
  | .prune => m.prune

end Operations

/-! ### The invariant -/

/-- The invariant, but for an entry `x` that is under no key any more and still counted among the
cached ones. -/
structure WF [DecidableEq κ] (x : Option ℕ) (m : PinnedLru κ ν υ) : Prop where
  exists_entry : ∀ {k n}, m.table k = some n → ∃ e, m.entries[n]? = some e ∧ e.key = k
  not_cached : ∀ {n}, x = some n → m.cached n = false
  idle_nodup : m.idle.Nodup
  mem_idle : ∀ {n}, n ∈ m.idle ↔ (m.cached n = true ∨ x = some n) ∧ m.held n = 0
  freed_nodup : (m.freed.map Prod.fst).Nodup
  mem_freed : ∀ {n e}, (n, e) ∈ m.freed ↔
    m.entries[n]? = some e ∧ m.cached n = false ∧ x ≠ some n ∧ m.held n = 0
  held_eq_zero : ∀ {n}, m.entries.length ≤ n → m.held n = 0
  table_eq : ∀ k, m.table k = LruEvent.current m.log k

section Invariant

variable {x : Option ℕ} {m m' : PinnedLru κ ν υ} {n : ℕ} {e : LruEntry κ ν υ} {k : κ}

theorem cached_iff : m.cached n = true ↔ ∃ e, m.entries[n]? = some e ∧ m.table e.key = some n := by
  rw [cached]
  rcases m.entries[n]? with _ | e <;> simp

variable [DecidableEq κ]

theorem WF.cached_of_table (h : WF x m) (hk : m.table k = some n) : m.cached n = true := by
  obtain ⟨e, he, rfl⟩ := h.exists_entry hk
  exact cached_iff.mpr ⟨e, he, hk⟩

theorem WF.lt_length (h : WF x m) (hn : m.held n ≠ 0) : n < m.entries.length := by
  by_contra hle
  exact hn (h.held_eq_zero (Nat.le_of_not_lt hle))

/-- An entry that is cached or pinned was inserted. -/
theorem WF.exists_of_held (h : WF x m) (hn : m.held n ≠ 0) : ∃ e, m.entries[n]? = some e :=
  ⟨_, List.getElem?_eq_getElem (h.lt_length hn)⟩

theorem current_concat (log : List (LruEvent κ)) (event : LruEvent κ) (k : κ) :
    LruEvent.current (log ++ [event]) k = event.apply k (LruEvent.current log k) := by
  rw [LruEvent.current, List.foldl_append]
  rfl

theorem wf_new (capacity usage : υ) : WF none ({ capacity, usage } : PinnedLru κ ν υ) where
  exists_entry h := by cases h
  not_cached h := by cases h
  idle_nodup := List.nodup_nil
  mem_idle := by simp [cached]
  freed_nodup := List.nodup_nil
  mem_freed := by simp
  held_eq_zero _ := rfl
  table_eq _ := rfl

omit [DecidableEq κ] in
theorem giveUp_eq (he : m.entries[n]? = some e) : m.giveUp n =
    { m with freed := if m.held n = 0 then m.freed ++ [(n, e)] else m.freed } := by
  simp only [giveUp, he]
  split <;> rfl

/-- An entry that is not cached any more is taken off the idle ones and freed, once nobody has it
pinned. Its pins may have changed since the invariant held. -/
theorem WF.giveUp (h : WF (some n) m) (he : m.entries[n]? = some e)
    (hm' : m'.table = m.table ∧ m'.entries = m.entries ∧ m'.freed = m.freed ∧ m'.log = m.log)
    (hidle : m'.idle = m.idle.erase n) (hheld : ∀ i, i ≠ n → m'.held i = m.held i) :
    WF none (m'.giveUp n) := by
  obtain ⟨htable, hentries, hfreed, hlog⟩ := hm'
  have hcached : ∀ i, m'.cached i = m.cached i := fun i => by rw [cached, cached, htable, hentries]
  have hn : m.cached n = false := h.not_cached rfl
  have hnotFreed : ∀ e', (n, e') ∉ m.freed := fun e' hmem => (h.mem_freed.mp hmem).2.2.1 rfl
  have hlt : n < m.entries.length := (List.getElem?_eq_some_iff.mp he).1
  rw [giveUp_eq (hentries ▸ he)]
  refine ⟨fun hk => ?_, by simp, ?_, fun {i} => ?_, ?_, fun {i e'} => ?_, fun {i} hi => ?_,
    fun k => ?_⟩
  · simp only [htable, hentries] at hk ⊢
    exact h.exists_entry hk
  · simp only [hidle]
    exact h.idle_nodup.erase n
  · change i ∈ m'.idle ↔ (m'.cached i = true ∨ none = some i) ∧ m'.held i = 0
    rw [hidle, h.idle_nodup.mem_erase_iff, h.mem_idle, hcached]
    by_cases hi : i = n
    · subst hi
      simp [hn]
    · simp [hi, hheld i hi, Ne.symm hi]
  · simp only [hfreed]
    split
    · rw [List.map_append, List.map_singleton]
      refine h.freed_nodup.append (List.nodup_singleton _) (List.disjoint_singleton.mpr ?_)
      intro hmem
      obtain ⟨⟨i, e'⟩, hmem', hi⟩ := List.mem_map.mp hmem
      obtain rfl : i = n := hi
      exact hnotFreed e' hmem'
    · exact h.freed_nodup
  · change (i, e') ∈ (if m'.held n = 0 then m'.freed ++ [(n, e)] else m'.freed) ↔
      m'.entries[i]? = some e' ∧ m'.cached i = false ∧ none ≠ some i ∧ m'.held i = 0
    rw [hfreed, hentries, hcached]
    by_cases hi : i = n
    · subst hi
      split
      · rename_i hzero
        simp only [List.mem_append, hnotFreed e', false_or, List.mem_singleton, Prod.mk.injEq,
          true_and, he, Option.some.injEq, hn, hzero, ne_eq, reduceCtorEq, not_false_eq_true,
          and_true]
        exact eq_comm
      · rename_i hne
        simp [hnotFreed e', hne]
    · rw [hheld i hi]
      split <;> simp [h.mem_freed, hi, Ne.symm hi]
  · simp only [hentries] at hi
    have hne : i ≠ n := by omega
    exact (hheld i hne).trans (h.held_eq_zero hi)
  · simp only [htable, hlog]
    exact h.table_eq k

/-- A key is under nothing any more: what was under it is the entry the invariant excepts. -/
theorem WF.untable (h : WF none m) (k : κ) (log : List (LruEvent κ))
    (hlog : ∀ k', LruEvent.current log k' = if k' = k then none else LruEvent.current m.log k') :
    WF (m.table k) { m with table := Function.update m.table k none, log } := by
  -- the cached entries are those that still are and the one under the key
  have hcached : ∀ i, m.cached i = true ↔
      cached { m with table := Function.update m.table k none, log } i = true ∨
        m.table k = some i := by
    intro i
    rw [cached_iff, cached_iff]
    constructor
    · rintro ⟨e, he, htable⟩
      by_cases hk : e.key = k
      · exact .inr (hk ▸ htable)
      · exact .inl ⟨e, he, by simpa [hk] using htable⟩
    · rintro (⟨e, he, htable⟩ | htable)
      · refine ⟨e, he, ?_⟩
        by_cases hk : e.key = k
        · simp [hk] at htable
        · simpa [hk] using htable
      · obtain ⟨e, he, rfl⟩ := h.exists_entry htable
        exact ⟨e, he, htable⟩
  have hnot : ∀ i, m.table k = some i →
      cached { m with table := Function.update m.table k none, log } i = false := by
    intro i hi
    obtain ⟨e, he, rfl⟩ := h.exists_entry hi
    simp [cached, he]
  refine ⟨fun {k' n} hk' => ?_, fun {i} hi => hnot i hi, h.idle_nodup, fun {i} => ?_, h.freed_nodup,
    fun {i e} => ?_, h.held_eq_zero, fun k' => ?_⟩
  · by_cases hk : k' = k
    · subst hk
      simp at hk'
    · simp only [Function.update_of_ne hk] at hk'
      exact h.exists_entry hk'
  · rw [← hcached]
    simpa using h.mem_idle
  · refine h.mem_freed.trans (and_congr_right fun _ => ?_)
    have hi := hcached i
    rcases hc : cached { m with table := Function.update m.table k none, log } i with _ | _
    · by_cases ht : m.table k = some i
      · simp [ht, hi.mpr (.inr ht)]
      · have hm : m.cached i = false := by
          by_contra hm
          rcases hi.mp (by simpa using hm) with hm | hm
          · rw [hc] at hm
            cases hm
          · exact ht hm
        simp [hm, ht]
    · simp [hi.mpr (.inl hc)]
  · simp only [hlog, Function.update_apply, h.table_eq]

section Operations

variable [Sub υ]

omit [DecidableEq κ] in
theorem drop_eq (he : m.entries[n]? = some e) : m.drop n =
    giveUp { m with idle := m.idle.erase n, usage := m.usage - e.charge } n := by
  simp only [PinnedLru.drop, he]

theorem WF.drop (h : WF (some n) m) (he : m.entries[n]? = some e) : WF none (m.drop n) := by
  rw [drop_eq he]
  exact h.giveUp he ⟨rfl, rfl, rfl, rfl⟩ rfl fun _ _ => rfl

theorem WF.dropOld (h : WF x m) (hx : ∀ n, x = some n → ∃ e, m.entries[n]? = some e) :
    WF none (m.dropOld x) := by
  rcases x with _ | n
  · exact h
  · obtain ⟨e, he⟩ := hx n rfl
    exact h.drop he

theorem WF.erase (h : WF none m) (k : κ) : WF none (m.erase k) := by
  refine WF.dropOld (h.untable k _ fun k' => ?_) fun n hn => ?_
  · rw [current_concat]
    simp only [LruEvent.apply, eq_comm]
  · obtain ⟨e, he, -⟩ := h.exists_entry hn
    exact ⟨e, he⟩

omit [Sub υ] in
/-- The oldest idle entry is under its key. -/
theorem WF.exists_of_idle (h : WF none m) {l : List ℕ} (hidle : m.idle = n :: l) :
    ∃ e, m.entries[n]? = some e ∧ m.table e.key = some n := by
  have hmem : n ∈ m.idle := by simp [hidle]
  obtain ⟨hcached | hnone, -⟩ := h.mem_idle.mp hmem
  · exact cached_iff.mp hcached
  · cases hnone

theorem evictOldest_eq {l : List ℕ} (hidle : m.idle = n :: l) (he : m.entries[n]? = some e) :
    m.evictOldest = PinnedLru.drop
      { m with table := Function.update m.table e.key none, log := m.log ++ [.dropped n] } n := by
  simp only [evictOldest, hidle, he]

theorem WF.evictOldest (h : WF none m) : WF none m.evictOldest := by
  rcases hidle : m.idle with _ | ⟨n, l⟩
  · simpa only [PinnedLru.evictOldest, hidle] using h
  · obtain ⟨e, he, htable⟩ := h.exists_of_idle hidle
    rw [evictOldest_eq hidle he]
    have hwf := h.untable e.key (m.log ++ [.dropped n]) fun k' => ?_
    · rw [htable] at hwf
      exact hwf.drop he
    · rw [current_concat, ← h.table_eq, LruEvent.apply]
      by_cases hk : k' = e.key
      · rw [if_pos (hk ▸ htable), if_pos hk]
      · have hne : m.table k' ≠ some n := by
          intro hn
          -- an entry has one key
          obtain ⟨e', he', rfl⟩ := h.exists_entry hn
          rw [he] at he'
          cases he'
          exact hk rfl
        rw [if_neg hne, if_neg hk]

theorem WF.evictWhile (h : WF none m) (full : PinnedLru κ ν υ → Bool) (fuel : ℕ) :
    WF none (m.evictWhile full fuel) := by
  induction fuel generalizing m with
  | zero => exact h
  | succ fuel ih =>
    rw [PinnedLru.evictWhile]
    split
    · exact ih h.evictOldest
    · exact h

omit [Sub υ] [DecidableEq κ] in
theorem cached_congr {i : ℕ} (hentries : m'.entries[i]? = m.entries[i]?)
    (htable : m'.table = m.table) : m'.cached i = m.cached i := by
  simp only [cached, hentries, htable]

omit [Sub υ] in
/-- The new entry is neither cached nor freed, and pinned. -/
theorem WF.create (h : WF none m) (e : LruEntry κ ν υ) : WF none (m.create e) := by
  have hentry : ∀ i, i ≠ m.entries.length → (m.create e).entries[i]? = m.entries[i]? := by
    intro i hi
    change (m.entries ++ [e])[i]? = _
    rcases Nat.lt_or_gt_of_ne hi with hlt | hgt
    · exact List.getElem?_append_left hlt
    · rw [List.getElem?_eq_none (by simpa using Nat.succ_le_of_lt hgt),
        List.getElem?_eq_none (Nat.le_of_lt hgt)]
  have hne : ∀ {k n}, m.table k = some n → n ≠ m.entries.length := by
    intro k n hn
    obtain ⟨e', he', -⟩ := h.exists_entry hn
    exact Nat.ne_of_lt (List.getElem?_eq_some_iff.mp he').1
  have hnew : (m.create e).cached m.entries.length = false := by
    have htable : m.table e.key ≠ some m.entries.length := fun hn => hne hn rfl
    simp [cached, PinnedLru.create, htable]
  refine ⟨fun {k n} hn => ?_, by simp, h.idle_nodup, fun {i} => ?_, h.freed_nodup,
    fun {i e'} => ?_, fun {i} hi => ?_, h.table_eq⟩
  · obtain ⟨e', he', hk⟩ := h.exists_entry hn
    exact ⟨e', (hentry n (hne hn)).trans he', hk⟩
  · change i ∈ m.idle ↔ _ ∧ Function.update m.held m.entries.length 1 i = 0
    by_cases hi : i = m.entries.length
    · subst hi
      simp [h.mem_idle, cached]
    · rw [Function.update_of_ne hi, cached_congr (hentry i hi) rfl]
      exact h.mem_idle
  · change (i, e') ∈ m.freed ↔ _ ∧ _ ∧ _ ∧ Function.update m.held m.entries.length 1 i = 0
    by_cases hi : i = m.entries.length
    · subst hi
      simp [h.mem_freed]
    · rw [Function.update_of_ne hi, cached_congr (hentry i hi) rfl, hentry i hi]
      exact h.mem_freed
  · simp only [PinnedLru.create, List.length_append, List.length_singleton] at hi
    have hlen : i ≠ m.entries.length := by omega
    simp only [PinnedLru.create, Function.update_of_ne hlen]
    exact h.held_eq_zero (by omega)

omit [Sub υ] in
/-- A pinned entry goes under its key, where nothing is. -/
theorem WF.put (h : WF x m) (he : m.entries[n]? = some e) (hk : m.table e.key = none)
    (hn : m.held n ≠ 0) (hx : x ≠ some n) (log : List (LruEvent κ))
    (hlog : ∀ k, LruEvent.current log k =
      if k = e.key then some n else LruEvent.current m.log k) :
    WF x { m with table := Function.update m.table e.key (some n), log } := by
  have hcached : ∀ i, i ≠ n →
      cached { m with table := Function.update m.table e.key (some n), log } i = m.cached i := by
    intro i hi
    rw [Bool.eq_iff_iff, cached_iff, cached_iff]
    refine exists_congr fun e' => and_congr_right fun _ => ?_
    by_cases hk' : e'.key = e.key
    · simp [hk', hk, Ne.symm hi]
    · simp [hk']
  refine ⟨fun {k i} hi => ?_, fun {i} hi => ?_, h.idle_nodup, fun {i} => ?_, h.freed_nodup,
    fun {i e'} => ?_, h.held_eq_zero, fun k => ?_⟩
  · by_cases hke : k = e.key
    · subst hke
      obtain rfl : n = i := by simpa using hi
      exact ⟨e, he, rfl⟩
    · exact h.exists_entry (by simpa [hke] using hi)
  · have hin : i ≠ n := by
      rintro rfl
      exact hx hi
    rw [hcached i hin]
    exact h.not_cached hi
  · by_cases hi : i = n
    · subst hi
      simp [h.mem_idle, hn]
    · rw [hcached i hi]
      exact h.mem_idle
  · by_cases hi : i = n
    · subst hi
      simp [h.mem_freed, hn]
    · rw [hcached i hi]
      exact h.mem_freed
  · simp only [hlog, Function.update_apply, h.table_eq]

/-- What was under the key of the new entry leaves the map. -/
theorem WF.enter [Add υ] (h : WF none m) (e : LruEntry κ ν υ) : WF none (m.enter e) := by
  have hcreate := h.create e
  have hold : ∀ n, m.table e.key = some n → n < m.entries.length := by
    intro n hn
    obtain ⟨e', he', -⟩ := h.exists_entry hn
    exact (List.getElem?_eq_some_iff.mp he').1
  have hput := (hcreate.untable e.key (m.log ++ [.erased e.key]) fun k => by
      rw [current_concat]
      simp only [LruEvent.apply, eq_comm, PinnedLru.create]).put
    (n := m.entries.length) (e := e)
    (by simp [PinnedLru.create]) (by simp) (by simp [PinnedLru.create])
    (fun hn => Nat.lt_irrefl _ (hold _ hn)) (m.log ++ [.inserted e.key m.entries.length])
    fun k => by
      rw [current_concat, current_concat]
      by_cases hk : k = e.key <;> simp [LruEvent.apply, hk, eq_comm]
  simp only [Function.update_idem] at hput
  refine WF.dropOld ⟨hput.exists_entry, hput.not_cached, hput.idle_nodup, hput.mem_idle,
    hput.freed_nodup, hput.mem_freed, hput.held_eq_zero, hput.table_eq⟩ fun n hn => ?_
  exact ⟨_, List.getElem?_append_left (hold n hn) |>.trans (List.getElem?_eq_getElem (hold n hn))⟩

theorem WF.insert [Add υ] [Zero υ] [LT υ] [DecidableLT υ] (h : WF none m) (e : LruEntry κ ν υ) :
    WF none (m.insert e) := by
  rw [PinnedLru.insert]
  refine WF.evictWhile ?_ _ _
  split
  · exact h.enter e
  · exact h.create e

omit [Sub υ] in
/-- **A cached entry is pinned anew**, and idle if it is not pinned then. -/
theorem WF.repin (h : WF none m) (hcached : m.cached n = true) {pins : ℕ} {idle : List ℕ}
    (hnodup : idle.Nodup) (hn : n ∈ idle ↔ pins = 0)
    (hidle : ∀ i, i ≠ n → (i ∈ idle ↔ i ∈ m.idle)) :
    WF none { m with held := Function.update m.held n pins, idle } := by
  refine ⟨h.exists_entry, by simp, hnodup, fun {i} => ?_, h.freed_nodup, fun {i e} => ?_,
    fun {i} hi => ?_, h.table_eq⟩
  · change i ∈ idle ↔ (m.cached i = true ∨ _) ∧ Function.update m.held n pins i = 0
    by_cases hi : i = n
    · subst hi
      simpa [hcached] using hn
    · rw [Function.update_of_ne hi, hidle i hi]
      exact h.mem_idle
  · change (i, e) ∈ m.freed ↔ m.entries[i]? = some e ∧ m.cached i = false ∧ _ ∧
      Function.update m.held n pins i = 0
    by_cases hi : i = n
    · subst hi
      simp [h.mem_freed, hcached]
    · rw [Function.update_of_ne hi]
      exact h.mem_freed
  · have hne : i ≠ n := by
      rintro rfl
      obtain ⟨e, he, -⟩ := cached_iff.mp hcached
      rw [List.getElem?_eq_none hi] at he
      cases he
    simp only [Function.update_of_ne hne]
    exact h.held_eq_zero hi

omit [Sub υ] in
theorem WF.lookup (h : WF none m) (k : κ) : WF none (m.lookup k) := by
  rw [PinnedLru.lookup]
  rcases hk : m.table k with _ | n
  · exact h
  · refine h.repin (h.cached_of_table hk) (h.idle_nodup.erase n) ?_ fun i hi => ?_
    · simp [h.idle_nodup.mem_erase_iff]
    · rw [h.idle_nodup.mem_erase_iff, and_iff_right hi]

omit [Sub υ] in
/-- A pinned entry that is not cached may be excepted: it is neither idle nor freed. -/
theorem WF.except (h : WF none m) (hn : m.held n ≠ 0) (hcached : m.cached n = false) :
    WF (some n) m := by
  refine ⟨h.exists_entry, fun {i} hi => ?_, h.idle_nodup, fun {i} => ?_, h.freed_nodup,
    fun {i e'} => ?_, h.held_eq_zero, h.table_eq⟩
  · obtain rfl := Option.some.inj hi
    exact hcached
  · by_cases hi : i = n
    · subst hi
      simp [h.mem_idle, hn]
    · simp [h.mem_idle, Ne.symm hi]
  · by_cases hi : i = n
    · subst hi
      simp [h.mem_freed, hn]
    · simp [h.mem_freed, Ne.symm hi]

omit [Sub υ] in
/-- The last release of a cached entry makes it idle, the last release of another frees it. -/
theorem WF.release (h : WF none m) (hn : m.held n ≠ 0) : WF none (m.release n) := by
  obtain ⟨e, he⟩ := h.exists_of_held hn
  have hidle : n ∉ m.idle := fun hmem => hn (h.mem_idle.mp hmem).2
  have hcongr : ∀ i, cached { m with held := Function.update m.held n (m.held n - 1) } i =
      m.cached i := fun i => cached_congr rfl rfl
  rw [PinnedLru.release]
  simp only [hcongr, Function.update_self]
  rcases hcached : m.cached n with _ | _
  · refine (h.except hn hcached).giveUp he ⟨rfl, rfl, rfl, rfl⟩
      (List.erase_of_not_mem hidle).symm fun i hi => ?_
    exact Function.update_of_ne hi _ _
  · rw [if_pos rfl]
    split
    · rename_i hzero
      refine h.repin hcached ?_ ?_ fun i hi => ?_
      · exact h.idle_nodup.append (List.nodup_singleton n) (List.disjoint_singleton.mpr hidle)
      · exact iff_of_true (by simp) hzero
      · simp [hi]
    · rename_i hne
      exact h.repin hcached h.idle_nodup (iff_of_false hidle hne) fun _ _ => Iff.rfl

/-- Only pinned entries are released. -/
def Enabled (m : PinnedLru κ ν υ) : LruRequest κ ν υ → Prop
  | .release n => m.held n ≠ 0
  | _ => True

/-- **Step lemma.** Every request keeps the invariant. -/
theorem WF.exec [Add υ] [Zero υ] [LT υ] [DecidableLT υ] (h : WF none m) {op : LruRequest κ ν υ}
    (hop : m.Enabled op) : WF none (m.exec op) := by
  rcases op with capacity | e | k | n | k | _
  · exact ⟨h.exists_entry, h.not_cached, h.idle_nodup, h.mem_idle, h.freed_nodup, h.mem_freed,
      h.held_eq_zero, h.table_eq⟩
  · exact h.insert e
  · exact h.lookup k
  · exact h.release hop
  · exact h.erase k
  · exact h.evictWhile _ _

end Operations

end Invariant

end PinnedLru

end Library
