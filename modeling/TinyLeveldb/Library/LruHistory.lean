import TinyLeveldb.Library.PinnedLru

/-!
# What a map of pinned entries did

Over a run of requests the map of `PinnedLru` keeps a log of what decided which entry is under a
key. A request logs the key it names (`events`), and then only drops of entries nobody has pinned
(`WF.log_exec`); so a pinned entry stays under its key until a request names that key
(`WF.held_eq_zero_of_lost`). The entries are those the requests made, in order (`exec_entries`),
and once nothing is pinned, every one of them was freed once or is idle (`WF.freed_perm`).
-/

namespace Library

namespace LruRequest

variable {κ ν υ : Type*}

/-- The entry a request makes. -/
def created : LruRequest κ ν υ → List (LruEntry κ ν υ)
  | .insert e => [e]
  | _ => []

/-- The request that erases the key, or inserts an entry under it. -/
def Names (k : κ) : LruRequest κ ν υ → Prop
  | .insert e => e.key = k
  | .erase k' => k' = k
  | _ => False

/-- The requests that drop idle entries. -/
def Evicts : LruRequest κ ν υ → Prop
  | .insert _ => True
  | .prune => True
  | _ => False

end LruRequest

namespace PinnedLru

variable {κ ν υ : Type*}

/-- What a request does to the key it names. Without capacity nothing is cached. -/
def events [Zero υ] [LT υ] [DecidableLT υ] (m : PinnedLru κ ν υ) :
    LruRequest κ ν υ → List (LruEvent κ)
  | .insert e => if 0 < m.capacity then [.inserted e.key m.entries.length] else []
  | .erase k => [.erased k]
  | _ => []

variable [DecidableEq κ] [Sub υ] {m : PinnedLru κ ν υ} {n : ℕ} {e : LruEntry κ ν υ} {k : κ}

/-! ### What the operations leave alone -/

section Frame

variable (m) (n : ℕ)

omit [DecidableEq κ] [Sub υ] in
@[simp]
theorem giveUp_held : (m.giveUp n).held = m.held := by
  rw [giveUp]
  repeat' split
  all_goals rfl

omit [DecidableEq κ] [Sub υ] in
@[simp]
theorem giveUp_capacity : (m.giveUp n).capacity = m.capacity := by
  rw [giveUp]
  repeat' split
  all_goals rfl

omit [DecidableEq κ] [Sub υ] in
@[simp]
theorem giveUp_entries : (m.giveUp n).entries = m.entries := by
  rw [giveUp]
  repeat' split
  all_goals rfl

omit [DecidableEq κ] [Sub υ] in
@[simp]
theorem giveUp_log : (m.giveUp n).log = m.log := by
  rw [giveUp]
  repeat' split
  all_goals rfl

omit [DecidableEq κ] in
@[simp]
theorem drop_held : (m.drop n).held = m.held := by
  rw [PinnedLru.drop]
  split <;> simp

omit [DecidableEq κ] in
@[simp]
theorem drop_capacity : (m.drop n).capacity = m.capacity := by
  rw [PinnedLru.drop]
  split <;> simp

omit [DecidableEq κ] in
@[simp]
theorem drop_entries : (m.drop n).entries = m.entries := by
  rw [PinnedLru.drop]
  split <;> simp

omit [DecidableEq κ] in
@[simp]
theorem drop_log : (m.drop n).log = m.log := by
  rw [PinnedLru.drop]
  split <;> simp

omit [DecidableEq κ] in
@[simp]
theorem dropOld_held (x : Option ℕ) : (m.dropOld x).held = m.held := by
  rcases x with _ | n <;> simp [PinnedLru.dropOld]

omit [DecidableEq κ] in
@[simp]
theorem dropOld_capacity (x : Option ℕ) : (m.dropOld x).capacity = m.capacity := by
  rcases x with _ | n <;> simp [PinnedLru.dropOld]

omit [DecidableEq κ] in
@[simp]
theorem dropOld_entries (x : Option ℕ) : (m.dropOld x).entries = m.entries := by
  rcases x with _ | n <;> simp [PinnedLru.dropOld]

omit [DecidableEq κ] in
@[simp]
theorem dropOld_log (x : Option ℕ) : (m.dropOld x).log = m.log := by
  rcases x with _ | n <;> simp [PinnedLru.dropOld]

@[simp]
theorem evictOldest_held : m.evictOldest.held = m.held := by
  rw [PinnedLru.evictOldest]
  repeat' split
  all_goals simp

@[simp]
theorem evictOldest_capacity : m.evictOldest.capacity = m.capacity := by
  rw [PinnedLru.evictOldest]
  repeat' split
  all_goals simp

@[simp]
theorem evictOldest_entries : m.evictOldest.entries = m.entries := by
  rw [PinnedLru.evictOldest]
  repeat' split
  all_goals simp

@[simp]
theorem evictWhile_held (full : PinnedLru κ ν υ → Bool) (fuel : ℕ) :
    (m.evictWhile full fuel).held = m.held := by
  induction fuel generalizing m with
  | zero => rfl
  | succ fuel ih =>
    rw [PinnedLru.evictWhile]
    split <;> simp [ih]

@[simp]
theorem evictWhile_capacity (full : PinnedLru κ ν υ → Bool) (fuel : ℕ) :
    (m.evictWhile full fuel).capacity = m.capacity := by
  induction fuel generalizing m with
  | zero => rfl
  | succ fuel ih =>
    rw [PinnedLru.evictWhile]
    split <;> simp [ih]

@[simp]
theorem evictWhile_entries (full : PinnedLru κ ν υ → Bool) (fuel : ℕ) :
    (m.evictWhile full fuel).entries = m.entries := by
  induction fuel generalizing m with
  | zero => rfl
  | succ fuel ih =>
    rw [PinnedLru.evictWhile]
    split <;> simp [ih]

end Frame

/-- The oldest idle entry is not idle any more. -/
theorem idle_evictOldest {l : List ℕ} (hidle : m.idle = n :: l) (he : m.entries[n]? = some e) :
    m.evictOldest.idle = l := by
  rw [evictOldest_eq hidle he]
  simp only [PinnedLru.drop, PinnedLru.giveUp, he, hidle, List.erase_cons_head]
  split <;> rfl

section Requests

variable [Add υ] [Zero υ] [LT υ] [DecidableLT υ]

/-- The new entry is pinned once. -/
theorem insert_held (m : PinnedLru κ ν υ) (e : LruEntry κ ν υ) :
    (m.insert e).held = Function.update m.held m.entries.length 1 := by
  rw [PinnedLru.insert, evictWhile_held]
  split <;> simp [PinnedLru.enter, PinnedLru.create]

/-- **The entries** are those that the requests made. -/
theorem exec_entries (m : PinnedLru κ ν υ) (op : LruRequest κ ν υ) :
    (m.exec op).entries = m.entries ++ op.created := by
  rcases op with capacity | e | k | n | k | _
  · simp [PinnedLru.exec, LruRequest.created]
  · rw [PinnedLru.exec, PinnedLru.insert, evictWhile_entries]
    split <;> simp [PinnedLru.enter, PinnedLru.create, LruRequest.created]
  · rw [PinnedLru.exec, PinnedLru.lookup]
    split <;> simp [LruRequest.created]
  · rw [PinnedLru.exec, PinnedLru.release]
    simp only
    repeat' split
    all_goals simp [LruRequest.created]
  · simp [PinnedLru.exec, PinnedLru.erase, LruRequest.created]
  · simp [PinnedLru.exec, PinnedLru.prune, LruRequest.created]

/-- Only a request to set it changes the capacity. -/
theorem exec_capacity (m : PinnedLru κ ν υ) {op : LruRequest κ ν υ}
    (hop : ∀ capacity, op ≠ .setCapacity capacity) : (m.exec op).capacity = m.capacity := by
  rcases op with capacity | e | k | n | k | _
  · exact absurd rfl (hop capacity)
  · rw [PinnedLru.exec, PinnedLru.insert, evictWhile_capacity]
    split <;> simp [PinnedLru.enter, PinnedLru.create]
  · rw [PinnedLru.exec, PinnedLru.lookup]
    split <;> rfl
  · rw [PinnedLru.exec, PinnedLru.release]
    simp only
    repeat' split
    all_goals simp
  · simp [PinnedLru.exec, PinnedLru.erase]
  · simp [PinnedLru.exec, PinnedLru.prune]

end Requests

/-! ### What is dropped -/

/-- What the loop drops is idle. -/
theorem WF.log_evictWhile (h : WF none m) (full : PinnedLru κ ν υ → Bool) (fuel : ℕ) :
    ∃ ns : List ℕ, (m.evictWhile full fuel).log = m.log ++ ns.map .dropped ∧
      ∀ n ∈ ns, m.held n = 0 := by
  induction fuel generalizing m with
  | zero => exact ⟨[], by simp [PinnedLru.evictWhile], by simp⟩
  | succ fuel ih =>
    rw [PinnedLru.evictWhile]
    split
    · rcases hidle : m.idle with _ | ⟨n, l⟩
      · rename_i hcond
        exact absurd hidle hcond.2
      · obtain ⟨e, he, -⟩ := h.exists_of_idle hidle
        obtain ⟨ns, hlog, hns⟩ := ih h.evictOldest
        have hn : m.held n = 0 := (h.mem_idle.mp (by simp [hidle])).2
        refine ⟨n :: ns, ?_, fun i hi => ?_⟩
        · rw [hlog, evictOldest_eq hidle he, drop_log, List.append_assoc]
          rfl
        · rcases List.mem_cons.mp hi with rfl | hi
          · exact hn
          · rw [← evictOldest_held]
            exact hns i hi
    · exact ⟨[], by simp, by simp⟩

/-- **What a request logs**: what it does to the key it names, and then drops of entries nobody
has pinned. -/
theorem WF.log_exec [Add υ] [Zero υ] [LT υ] [DecidableLT υ] (h : WF none m)
    (op : LruRequest κ ν υ) :
    ∃ ns : List ℕ, (m.exec op).log = m.log ++ m.events op ++ ns.map .dropped ∧
      (∀ n ∈ ns, m.held n = 0 ∧ (m.exec op).held n = 0) ∧ (ns ≠ [] → op.Evicts) := by
  rcases op with capacity | e | k | n | k | _
  · exact ⟨[], by simp [PinnedLru.exec, PinnedLru.events], by simp, by simp⟩
  · obtain ⟨m₁, hm₁⟩ : ∃ m₁, m₁ = if 0 < m.capacity then m.enter e else m.create e := ⟨_, rfl⟩
    have h₁ : WF none m₁ := by
      rw [hm₁]
      split
      · exact h.enter e
      · exact h.create e
    have hlog₁ : m₁.log = m.log ++ m.events (.insert e) := by
      rw [hm₁, PinnedLru.events]
      split
      · simp [PinnedLru.enter]
      · simp [PinnedLru.create]
    have hexec : m.exec (.insert e) =
        m₁.evictWhile (fun m => m.capacity < m.usage) m₁.idle.length := by
      rw [PinnedLru.exec, PinnedLru.insert, ← hm₁]
    obtain ⟨ns, hlog, hns⟩ := h₁.log_evictWhile (fun m => m.capacity < m.usage) m₁.idle.length
    refine ⟨ns, by rw [hexec, hlog, hlog₁], fun n hn => ?_, fun _ => trivial⟩
    have hzero : Function.update m.held m.entries.length 1 n = 0 := by
      rw [← insert_held m e, show m.insert e = m.exec (.insert e) from rfl, hexec, evictWhile_held]
      exact hns n hn
    refine ⟨?_, by rw [PinnedLru.exec, insert_held, hzero]⟩
    rw [Function.update_apply] at hzero
    split at hzero
    · cases hzero
    · exact hzero
  · refine ⟨[], ?_, by simp, by simp⟩
    rw [PinnedLru.exec, PinnedLru.lookup]
    split <;> simp [PinnedLru.events]
  · refine ⟨[], ?_, by simp, by simp⟩
    rw [PinnedLru.exec, PinnedLru.release]
    simp only
    repeat' split
    all_goals simp [PinnedLru.events]
  · exact ⟨[], by simp [PinnedLru.exec, PinnedLru.erase, PinnedLru.events], by simp, by simp⟩
  · obtain ⟨ns, hlog, hns⟩ := h.log_evictWhile (fun _ => true) m.idle.length
    refine ⟨ns, ?_, fun n hn => ?_, fun _ => trivial⟩
    · simpa [PinnedLru.exec, PinnedLru.prune, PinnedLru.events] using hlog
    · rw [PinnedLru.exec, PinnedLru.prune, evictWhile_held]
      exact ⟨hns n hn, hns n hn⟩

/-- What is under a key stays there through events that do not concern it. -/
theorem current_append {log new : List (LruEvent κ)} {k : κ} {n : ℕ}
    (hk : LruEvent.current log k = some n) (hdropped : .dropped n ∉ new)
    (hinserted : ∀ i, .inserted k i ∉ new) (herased : .erased k ∉ new) :
    LruEvent.current (log ++ new) k = some n := by
  induction new using List.reverseRecOn with
  | nil => simpa using hk
  | append_singleton new event ih =>
    simp only [List.mem_append, List.mem_singleton, not_or] at hdropped hinserted herased
    rw [← List.append_assoc, current_concat,
      ih hdropped.1 (fun i => (hinserted i).1) herased.1]
    rcases event with ⟨k', i⟩ | k' | i
    · have hne : k' ≠ k := by
        rintro rfl
        exact (hinserted i).2 rfl
      simp [LruEvent.apply, hne]
    · have hne : k' ≠ k := by
        rintro rfl
        exact herased.2 rfl
      simp [LruEvent.apply, hne]
    · have hne : n ≠ i := by
        rintro rfl
        exact hdropped.2 rfl
      simp [LruEvent.apply, hne]

/-- **Only unpinned entries are lost**, and only to a request that evicts, unless the request names
their key. -/
theorem WF.held_eq_zero_of_lost [Add υ] [Zero υ] [LT υ] [DecidableLT υ] (h : WF none m)
    {op : LruRequest κ ν υ} (hop : m.Enabled op) (hk : m.table k = some n)
    (hlost : (m.exec op).table k ≠ some n) (hnames : ¬ op.Names k) :
    op.Evicts ∧ m.held n = 0 ∧ (m.exec op).held n = 0 := by
  obtain ⟨ns, hlog, hns, hevicts⟩ := h.log_exec op
  have hn : n ∈ ns := by
    by_contra hn
    refine hlost ?_
    rw [(h.exec hop).table_eq, hlog, List.append_assoc]
    refine current_append ((h.table_eq k) ▸ hk) (fun hmem => ?_) (fun i hmem => ?_) fun hmem => ?_
    all_goals rcases List.mem_append.mp hmem with hmem | hmem
    · rcases op with _ | e | _ | _ | _ | _ <;> simp [PinnedLru.events] at hmem
    · exact hn (by simpa using hmem)
    · rcases op with _ | e | _ | _ | _ | _ <;> simp [PinnedLru.events] at hmem
      exact hnames hmem.2.1.symm
    · simp at hmem
    · rcases op with _ | e | _ | _ | k' | _ <;> simp [PinnedLru.events] at hmem
      exact hnames hmem.symm
    · simp at hmem
  exact ⟨hevicts (List.ne_nil_of_mem hn), hns n hn⟩

/-! ### What is freed -/

/-- Looking the numbers up in turn gives the list. -/
theorem filterMap_range_getElem? {α : Type*} (l : List α) :
    (List.range l.length).filterMap (l[·]?) = l := by
  induction l using List.reverseRecOn with
  | nil => rfl
  | append_singleton l a ih =>
    rw [List.length_append, List.length_singleton, List.range_succ, List.filterMap_append]
    congr 1
    · refine (List.filterMap_congr fun i hi => ?_).trans ih
      exact List.getElem?_append_left (List.mem_range.mp hi)
    · simp

omit [Sub υ] in
/-- **Every entry is freed once**: when nobody has anything pinned, the freed entries and the idle
ones are all entries. -/
theorem WF.freed_perm (h : WF none m) (hheld : ∀ n, m.held n = 0) :
    (m.freed.map Prod.snd ++ m.idle.filterMap (m.entries[·]?)).Perm m.entries := by
  have hnumbers : (m.freed.map Prod.fst ++ m.idle).Perm (List.range m.entries.length) := by
    refine (List.perm_ext_iff_of_nodup ?_ List.nodup_range).mpr fun n => ?_
    · refine h.freed_nodup.append h.idle_nodup fun n hfreed hidle => ?_
      obtain ⟨⟨_, e⟩, hmem, rfl⟩ := List.mem_map.mp hfreed
      obtain ⟨hcached | hnone, -⟩ := h.mem_idle.mp hidle
      · rw [(h.mem_freed.mp hmem).2.1] at hcached
        cases hcached
      · cases hnone
    · rw [List.mem_append, List.mem_range]
      constructor
      · rintro (hfreed | hidle)
        · obtain ⟨⟨_, e⟩, hmem, rfl⟩ := List.mem_map.mp hfreed
          exact (List.getElem?_eq_some_iff.mp (h.mem_freed.mp hmem).1).1
        · obtain ⟨hcached | hnone, -⟩ := h.mem_idle.mp hidle
          · obtain ⟨e, he, -⟩ := cached_iff.mp hcached
            exact (List.getElem?_eq_some_iff.mp he).1
          · cases hnone
      · intro hn
        rcases hcached : m.cached n with _ | _
        · refine .inl (List.mem_map.mpr ⟨(n, m.entries[n]), h.mem_freed.mpr ?_, rfl⟩)
          exact ⟨List.getElem?_eq_getElem hn, hcached, by simp, hheld n⟩
        · exact .inr (h.mem_idle.mpr ⟨.inl hcached, hheld n⟩)
  have hfreed : m.freed.map Prod.snd = (m.freed.map Prod.fst).filterMap (m.entries[·]?) := by
    rw [List.filterMap_map, ← List.filterMap_eq_map]
    refine List.filterMap_congr fun p hp => ?_
    exact (h.mem_freed.mp hp).1.symm
  rw [hfreed, ← List.filterMap_append]
  exact (hnumbers.filterMap _).trans (List.Perm.of_eq (filterMap_range_getElem? m.entries))

end PinnedLru

end Library
