import TinyLeveldb.Cache.Lifetime

/-!
# The cache as a map

What `Lookup` returns, over a run of calls on a cache of fixed capacity: the entry of the last
`Insert` under the key, unless the key was erased or the entry evicted or pruned since. The log of
the map that the cache implements (`mapAfter`) says which entries were dropped and when; all else
in it is the calls' (`history`).
-/

namespace TinyLeveldb

open Library Cells

namespace LRUCache

/-- What the `Insert`s and `Erase`s among the calls do to their keys, the next entry being number
`n`. -/
def history : ℕ → List Call → List (LruEvent Bytes)
  | _, [] => []
  | n, .insert key _ _ _ _ :: calls => .inserted key.data n :: history (n + 1) calls
  | n, .erase key :: calls => .erased key.data :: history n calls
  | n, _ :: calls => history n calls

/-- An entry was evicted or pruned. -/
def isDropped : LruEvent Bytes → Bool
  | .dropped _ => true
  | _ => false

theorem history_append (n : ℕ) (calls calls' : List Call) :
    history n (calls ++ calls') =
      history n calls ++ history (n + (insertions calls).length) calls' := by
  induction calls generalizing n with
  | nil => simp [history, insertions]
  | cons call calls ih =>
    rcases call with capacity | ⟨key, hash, value, charge, deleter⟩ | key | i | key | _
    all_goals
      simp [history, ih, insertions, Call.request, LruRequest.created, Nat.add_assoc, Nat.add_comm]

/-- The calls leave the capacity as it is. -/
def FixedCapacity (calls : List Call) : Prop := ∀ capacity, .setCapacity capacity ∉ calls

/-- A call does to the key it names what the history says. -/
theorem events_request {m : EntryMap} (hcap : 0 < m.capacity) (call : Call) :
    m.events call.request = history m.entries.length [call] := by
  rcases call with capacity | ⟨key, hash, value, charge, deleter⟩ | key | i | key | _
  · rfl
  · simp [PinnedLru.events, Call.request, history, hcap]
  · rfl
  · rfl
  · rfl
  · rfl

theorem not_isDropped_history (n : ℕ) (calls : List Call) :
    ∀ event ∈ history n calls, isDropped event = false := by
  induction calls generalizing n with
  | nil => simp [history]
  | cons call calls ih =>
    rcases call with capacity | ⟨key, hash, value, charge, deleter⟩ | key | i | key | _
    all_goals simpa [history, isDropped] using ih _

/-- **The log is the history of the calls**, but for the entries that were dropped. -/
theorem log_of_run {capacity : UInt64} (hcap : 0 < capacity) {calls : List Call} {s : Session}
    (hfixed : FixedCapacity calls)
    (h : RunWithin Fits (Session.opened capacity) Session.Enabled Session.exec calls s) :
    (mapAfter { capacity, usage := 0 } calls).capacity = capacity ∧
      (mapAfter { capacity, usage := 0 } calls).log.filter (!isDropped ·) = history 0 calls := by
  induction h with
  | init _ => exact ⟨rfl, rfl⟩
  | @step calls s s' call hrun hen hok _ ih =>
    obtain ⟨hcapacity, hlog⟩ := ih fun capacity' hmem => hfixed capacity' (by simp [hmem])
    obtain ⟨-, hwf⟩ := (implements_opened capacity).run (PinnedLru.wf_new capacity 0) hrun
    obtain ⟨ns, hexec, -⟩ := hwf.log_exec call.request
    have hcall : ∀ capacity', call.request ≠ .setCapacity capacity' := by
      intro capacity' hreq
      rcases call with capacity'' | _ | _ | _ | _ | _ <;> cases hreq
      exact hfixed capacity' (by simp)
    have hlength : (mapAfter { capacity, usage := 0 } calls).entries.length =
        (insertions calls).length := by
      rw [mapAfter_entries, List.nil_append]
    rw [mapAfter_concat]
    refine ⟨(PinnedLru.exec_capacity _ hcall).trans hcapacity, ?_⟩
    rw [hexec, events_request (by rwa [hcapacity]), hlength, List.filter_append, List.filter_append,
      hlog, history_append, Nat.zero_add]
    have hnew : (history (insertions calls).length [call]).filter (!isDropped ·) =
        history (insertions calls).length [call] :=
      List.filter_eq_self.mpr fun event hmem => by simp [not_isDropped_history _ _ event hmem]
    have hdropped : (ns.map LruEvent.dropped).filter (!isDropped ·) = [] := by
      simp [List.filter_eq_nil_iff, isDropped]
    rw [hnew, hdropped, List.append_nil]

/-! ### Over a run -/

/-- **The cache is a map.** After every run of calls on a cache of fixed capacity,

* `Insert` returns the next handle, and `Lookup` the handle of the entry that is under the key
  after what the calls did to it and the entries that were dropped meanwhile;
* a call loses an entry whose key it does not name only if it is `Insert` or `Prune`, and only while
  no client holds the entry;
* a handle that a client holds still has the key and the value it was inserted with. -/
theorem mapSemantics_of_run {capacity : UInt64} (hcap : 0 < capacity) {calls : List Call}
    {s : Session} (hfixed : FixedCapacity calls)
    (h : RunWithin Fits (Session.opened capacity) Session.Enabled Session.exec calls s) :
    ((mapAfter { capacity, usage := 0 } calls).log.filter (!isDropped ·) = history 0 calls ∧
      ∀ key : Slice, ∃ c', s.cache.lookup key =
        .ok ((LruEvent.current (mapAfter { capacity, usage := 0 } calls).log key.data).map .handle,
          c')) ∧
    (∀ key hash value charge deleter, ∃ c', s.cache.insert key hash value charge deleter =
      .ok (.handle (insertions calls).length, c')) ∧
    (∀ call s', s.Enabled call → s.exec call = .ok s' → Fits s' → ∀ key n,
      s.cache.table.lookup key = some (.handle n) →
      s'.cache.table.lookup key ≠ some (.handle n) → ¬ call.request.Names key →
      call.request.Evicts ∧ s.outstanding n = 0 ∧ s'.outstanding n = 0) ∧
    ∀ n, 0 < s.outstanding n → ∃ h, s.cache.cells (.handle n) = some h ∧
      (insertions calls)[n]? = some h.lruEntry := by
  obtain ⟨hs, hwf⟩ := (implements_opened capacity).run (PinnedLru.wf_new capacity 0) h
  obtain ⟨m, hm⟩ : ∃ m : EntryMap, m = mapAfter { capacity, usage := 0 } calls := ⟨_, rfl⟩
  have hentries : m.entries = insertions calls := by
    rw [hm, mapAfter_entries, List.nil_append]
  have hlog := (log_of_run hcap hfixed h).2
  rw [← hm] at hs hwf hlog ⊢
  obtain ⟨lists, hr⟩ := hs.refines
  refine ⟨⟨hlog, fun key => ?_⟩, fun key hash value charge deleter => ?_,
    fun call s' hen hok hfits key n hkey hlost hnames => ?_, fun n hn => ?_⟩
  · obtain ⟨c', hok, -⟩ := hr.lookup key
    exact ⟨c', by rw [hok, hwf.table_eq]⟩
  · obtain ⟨c', -, hok, -⟩ := hr.insert key hash value charge deleter
    refine ⟨c', ?_⟩
    rw [← hentries, hr.length_entries]
    exact hok accept (accepts_accept _)
  · obtain ⟨s'', hsteps, -, hs'⟩ := hs.exec hen
    obtain rfl : s'' = s' := by simpa using hsteps.exec_eq.symm.trans hok
    obtain ⟨⟨lists', hr'⟩, hheld'⟩ := hs' hfits
    rw [hr.lookup_eq_some] at hkey
    rw [ne_eq, hr'.lookup_eq_some] at hlost
    rw [← hs.held, ← hheld']
    exact hwf.held_eq_zero_of_lost (hs.enabled hen) hkey hlost hnames
  · rw [← hs.held] at hn
    obtain ⟨h, he⟩ := hr.inv.exists_of_held (Nat.pos_iff_ne_zero.mp hn)
    obtain ⟨h', hcell, rfl⟩ := exists_of_entry he
    have hentry := hr.entries he
    rw [hentries] at hentry
    exact ⟨h', hcell, hentry⟩

/-- After its key was erased, an entry is not found any more, but it is still what it was to the
client that holds it. -/
theorem mapSemantics_erased :
    ∃ s c' h, RunWithin Fits (Session.opened 1) Session.Enabled Session.exec
        [.insert emptyKey 0 7 1 3, .erase emptyKey] s ∧
      s.cache.lookup emptyKey = .ok (none, c') ∧
      s.cache.cells (.handle 0) = some h ∧ h.key = [] ∧ h.value = 7 := by
  have hstart : Fits (Session.opened 1) := fun _ => by simp [Session.opened, Session.start]
  obtain ⟨s, hrun, hheld⟩ : ∃ s, RunWithin Fits (Session.opened 1) Session.Enabled Session.exec
      [.insert emptyKey 0 7 1 3, .erase emptyKey] s ∧ 0 < s.outstanding 0 :=
    ⟨_, ((RunWithin.init hstart).step (i := Call.insert emptyKey 0 7 1 3) trivial rfl
      (by exact update_one_fits)).step (i := Call.erase emptyKey) trivial rfl
      (by exact update_one_fits), by exact Nat.one_pos⟩
  obtain ⟨⟨-, hlookup⟩, -, -, hcarries⟩ :=
    mapSemantics_of_run (by decide) (fun _ => by simp) hrun
  obtain ⟨c', hnone⟩ := hlookup emptyKey
  obtain ⟨h, hcell, hentry⟩ := hcarries 0 hheld
  have hinserted : { key := [], value := (7, 3), charge := 1 } = h.lruEntry :=
    Option.some.inj hentry
  exact ⟨s, c', h, hrun, hnone, hcell, congrArg LruEntry.key hinserted.symm,
    congrArg (fun e => e.value.1) hinserted.symm⟩

/-- A client that holds a handle `2 ^ 32` times loses it when the key is erased: the reference count
has wrapped around to one. -/
theorem not_mapSemantics :
    ∃ s s', Run (Session.opened 1) Session.Enabled Session.exec
        (.insert emptyKey 0 0 0 0 :: List.replicate (2 ^ 32 - 1) (.lookup emptyKey)) s ∧
      s.exec (.erase emptyKey) = .ok s' ∧ s'.outstanding 0 = 2 ^ 32 ∧
      s'.cache.cells (.handle 0) = none := by
  obtain ⟨s, hrun, hp, hlinks⟩ := exists_pinned (2 ^ 32 - 1) (by omega)
  obtain ⟨c, c', hfreed, herase⟩ := hp.eraseWith hlinks (by omega)
  refine ⟨s, { s with cache := c' }, hrun, ?_, hp.2.1.trans (by omega), hfreed⟩
  simp only [Session.exec, Session.execWith, herase accept, accept, ok_bind]

end LRUCache

end TinyLeveldb
