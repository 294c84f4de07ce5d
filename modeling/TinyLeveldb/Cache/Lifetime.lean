import TinyLeveldb.Cache.Sessions

/-!
# The lifetime of an entry

Every entry that was inserted is deleted once. While the cache runs, `Implements.exec` says when:
an entry's deleter is called when no client holds the entry and nothing leads to it any more.
When the cache is destroyed and no client holds anything, the entries that were not deleted yet
are those on `lru_`, and the destructor deletes them in turn (`destroyFrom_eq`). It leaves them on
the list and in the table meanwhile.
-/

namespace TinyLeveldb

open Library Cells

namespace LRUCache

/-- What the `Insert`s among the calls inserted. -/
def insertions (calls : List Call) : List (LruEntry Bytes (ℕ × ℕ) UInt64) :=
  calls.flatMap fun call => call.request.created

theorem mapAfter_entries (m : EntryMap) (calls : List Call) :
    (mapAfter m calls).entries = m.entries ++ insertions calls := by
  induction calls using List.reverseRecOn with
  | nil => simp [mapAfter, insertions]
  | append_singleton calls call ih =>
    rw [mapAfter_concat, PinnedLru.exec_entries, ih, List.append_assoc]
    simp [insertions]

/-! ### The destructor -/

section Destructor

variable {c : LRUCache} {lists : Side → List ℕ} {m : EntryMap} {n : ℕ} {h : LRUHandle}

/-- The body of the destructor's loop frees a handle that only the cache refers to. -/
theorem destroyFrom_step {next : Addr} (he : c.cells.entry n = some h) (hc : h.inCache = true)
    (hrefs : h.refs = 1) (hnext : c.cells.next (.handle n) = some next)
    (hne : next ≠ .handle n) (fuel : ℕ) :
    ∃ c' : LRUCache, c.destroyFromWith accept (fuel + 1) (some (.handle n)) =
        c'.destroyFromWith accept fuel (some next) ∧
      c'.cells = Function.update c.cells (.handle n) none ∧
      c'.deleted = c.deleted ++ [deletion h.lruEntry] := by
  obtain ⟨h', hcell, rfl⟩ := exists_of_entry he
  rw [LRUHandle.unlinked_inCache] at hc
  rw [LRUHandle.unlinked_refs] at hrefs
  rw [next_eq hcell] at hnext
  have hself : h'.next ≠ some (.handle n) := by
    rw [hnext]
    simpa using hne
  -- `in_cache = false`, then one reference less
  obtain ⟨h₁, hh₁⟩ : ∃ h₁, h₁ = { h' with inCache := false } := ⟨_, rfl⟩
  obtain ⟨h₂, hh₂⟩ : ∃ h₂, h₂ = { h₁ with refs := h₁.refs - 1 } := ⟨_, rfl⟩
  have hrefs₁ : h₁.refs = 1 := by rw [hh₁, hrefs]
  have hrefs₂ : h₂.refs = 0 := by
    rw [hh₂, hrefs₁]
    rfl
  have hc₂ : h₂.inCache = false := by rw [hh₂, hh₁]
  have hself₂ : h₂.next ≠ some (.handle n) := by rwa [hh₂, hh₁]
  have hkey : Cells.key (Function.update c.cells (.handle n) (some h₂)) (.handle n) =
      .ok h₂.key := by
    simp only [Cells.key, deref_some (Function.update_self _ _ _), ok_bind, assert_of hself₂]
  have hunref : unrefWith accept
      { c with cells := Function.update c.cells (.handle n) (some h₁) } (.handle n) =
        .ok { c with
          cells := Function.update c.cells (.handle n) none
          deleted := c.deleted ++ [deletion h₂.lruEntry] } := by
    have hpos : 0 < h₁.refs := by
      rw [hrefs₁]
      decide
    simp only [unrefWith, settleWith, deref_some (Function.update_self _ _ _), ok_bind,
      assert_of hpos, modify_some (Function.update_self _ _ _), Function.update_idem, ← hh₂,
      if_pos hrefs₂, hc₂, Bool.not_false, assert_true, hkey, accept]
    rfl
  refine ⟨{ c with
    cells := Function.update c.cells (.handle n) none
    deleted := c.deleted ++ [deletion h₂.lruEntry] }, ?_, rfl, ?_⟩
  · have hhead : some (Addr.handle n) ≠ some (.head .lru) := by simp
    simp only [destroyFromWith, if_neg hhead, deref_some hcell, ok_bind, hc, assert_true,
      modify_some hcell, ← hh₁, deref_some (Function.update_self _ _ _), assert_of hrefs₁, hunref]
    rw [hnext]
  · rw [hh₂, hh₁]
    rfl

/-- **The loop of the destructor** deletes handles that only the cache refers to and that lead to
the head of the list, in their order. -/
theorem destroyFrom_eq {entries : ℕ → Option (LruEntry Bytes (ℕ × ℕ) UInt64)} {l : List ℕ}
    {fuel : ℕ} (hfuel : l.length < fuel) (hnodup : l.Nodup)
    (hentry : ∀ i ∈ l, ∃ h, c.cells.entry i = some h ∧ h.inCache = true ∧ h.refs = 1 ∧
      entries i = some h.lruEntry)
    (hnext : ∀ i l', i :: l' <:+ l →
      c.cells.next (.handle i) = some ((l'.map .handle).headD (.head .lru))) :
    ∃ c', c.destroyFromWith accept fuel (some ((l.map .handle).headD (.head .lru))) = .ok c' ∧
      c'.deleted = c.deleted ++ (l.filterMap entries).map deletion := by
  obtain ⟨fuel, rfl⟩ : ∃ k, fuel = k + 1 := ⟨fuel - 1, by omega⟩
  induction l generalizing c fuel with
  | nil => exact ⟨c, by simp [destroyFromWith], by simp⟩
  | cons n l ih =>
    obtain ⟨hn, hnodup'⟩ := List.nodup_cons.mp hnodup
    obtain ⟨h, he, hc, hrefs, hent⟩ := hentry n (by simp)
    have hne : (l.map Addr.handle).headD (.head .lru) ≠ .handle n := by
      rcases l with _ | ⟨i, l⟩
      · simp
      · rintro ⟨⟩
        simp at hn
    obtain ⟨c₁, hstep, hcells, hdeleted⟩ :=
      destroyFrom_step he hc hrefs (hnext n l List.suffix_rfl) hne fuel
    -- the handles that are left are not the one that was freed
    have hleft : ∀ i ∈ l, c₁.cells (.handle i) = c.cells (.handle i) := by
      intro i hi
      have hin : i ≠ n := ne_of_mem_of_not_mem hi hn
      simp [hcells, hin]
    have hentry' : ∀ i ∈ l, ∃ h, c₁.cells.entry i = some h ∧ h.inCache = true ∧ h.refs = 1 ∧
        entries i = some h.lruEntry := by
      intro i hi
      obtain ⟨h', he', hi'⟩ := hentry i (List.mem_cons_of_mem n hi)
      exact ⟨h', by rw [entry, hleft i hi]; exact he', hi'⟩
    have hnext' : ∀ i l', i :: l' <:+ l →
        c₁.cells.next (.handle i) = some ((l'.map .handle).headD (.head .lru)) := by
      intro i l' hl'
      rw [next, hleft i (hl'.subset List.mem_cons_self)]
      exact hnext i l' (hl'.trans (List.suffix_cons n l))
    rw [List.length_cons] at hfuel
    obtain ⟨fuel, rfl⟩ : ∃ k, fuel = k + 1 := ⟨fuel - 1, by omega⟩
    obtain ⟨c', hok, hdeleted'⟩ := ih hnodup' hentry' hnext' fuel (by omega)
    refine ⟨c', ?_, ?_⟩
    · rw [List.map_cons, List.headD_cons, hstep, hok]
    · rw [hdeleted', hdeleted, List.filterMap_cons_some hent]
      simp

/-- **The destructor**, when no client holds anything, deletes the idle entries. -/
theorem Refines.destroy (hr : Refines none c lists m) (hheld : ∀ n, m.held n = 0) :
    ∃ c', c.destroyWith accept = .ok c' ∧
      c'.deleted = c.deleted ++ (m.idle.filterMap (m.entries[·]?)).map deletion := by
  have hi := hr.inv
  have hcached : ∀ {side n}, n ∈ lists side → ∃ h, c.cells.entry n = some h ∧
      h.inCache = true ∧ h.refs = 1 ∧ side = .lru := by
    intro side n hn
    obtain ⟨h, he, hc, hside⟩ := hi.mem_lists.mp hn
    have hrefs : h.refs = 1 := by
      rw [← UInt32.toNat_inj, hi.refs he, hheld, hc]
      rfl
    exact ⟨h, he, hc, hrefs, by rw [← hside, LRUHandle.side, if_pos hrefs]⟩
  have hnil : lists .inUse = [] := by
    refine List.eq_nil_iff_forall_not_mem.mpr fun n hn => ?_
    obtain ⟨h, -, -, -, hside⟩ := hcached hn
    cases hside
  obtain ⟨inUse, hd, hnext, -⟩ := (hi.linked.live_head .inUse).deref
  rw [(hi.linked.ring .inUse).next_head, hnil] at hnext
  obtain ⟨lru, hd', hnext', -⟩ := (hi.linked.live_head .lru).deref
  rw [(hi.linked.ring .lru).next_head, hr.idle] at hnext'
  have hentry : ∀ n ∈ m.idle, ∃ h, c.cells.entry n = some h ∧ h.inCache = true ∧ h.refs = 1 ∧
      m.entries[n]? = some h.lruEntry := by
    intro n hn
    obtain ⟨h, he, hc, hrefs, -⟩ := hcached (hr.idle ▸ hn)
    exact ⟨h, he, hc, hrefs, hr.entries he⟩
  have hpath : ∀ n l', n :: l' <:+ m.idle →
      c.cells.next (.handle n) = some ((l'.map .handle).headD (.head .lru)) := by
    rintro n l' ⟨l, hl⟩
    have hring := hi.linked.ring .lru
    rw [hr.idle, ← hl, List.map_append, List.map_cons] at hring
    exact hring.next_mem
  obtain ⟨c', hok, hdeleted⟩ := destroyFrom_eq (Nat.lt_succ_of_le hr.length_idle_le)
    (hr.idle ▸ hi.linked.nodup .lru) hentry hpath
  refine ⟨c', ?_, hdeleted⟩
  have hempty : inUse.next = some (.head .inUse) := hnext
  simp only [destroyWith, hd, ok_bind, assert_of hempty, hd', hnext', hok]

end Destructor

/-! ### Over a run -/

/-- **Every entry is deleted once**, and not while it can still be reached. Every call after the run
does the same with every deleter that fails on a handle that a client holds or that something
leads to. Once no client holds a handle, the destructor completes, and the deleter calls made by
then are those that the inserted entries are due. -/
theorem deletedOnce_of_run {calls : List Call} {s : Session}
    (h : RunWithin Fits Session.start Session.Enabled Session.exec calls s) :
    (∀ call, s.Enabled call → ∃ s', s.exec call = .ok s' ∧ s.Steps call s') ∧
      ((∀ n, s.outstanding n = 0) → ∃ c', s.cache.destroyWith accept = .ok c' ∧
        c'.deleted.Perm ((insertions calls).map deletion)) := by
  obtain ⟨hs, hwf⟩ := (implements_opened 0).run (PinnedLru.wf_new 0 0) h
  refine ⟨fun call hen => ?_, fun hout => ?_⟩
  · obtain ⟨s', hsteps, -⟩ := hs.exec hen
    exact ⟨s', hsteps.exec_eq, hsteps⟩
  · obtain ⟨⟨lists, hr⟩, hheld⟩ := hs
    have hzero : ∀ n, (mapAfter { capacity := 0, usage := 0 } calls).held n = 0 := fun n => by
      rw [hheld, hout]
    obtain ⟨c', hok, hdeleted⟩ := hr.destroy hzero
    refine ⟨c', hok, ?_⟩
    have hentries := mapAfter_entries { capacity := 0, usage := 0 } calls
    rw [List.nil_append] at hentries
    have hperm := (hwf.freed_perm hzero).map deletion
    rw [List.map_append, List.map_map] at hperm
    rw [hdeleted, hr.deleted, ← hentries]
    exact hperm

/-- An entry that was inserted, erased while it was held, and released. -/
theorem deletedOnce_erased :
    ∃ s c', RunWithin Fits Session.start Session.Enabled Session.exec
        [.setCapacity 1, .insert emptyKey 0 7 1 3, .erase emptyKey, .release 0] s ∧
      s.cache.destroyWith accept = .ok c' ∧
      c'.deleted.Perm [{ deleter := 3, key := [], value := 7 }] := by
  obtain ⟨s, hrun, hout⟩ : ∃ s, RunWithin Fits Session.start Session.Enabled Session.exec
      [.setCapacity 1, .insert emptyKey 0 7 1 3, .erase emptyKey, .release 0] s ∧
        ∀ n, s.outstanding n = 0 := by
    have hzero : ∀ n, Function.update (Function.update (fun _ => 0) 0 1) 0 0 n = 0 := by
      intro n
      by_cases hn : n = 0 <;> simp [hn]
    have hstart : Fits Session.start := fun _ => by simp [Session.start]
    refine ⟨_, ((((RunWithin.init hstart).step (i := Call.setCapacity 1) trivial rfl
      (by exact hstart)).step (i := Call.insert emptyKey 0 7 1 3) trivial rfl
      (by exact update_one_fits)).step (i := Call.erase emptyKey) trivial rfl
      (by exact update_one_fits)).step (i := Call.release 0) (by exact Nat.one_pos) rfl
      fun n => ?_, hzero⟩
    exact Nat.lt_of_le_of_lt (Nat.add_le_add_right (hzero n).le 1) (by decide)
  obtain ⟨c', hok, hperm⟩ := (deletedOnce_of_run hrun).2 hout
  exact ⟨s, c', hrun, hok, hperm⟩

/-- A deleter that fails on an entry that a client holds. -/
def rejectHeld (out : ℕ → ℕ) : Deleter
  | _, .handle n => if out n = 0 then .ok () else .error .assertFailed
  | _, .head _ => .ok ()

/-- A deleter that fails on the oldest entry of `lru_`. -/
def rejectOldest : Deleter := fun c e =>
  if c.cells.next (.head .lru) = some e then .error .assertFailed else .ok ()

/-- An entry is deleted although a client holds it, once the reference count has wrapped around;
and the destructor deletes entries that are still on `lru_`. -/
theorem not_deletedOnce :
    (∃ s, Run Session.start Session.Enabled Session.exec
        (.setCapacity 1 :: .insert emptyKey 0 0 0 0 ::
          List.replicate (2 ^ 32 - 1) (.lookup emptyKey)) s ∧
        (∀ out, Accepts (rejectHeld out) out) ∧
        s.execWith rejectHeld (.erase emptyKey) = .error .assertFailed) ∧
      ∃ s, Run Session.start Session.Enabled Session.exec
        [.setCapacity 1, .insert emptyKey 0 0 0 0, .release 0] s ∧
        (∀ n, s.outstanding n = 0) ∧ (∀ out, Accepts rejectOldest out) ∧
        s.cache.destroyWith rejectOldest = .error .assertFailed := by
  constructor
  · obtain ⟨s, hrun, hp, hlinks⟩ := exists_pinned (2 ^ 32 - 1) (by omega)
    obtain ⟨c, c', -, herase⟩ := hp.eraseWith hlinks (by omega)
    refine ⟨s, hrun.cons (i := Call.setCapacity 1) trivial trivial rfl, fun out c n hn _ => ?_, ?_⟩
    · simp only [rejectHeld, if_pos hn]
    · have hne : s.outstanding 0 ≠ 0 := by
        rw [hp.2.1]
        omega
      simp only [Session.execWith, herase, rejectHeld, if_neg hne, error_bind]
  · refine ⟨_, (((RunWithin.init trivial).step (i := Call.setCapacity 1) trivial rfl trivial).step
      (i := Call.insert emptyKey 0 0 0 0) trivial rfl trivial).step (i := Call.release 0)
      (by exact Nat.one_pos) rfl trivial, fun n => ?_, fun out c n _ hun => ?_, rfl⟩
    · change Function.update (Function.update (fun _ => 0) 0 1) 0 0 n = 0
      by_cases hn : n = 0 <;> simp [hn]
    · exact if_neg fun hnext => hun.lists .lru (.single (.inl hnext))

end LRUCache

end TinyLeveldb
