import TinyLeveldb.Library.LruHistory

/-!
# In which order a map of pinned entries drops them

The idle entries of `PinnedLru` are in the order in which they were released for the last time.
`InOrder` is this order over any history of events, with two rules for a history that goes on: what
has one more event goes to the end (`InOrder.concat`), and what has none stays in its place
(`InOrder.sublist`).

What the eviction loop drops is the shortest prefix of the idle entries without which there is room,
and all of them where there is no such prefix (`WF.evictWhile_evicted`).
-/

namespace Library

/-! ### The order of the last events -/

section InOrder

variable {α β : Type*} {event : β → α} {history : List α} {ns ns' : List β} {a b x : α} {n : β}

/-- Both events happened, and the first of them for the last time before the other did. -/
def LastBefore (history : List α) (a b : α) : Prop :=
  ∃ pre post, history = pre ++ b :: post ∧ a ∈ pre ∧ a ∉ b :: post

theorem LastBefore.concat (h : LastBefore history a b) (hx : a ≠ x) :
    LastBefore (history ++ [x]) a b := by
  obtain ⟨pre, post, rfl, hpre, hpost⟩ := h
  refine ⟨pre, post ++ [x], by simp, hpre, ?_⟩
  rw [← List.cons_append, List.mem_append, List.mem_singleton]
  exact not_or.mpr ⟨hpost, hx⟩

theorem lastBefore_concat (ha : a ∈ history) (hne : a ≠ b) : LastBefore (history ++ [b]) a b :=
  ⟨history, [], rfl, ha, by simpa using hne⟩

/-- Everything had its event, and what is first in the list had the last of its events first. -/
structure InOrder (event : β → α) (history : List α) (ns : List β) : Prop where
  mem : ∀ n ∈ ns, event n ∈ history
  order : ns.Pairwise fun i j => LastBefore history (event i) (event j)

theorem inOrder_nil : InOrder event history [] := ⟨by simp, List.Pairwise.nil⟩

/-- What is left stays in its place, unless the history goes on with an event of its own. -/
theorem InOrder.sublist (h : InOrder event history ns) (hns : ns'.Sublist ns)
    (hx : ∀ n ∈ ns', event n ≠ x) : InOrder event (history ++ [x]) ns' where
  mem n hn := List.mem_append_left _ (h.mem n (hns.subset hn))
  order := (h.order.sublist hns).imp_of_mem fun hi _ hij => hij.concat (hx _ hi)

/-- What has an event goes to the end. -/
theorem InOrder.concat (h : InOrder event history ns) (hn : ∀ i ∈ ns, event i ≠ event n) :
    InOrder event (history ++ [event n]) (ns ++ [n]) := by
  obtain ⟨hmem, horder⟩ := h.sublist (List.Sublist.refl ns) hn
  refine ⟨fun i hi => ?_, List.pairwise_append.mpr ⟨horder, List.pairwise_singleton _ _, ?_⟩⟩
  · rcases List.mem_append.mp hi with hi | hi
    · exact hmem i hi
    · rw [List.mem_singleton.mp hi]
      simp
  · intro i hi j hj
    obtain rfl := List.mem_singleton.mp hj
    exact lastBefore_concat (h.mem i hi) (hn i hi)

end InOrder

namespace PinnedLru

variable {κ ν υ : Type*} [DecidableEq κ] [Sub υ] {m m₁ m' : PinnedLru κ ν υ} {n : ℕ}
  {ns ns' : List ℕ}

/-! ### What is idle after a request -/

omit [DecidableEq κ] [Sub υ] in
@[simp]
theorem giveUp_idle (m : PinnedLru κ ν υ) (n : ℕ) : (m.giveUp n).idle = m.idle := by
  rw [giveUp]
  repeat' split
  all_goals rfl

omit [DecidableEq κ] [Sub υ] in
@[simp]
theorem giveUp_table (m : PinnedLru κ ν υ) (n : ℕ) : (m.giveUp n).table = m.table := by
  rw [giveUp]
  repeat' split
  all_goals rfl

omit [DecidableEq κ] in
@[simp]
theorem dropOld_table (m : PinnedLru κ ν υ) (x : Option ℕ) : (m.dropOld x).table = m.table := by
  rcases x with _ | n
  · rfl
  · rw [PinnedLru.dropOld, PinnedLru.drop]
    split <;> simp

omit [DecidableEq κ] in
theorem idle_drop (m : PinnedLru κ ν υ) (n : ℕ) : (m.drop n).idle.Sublist m.idle := by
  rw [PinnedLru.drop]
  split
  · rw [giveUp_idle]
    exact List.erase_sublist
  · exact List.Sublist.refl _

omit [DecidableEq κ] in
theorem idle_dropOld (m : PinnedLru κ ν υ) (x : Option ℕ) : (m.dropOld x).idle.Sublist m.idle := by
  rcases x with _ | n
  · exact List.Sublist.refl _
  · exact m.idle_drop n

/-- What was under the key of a new entry is not idle any more. -/
theorem WF.idle_enter [Add υ] [Zero υ] (h : WF none m) (e : LruEntry κ ν υ) :
    (m.enter e).idle = m.idle.filter fun n => m.table e.key ≠ some n := by
  rw [PinnedLru.enter]
  rcases hold : m.table e.key with _ | n
  · simp [PinnedLru.dropOld, PinnedLru.create]
  · obtain ⟨e', he', -⟩ := h.exists_entry hold
    have he : (m.entries ++ [e])[n]? = some e' := by
      rw [List.getElem?_append_left (List.getElem?_eq_some_iff.mp he').1, he']
    simp only [PinnedLru.dropOld, PinnedLru.drop, PinnedLru.create, he, giveUp_idle,
      h.idle_nodup.erase_eq_filter]
    refine List.filter_congr fun i _ => ?_
    rw [Bool.eq_iff_iff, bne_iff_ne]
    simp [ne_comm]

theorem idle_evictWhile_sublist (m : PinnedLru κ ν υ) (full : PinnedLru κ ν υ → Bool) (fuel : ℕ) :
    (m.evictWhile full fuel).idle.Sublist m.idle := by
  induction fuel generalizing m with
  | zero => exact List.Sublist.refl _
  | succ fuel ih =>
    rw [PinnedLru.evictWhile]
    split
    · refine (ih m.evictOldest).trans ?_
      rw [PinnedLru.evictOldest]
      repeat' split
      · exact List.Sublist.refl _
      · exact idle_drop _ _
      · exact List.Sublist.refl _
    · exact List.Sublist.refl _

/-- **Only a release makes an entry idle**, and it becomes the last one. -/
theorem idle_exec [Add υ] [Zero υ] [LT υ] [DecidableLT υ] (m : PinnedLru κ ν υ)
    (op : LruRequest κ ν υ) :
    (m.exec op).idle.Sublist m.idle ∨
      ∃ n, op = .release n ∧ (m.exec op).idle = m.idle ++ [n] := by
  rcases op with capacity | e | k | n | k | _
  · exact .inl (List.Sublist.refl _)
  · left
    refine (idle_evictWhile_sublist _ _ _).trans ?_
    split
    · exact idle_dropOld _ _
    · exact List.Sublist.refl _
  · left
    rw [PinnedLru.exec, PinnedLru.lookup]
    split
    · exact List.Sublist.refl _
    · exact List.erase_sublist
  · rw [PinnedLru.exec, PinnedLru.release]
    simp only
    split
    · split
      · exact .inr ⟨n, rfl, rfl⟩
      · exact .inl (List.Sublist.refl _)
    · exact .inl (by rw [giveUp_idle])
  · exact .inl (idle_dropOld _ _)
  · exact .inl (idle_evictWhile_sublist _ _ _)

/-- **Step lemma.** The idle entries stay in the order in which they were last released. -/
theorem WF.inOrder_exec [Add υ] [Zero υ] [LT υ] [DecidableLT υ] {α : Type*} {release : ℕ → α}
    {history : List α} {x : α} {op : LruRequest κ ν υ} (h : WF none m) (hop : m.Enabled op)
    (hx : ∀ n, x = release n ↔ op = .release n)
    (horder : InOrder release history m.idle) :
    InOrder release (history ++ [x]) (m.exec op).idle := by
  -- nobody has an idle entry to release
  have hne : ∀ i ∈ m.idle, release i ≠ x := by
    intro i hi heq
    obtain rfl := (hx i).mp heq.symm
    exact hop (h.mem_idle.mp hi).2
  rcases m.idle_exec op with hsub | ⟨n, hn, hidle⟩
  · exact horder.sublist hsub fun i hi => hne i (hsub.subset hi)
  · obtain rfl := (hx n).mpr hn
    rw [hidle]
    exact horder.concat hne

/-! ### What is evicted -/

/-- What is left of the usage when the charges of the entries are taken off in turn. -/
def usageWithout (m : PinnedLru κ ν υ) (ns : List ℕ) : υ :=
  ns.foldl (fun usage n =>
    match m.entries[n]? with
    | some e => usage - e.charge
    | none => usage) m.usage

/-- The oldest idle entries `ns` were dropped, and nothing else. -/
structure Evicted (m : PinnedLru κ ν υ) (ns : List ℕ) (m' : PinnedLru κ ν υ) : Prop where
  idle : m.idle = ns ++ m'.idle
  usage : m'.usage = m.usageWithout ns
  freed : m'.freed = m.freed ++ ns.filterMap fun n => (m.entries[n]?).map (Prod.mk n)
  table : ∀ {k n}, m'.table k = some n ↔ m.table k = some n ∧ n ∉ ns
  entries : m'.entries = m.entries

omit [DecidableEq κ] in
theorem evicted_nil (m : PinnedLru κ ν υ) : Evicted m [] m :=
  ⟨rfl, rfl, by simp, by simp, rfl⟩

omit [DecidableEq κ] in
theorem Evicted.usageWithout_append (h : Evicted m ns m₁) (ns' : List ℕ) :
    m.usageWithout (ns ++ ns') = m₁.usageWithout ns' := by
  rw [usageWithout, List.foldl_append, usageWithout, h.entries, h.usage]
  rfl

omit [DecidableEq κ] in
theorem Evicted.trans (h : Evicted m ns m₁) (h' : Evicted m₁ ns' m') :
    Evicted m (ns ++ ns') m' where
  idle := by rw [h.idle, h'.idle, List.append_assoc]
  usage := by rw [h'.usage, h.usageWithout_append]
  freed := by rw [h'.freed, h.freed, h.entries, List.filterMap_append, List.append_assoc]
  table {k n} := by rw [h'.table, h.table, List.mem_append, not_or, and_assoc]
  entries := h'.entries.trans h.entries

/-- The body of the loop drops the oldest idle entry. -/
theorem WF.evicted_evictOldest (h : WF none m) {l : List ℕ} (hidle : m.idle = n :: l) :
    Evicted m [n] m.evictOldest := by
  obtain ⟨e, he, htable⟩ := h.exists_of_idle hidle
  have hheld : m.held n = 0 := (h.mem_idle.mp (by simp [hidle])).2
  have hev : m.evictOldest =
      { m with
        table := Function.update m.table e.key none
        log := m.log ++ [.dropped n]
        idle := l
        usage := m.usage - e.charge
        freed := m.freed ++ [(n, e)] } := by
    simp only [evictOldest_eq hidle he, PinnedLru.drop, PinnedLru.giveUp, he, hheld, hidle,
      List.erase_cons_head, if_true]
  rw [hev]
  refine ⟨hidle, ?_, ?_, fun {k i} => ?_, rfl⟩
  · simp [usageWithout, he]
  · simp [he]
  · rw [List.mem_singleton]
    by_cases hk : k = e.key
    · subst hk
      simp [htable, eq_comm]
    · -- the entry has one key
      simp only [Function.update_of_ne hk]
      refine (and_iff_left_of_imp fun hi hin => ?_).symm
      subst hin
      obtain ⟨e', he', rfl⟩ := h.exists_entry hi
      rw [he] at he'
      cases he'
      exact hk rfl

/-- **What the loop drops** is the shortest prefix of the idle entries without which the map is not
full, and all of them where there is no such prefix. -/
theorem WF.evictWhile_evicted (h : WF none m) {full : PinnedLru κ ν υ → Bool} {p : υ → Prop}
    (hfull : ∀ m', m'.capacity = m.capacity → (full m' = true ↔ p m'.usage)) {fuel : ℕ}
    (hfuel : m.idle.length ≤ fuel) :
    ∃ ns, Evicted m ns (m.evictWhile full fuel) ∧
      (∀ pre, pre <+: ns → pre ≠ ns → p (m.usageWithout pre)) ∧
      (¬ p (m.usageWithout ns) ∨ (m.evictWhile full fuel).idle = []) := by
  have hstop (m : PinnedLru κ ν υ) (pre : List ℕ) (hpre : pre <+: []) (hne : pre ≠ []) :
      p (m.usageWithout pre) := absurd (List.prefix_nil.mp hpre) hne
  induction fuel generalizing m with
  | zero =>
    have hempty : m.idle = [] := List.length_eq_zero_iff.mp (Nat.le_zero.mp hfuel)
    exact ⟨[], m.evicted_nil, hstop m, .inr hempty⟩
  | succ fuel ih =>
    rw [PinnedLru.evictWhile]
    split
    · rename_i hcond
      obtain ⟨hm, hne⟩ := hcond
      rcases hidle : m.idle with _ | ⟨n, l⟩
      · exact absurd hidle hne
      · obtain ⟨e, he, -⟩ := h.exists_of_idle hidle
        have hone := h.evicted_evictOldest hidle
        have hlen : m.evictOldest.idle.length ≤ fuel := by
          rw [idle_evictOldest hidle he]
          rw [hidle, List.length_cons] at hfuel
          omega
        obtain ⟨ns, hev, hpre, hend⟩ := ih h.evictOldest
          (fun m' hm' => hfull m' (by rw [hm', evictOldest_capacity])) hlen
        refine ⟨n :: ns, hone.trans hev, fun pre hprefix hne => ?_, ?_⟩
        · rcases pre with _ | ⟨i, pre⟩
          · exact (hfull m rfl).mp hm
          · obtain ⟨rfl, hrest⟩ := List.cons_prefix_cons.mp hprefix
            rw [← List.singleton_append, hone.usageWithout_append]
            exact hpre pre hrest fun heq => hne (by rw [heq])
        · rw [← List.singleton_append, hone.usageWithout_append]
          exact hend
    · rename_i hcond
      refine ⟨[], m.evicted_nil, hstop m, ?_⟩
      rw [not_and_or, not_not] at hcond
      exact hcond.imp_left fun hm hp => hm ((hfull m rfl).mpr hp)

/-- Pruning drops all idle entries. -/
theorem WF.prune_evicted (h : WF none m) : Evicted m m.idle m.prune ∧ m.prune.idle = [] := by
  obtain ⟨ns, hev, -, hend⟩ := h.evictWhile_evicted (p := fun _ => True)
    (fun _ _ => iff_of_true rfl trivial) (Nat.le_refl m.idle.length)
  change Evicted m ns m.prune at hev
  have hnil : m.prune.idle = [] := hend.resolve_left fun hnot => hnot trivial
  have hidle : m.idle = ns := by rw [hev.idle, hnil, List.append_nil]
  exact ⟨hidle ▸ hev, hnil⟩

section Insert

variable [Add υ] [Zero υ] [LT υ] [DecidableLT υ]

/-- The map before an insertion makes room: the new entry is there. -/
def entered (m : PinnedLru κ ν υ) (e : LruEntry κ ν υ) : PinnedLru κ ν υ :=
  if 0 < m.capacity then m.enter e else m.create e

@[simp]
theorem entered_capacity (m : PinnedLru κ ν υ) (e : LruEntry κ ν υ) :
    (m.entered e).capacity = m.capacity := by
  rw [entered]
  split <;> simp [PinnedLru.enter, PinnedLru.create]

theorem WF.entered (h : WF none m) (e : LruEntry κ ν υ) : WF none (m.entered e) := by
  rw [PinnedLru.entered]
  split
  · exact h.enter e
  · exact h.create e

/-- Without capacity nothing is displaced. -/
theorem WF.idle_entered (h : WF none m) (e : LruEntry κ ν υ) :
    (m.entered e).idle =
      if 0 < m.capacity then m.idle.filter fun n => m.table e.key ≠ some n else m.idle := by
  rw [PinnedLru.entered]
  split
  · exact h.idle_enter e
  · rfl

/-- **What an insertion drops** is the shortest prefix of the idle entries without which there is
room. Nobody has any of it pinned, and the new entry stays under its key. -/
theorem WF.insert_evicted (h : WF none m) (e : LruEntry κ ν υ) :
    ∃ ns, Evicted (m.entered e) ns (m.insert e) ∧
      (∀ pre, pre <+: ns → pre ≠ ns → m.capacity < (m.entered e).usageWithout pre) ∧
      (¬ m.capacity < (m.insert e).usage ∨ (m.insert e).idle = []) ∧
      (∀ n ∈ ns, n ∈ (m.entered e).idle ∧ (m.insert e).held n = 0) ∧
      (0 < m.capacity → (m.insert e).table e.key = some m.entries.length) := by
  have hfull : ∀ m' : PinnedLru κ ν υ, m'.capacity = (m.entered e).capacity →
      (decide (m'.capacity < m'.usage) = true ↔ m.capacity < m'.usage) := fun m' hm' => by
    rw [decide_eq_true_iff, hm', entered_capacity]
  obtain ⟨ns, hev, hshort, hend⟩ := (h.entered e).evictWhile_evicted
    (p := fun usage => m.capacity < usage) hfull (Nat.le_refl _)
  change Evicted (m.entered e) ns (m.insert e) at hev
  have hidle : ∀ n ∈ ns, n ∈ (m.entered e).idle := fun n hn => by
    rw [hev.idle]
    exact List.mem_append_left _ hn
  have hheld : (m.insert e).held = (m.entered e).held := evictWhile_held _ _ _
  refine ⟨ns, hev, hshort, ?_, fun n hn => ⟨hidle n hn, ?_⟩, fun hpos => hev.table.mpr ⟨?_, ?_⟩⟩
  · rw [hev.usage]
    exact hend
  · rw [hheld]
    exact ((h.entered e).mem_idle.mp (hidle n hn)).2
  · rw [PinnedLru.entered, if_pos hpos, PinnedLru.enter, dropOld_table]
    exact Function.update_self _ _ _
  · intro hmem
    have hzero := ((h.entered e).mem_idle.mp (hidle _ hmem)).2
    rw [← hheld, insert_held, Function.update_self] at hzero
    cases hzero

end Insert

end PinnedLru

end Library
