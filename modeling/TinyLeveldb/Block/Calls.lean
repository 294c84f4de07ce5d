import TinyLeveldb.Block.Seek

/-!
# The calls of a block iterator, and the restart index

`SeekToLast` replays the last group from its restart on; where the group shares nothing it ends on
the last entry of the block (`seeksToLast_of_unshared`).

`restart_index` is meant to be the group of the entry the iterator stands on. The loop of
`parseNext` moves it on past the restarts that are *strictly* before the entry, so it is one behind
on an entry that is a restart itself, unless it was right before the call; and `SeekToFirst` leaves
it as it was. `group_of_run` says when the index is right after every call of a run.
-/

namespace TinyLeveldb

open Library

namespace BlockIter

/-- The loop of `SeekToLast`. -/
def nextToLimit : ℕ → BlockIter → Except Fault BlockIter
  | 0, _ => .error .diverged
  | fuel + 1, it =>
      if it.current < it.restarts then do
        let it ← it.next
        nextToLimit fuel it
      else .ok it

/-- `SeekToLast`. -/
def seekToLast (fuel : ℕ) (it : BlockIter) : Except Fault BlockIter := do
  let restartIndex := it.restartsNum - 1
  let current ← readFixed32 it.data (it.restarts.toNat + restartIndex.toNat * 4)
  nextToLimit fuel { it with restartIndex, current }

/-- With enough fuel, `SeekToLast` ends on the last entry, and the restart index is that of its
group. -/
def SeeksToLast (it : BlockIter) (img : Image) : Prop :=
  ∃ fuel₀, ∀ fuel ≥ fuel₀, ∃ it' e, it.seekToLast fuel = .ok it' ∧
    img.entries.getLast? = some e ∧ it'.key = e.key ∧ it'.value = e.value ∧
    img.GroupOf (img.entries.length - 1) it'.restartIndex.toNat

end BlockIter

/-- Nothing is shared from the last restart on. -/
def Image.LastGroupUnshared (img : Image) : Prop :=
  ∀ r i e, img.restarts.getLast? = some r → r ≤ i → img.entries[i]? = some e → e.shared = 0

namespace BlockIter

variable {img : Image} {it : BlockIter}

/-! ### `SeekToLast` -/

/-- The loop of `SeekToLast` in the last group: the restart index stays. -/
theorem nextToLimit_eq (hw : img.WellFormed) (hd : it.Describes img) {fuel i : ℕ}
    (hi : i < img.entries.length) (hcurrent : it.current.toNat = img.offset i)
    (hindex : it.restartIndex.toNat + 1 = img.restarts.length)
    (hshared : ∀ j e, i ≤ j → img.entries[j]? = some e → e.shared = 0)
    (hfuel : img.entries.length - i < fuel) :
    ∃ it' e, nextToLimit fuel it = .ok it' ∧ it'.Describes img ∧
      img.entries.getLast? = some e ∧ it'.key = e.key ∧ it'.value = e.value ∧
      it'.current.toNat = img.offset img.entries.length ∧ it'.restartIndex = it.restartIndex := by
  induction fuel generalizing it i with
  | zero => omega
  | succ fuel ih =>
    have hget := List.getElem?_eq_getElem hi
    obtain ⟨it', hnext, hd', hkey, hvalue, hcurrent', hadv⟩ :=
      next_of_unshared hw hd hget (hshared i _ le_rfl hget) hcurrent
    have hstay : it'.restartIndex = it.restartIndex := by
      rcases hadv.passed with heq | ⟨r, hr, -⟩
      · exact heq
      · -- there is no restart behind the last one
        obtain ⟨hlt, -⟩ := List.getElem?_eq_some_iff.mp hr
        have hlast : img.restarts[it.restartIndex.toNat]? ≠ none := by
          rw [ne_eq, List.getElem?_eq_none_iff]
          omega
        obtain ⟨s, hs⟩ := Option.ne_none_iff_exists'.mp hlast
        have hle := hadv.le
        rw [hw.toNat_succ hr, hw.toNat_succ hs] at hle
        exact UInt32.toNat_inj.mp (by omega)
    have hinside : it.current < it.restarts := by
      rw [UInt32.lt_iff_toNat_lt, hcurrent, hd.restarts, ← img.offset_length]
      exact img.offset_lt_offset hi hi
    rw [nextToLimit, if_pos hinside, hnext, ok_bind]
    rcases Nat.lt_or_ge (i + 1) img.entries.length with hlt | hge
    · obtain ⟨it'', e, hloop, hd'', hlast, hkey'', hvalue'', hcurrent'', hindex''⟩ :=
        ih hd' hlt hcurrent' (hstay ▸ hindex) (fun j e hj => hshared j e (by omega)) (by omega)
      exact ⟨it'', e, hloop, hd'', hlast, hkey'', hvalue'', hcurrent'', hindex''.trans hstay⟩
    · -- that was the last entry
      have heq : i + 1 = img.entries.length := by omega
      rw [heq] at hcurrent'
      obtain ⟨fuel, rfl⟩ : ∃ f, fuel = f + 1 := ⟨fuel - 1, by omega⟩
      have hend : ¬ it'.current < it'.restarts := by
        rw [UInt32.lt_iff_toNat_lt, hcurrent', hd'.restarts, ← img.offset_length]
        exact lt_irrefl _
      refine ⟨it', img.entries[i], by rw [nextToLimit, if_neg hend], hd', ?_, hkey, hvalue,
        hcurrent', hstay⟩
      rw [List.getLast?_eq_getElem?, ← heq, Nat.add_sub_cancel, hget]

/-- The last restart is the group of the last entry. -/
theorem groupOf_last (hw : img.WellFormed) (hne : img.entries ≠ []) :
    img.GroupOf (img.entries.length - 1) (img.restarts.length - 1) := by
  have hpos := List.length_pos_of_ne_nil hne
  have hfirst := hw.first hne
  have hrestarts : 0 < img.restarts.length := by
    rw [List.head?_eq_getElem?] at hfirst
    exact (List.getElem?_eq_some_iff.mp hfirst).1
  have hget := List.getElem?_eq_getElem
    (show img.restarts.length - 1 < img.restarts.length by omega)
  have hlt := hw.restarts_lt _ (List.mem_of_getElem? hget)
  refine Image.groupOf_of_between hw (by omega) hget (by omega) fun s' hs' => ?_
  have := (List.getElem?_eq_some_iff.mp hs').1
  omega

/-- `SeekToLast` when the last group shares nothing. -/
theorem exists_seekToLast (hw : img.WellFormed) (hd : it.Describes img) (hne : img.entries ≠ [])
    (hshared : img.LastGroupUnshared) {fuel : ℕ} (hfuel : img.entries.length < fuel) :
    ∃ it' e, it.seekToLast fuel = .ok it' ∧ it'.Describes img ∧
      img.entries.getLast? = some e ∧ it'.key = e.key ∧ it'.value = e.value ∧
      it'.current.toNat = img.offset img.entries.length ∧
      img.GroupOf (img.entries.length - 1) it'.restartIndex.toNat := by
  have hgroup := groupOf_last hw hne
  obtain ⟨r, hr, -⟩ := hgroup.1
  have hlt := (List.getElem?_eq_some_iff.mp hr).1
  have hindex : (it.restartsNum - 1).toNat = img.restarts.length - 1 := by
    have hone : (1 : UInt32) ≤ it.restartsNum := by
      rw [UInt32.le_iff_toNat_le, hd.restartsNum, UInt32.toNat_one]
      omega
    rw [UInt32.toNat_sub_of_le _ _ hone, hd.restartsNum, UInt32.toNat_one]
  have hread : readFixed32 it.data (it.restarts.toNat + (it.restartsNum - 1).toNat * 4) =
      .ok (UInt32.ofNat (img.offset r)) := by
    rw [hd.data, hd.restarts, hindex]
    exact img.read_restart hr
  have hlast : img.restarts.getLast? = some r := by rw [List.getLast?_eq_getElem?, hr]
  have hd' := hd.moved (it.restartsNum - 1) (UInt32.ofNat (img.offset r))
  have hrounds : img.entries.length - r < fuel := by omega
  obtain ⟨it', e, hloop, hd'', he, hkey, hvalue, hcurrent, hsame⟩ :=
    nextToLimit_eq hw hd' (hw.restarts_lt r (List.mem_of_getElem? hr)) (hw.toNat_offset r)
      (by change (it.restartsNum - 1).toNat + 1 = _; omega) (fun j e => hshared r j e hlast) hrounds
  refine ⟨it', e, ?_, hd'', he, hkey, hvalue, hcurrent, ?_⟩
  · rw [seekToLast, hread, ok_bind, hloop]
  · rw [hsame]
    change img.GroupOf _ (it.restartsNum - 1).toNat
    rwa [hindex]

/-- **Where `SeekToLast` is right**: nothing is shared from the last restart on. -/
theorem seeksToLast_of_unshared (hw : img.WellFormed) (hd : it.Describes img)
    (hne : img.entries ≠ []) (hshared : img.LastGroupUnshared) : it.SeeksToLast img := by
  refine ⟨img.entries.length + 1, fun fuel hfuel => ?_⟩
  obtain ⟨it', e, hseek, -, he, hkey, hvalue, -, hgroup⟩ :=
    exists_seekToLast hw hd hne hshared hfuel
  exact ⟨it', e, hseek, he, hkey, hvalue, hgroup⟩

/-- `SeekToLast` in a block of two restarts. -/
theorem seeksToLast_twoRestarts :
    (lastOf twoRestarts ⟨0, [97], [120]⟩).SeeksToLast twoRestarts :=
  seeksToLast_of_unshared wellFormed_twoRestarts ⟨rfl, rfl, rfl⟩ (by decide)
    fun _ _ e _ _ he => unshared_twoRestarts e (List.mem_of_getElem? he)

theorem nextToLimit_mono {fuel fuel' : ℕ} (hle : fuel ≤ fuel') {it' : BlockIter}
    (h : nextToLimit fuel it = .ok it') : nextToLimit fuel' it = .ok it' := by
  induction fuel generalizing fuel' it with
  | zero => cases h
  | succ fuel ih =>
    obtain ⟨fuel', rfl⟩ : ∃ k, fuel' = k + 1 := ⟨fuel' - 1, by omega⟩
    rw [nextToLimit] at h ⊢
    split at h
    · rename_i hinside
      obtain ⟨next, hnext, h⟩ := bind_eq_ok.mp h
      rw [if_pos hinside, hnext, ok_bind]
      exact ih (Nat.le_of_succ_le_succ hle) h
    · rename_i hend
      rwa [if_neg hend]

/-- In a block whose last entry shares a byte `SeekToLast` makes up the key `"ay"`. -/
theorem not_seeksToLast_oneShared :
    oneShared.WellFormed ∧ (lastOf oneShared ⟨1, [97, 99], [121]⟩).Describes oneShared ∧
      ¬ (lastOf oneShared ⟨1, [97, 99], [121]⟩).SeeksToLast oneShared := by
  refine ⟨wellFormed_oneShared, ⟨rfl, rfl, rfl⟩, ?_⟩
  rintro ⟨fuel₀, hlast⟩
  obtain ⟨it', e, hseek, he, hkey, -⟩ := hlast (max fuel₀ 4) (le_max_left _ _)
  have hmade : ((lastOf oneShared ⟨1, [97, 99], [121]⟩).seekToLast 4).map (·.key) =
      .ok [97, 121] := by
    decide +kernel
  rcases hseek₄ : (lastOf oneShared ⟨1, [97, 99], [121]⟩).seekToLast 4 with fault | it₄
  · rw [hseek₄] at hmade
    cases hmade
  · have hmono : (lastOf oneShared ⟨1, [97, 99], [121]⟩).seekToLast (max fuel₀ 4) = .ok it₄ := by
      obtain ⟨current, hcurrent, hloop⟩ := bind_eq_ok.mp hseek₄
      exact bind_eq_ok.mpr ⟨current, hcurrent, nextToLimit_mono (le_max_right _ _) hloop⟩
    obtain rfl : it₄ = it' := Except.ok.inj (hmono.symm.trans hseek)
    rw [hseek₄] at hmade
    obtain rfl : (⟨1, [97, 99], [121]⟩ : Entry) = e := Option.some.inj he
    have hsame : it₄.key = [97, 121] := Except.ok.inj hmade
    rw [hkey] at hsame
    exact absurd hsame (by decide)

/-! ### Landing on an entry -/

/-- The iterator stands on entry `i`. -/
def OnEntry (it : BlockIter) (img : Image) (i : ℕ) : Prop :=
  ∃ e, img.entries[i]? = some e ∧ it.key = e.key ∧ it.value = e.value ∧
    it.current.toNat = img.offset (i + 1)

/-- On an entry the restart index is that of its group. -/
def IndexRight (it : BlockIter) (img : Image) : Prop :=
  ∀ i, it.OnEntry img i → img.GroupOf i it.restartIndex.toNat

/-- The position tells the entry. -/
theorem OnEntry.eq {i j : ℕ} (h : it.OnEntry img j) (hi : i < img.entries.length)
    (hcurrent : it.current.toNat = img.offset (i + 1)) : j = i := by
  obtain ⟨e, he, -, -, hj⟩ := h
  have hjlt := (List.getElem?_eq_some_iff.mp he).1
  rw [hcurrent] at hj
  rcases Nat.lt_trichotomy j i with hlt | heq | hlt
  · have := img.offset_lt_offset (show j + 1 < img.entries.length by omega)
      (show j + 1 < i + 1 by omega)
    omega
  · exact heq
  · have := img.offset_lt_offset (show i + 1 < img.entries.length by omega)
      (show i + 1 < j + 1 by omega)
    omega

theorem indexRight_of_groupOf {i : ℕ} (hi : i < img.entries.length)
    (hcurrent : it.current.toNat = img.offset (i + 1))
    (hgroup : img.GroupOf i it.restartIndex.toNat) : it.IndexRight img := by
  intro j hj
  rw [hj.eq hi hcurrent]
  exact hgroup

/-- A call of `Next` behind the entries lands on none. -/
theorem not_onEntry_of_end (hw : img.WellFormed) (hd : it.Describes img)
    (h : it.restarts ≤ it.current) (i : ℕ) :
    ¬ (it.parsed it.key it.value it.restartIndex).OnEntry img i := by
  rintro ⟨e, he, hkey, hvalue, hcurrent⟩
  have hkey' : it.key = e.key := hkey
  have hvalue' : it.value = e.value := hvalue
  have hlength := (hw.length_le he).2
  have hle := img.offset_le (i + 1)
  have hlt := it.current.toNat_lt
  rw [UInt32.le_iff_toNat_le, hd.restarts] at h
  rw [parsed, UInt32.toNat_add, UInt32.toNat_ofNat', hkey', hvalue'] at hcurrent
  omega

/-- `Next` before an entry that shares nothing, with an index that fits. -/
theorem exists_next_of_fits (hw : img.WellFormed) (hd : it.Describes img) {i : ℕ} {e : Entry}
    (hi : img.entries[i]? = some e) (hshared : e.shared = 0)
    (hcurrent : it.current.toNat = img.offset i) (hfits : img.IndexFits i it.restartIndex) :
    ∃ it', it.next = .ok it' ∧ it'.Describes img ∧ it'.IndexRight img := by
  obtain ⟨it', hnext, hd', -, -, hcurrent', hadv⟩ := next_of_unshared hw hd hi hshared hcurrent
  have hlt := (List.getElem?_eq_some_iff.mp hi).1
  exact ⟨it', hnext, hd', indexRight_of_groupOf hlt hcurrent' (hadv.groupOf hw hlt hcurrent hfits)⟩

end BlockIter

/-! ### Runs of calls -/

/-- From entry `r` on, entry `t` is the first one with a key not before the target, and nothing is
shared up to it. -/
structure Image.ReachedFrom (img : Image) (target : Bytes) (r t : ℕ) (e : Entry) : Prop where
  entry : img.entries[t]? = some e
  le : target ≤ e.key
  from_le : r ≤ t
  before : ∀ i e', r ≤ i → i < t → img.entries[i]? = some e' → e'.key < target
  unshared : ∀ i e', r ≤ i → i ≤ t → img.entries[i]? = some e' → e'.shared = 0

namespace BlockIter

/-- A call on an iterator. -/
inductive Call
  | seekToFirst
  | seekToLast
  | seek (target : Bytes)
  | next

/-- Execute a call, all loops of which get the same fuel. -/
def exec (fuel : ℕ) (it : BlockIter) : Call → Except Fault BlockIter
  | .seekToFirst => it.seekToFirst
  | .seekToLast => it.seekToLast fuel
  | .seek target => it.seek fuel target
  | .next => it.next

/-- The calls that leave the right restart index. `SeekToFirst` needs it to be right before;
`SeekToLast` needs a last group that shares nothing; `Seek` needs a first key before the target and,
from a restart at which its search can end, a first key not before the target that belongs to no
restart, with nothing shared on the way; and `Next` needs, unless the entries are over, an entry
that shares nothing and an index that fits it. -/
def Call.Fits (img : Image) (it : BlockIter) : Call → Prop
  | .seekToFirst => img.entries ≠ [] → it.restartIndex = 0
  | .seekToLast => img.LastGroupUnshared
  | .seek target =>
      img.RestartBefore target 0 ∧
        ∀ j r, img.restarts[j]? = some r → img.RestartBefore target j →
          ¬ img.RestartBefore target (j + 1) →
          ∃ t e, img.ReachedFrom target r t e ∧ t ∉ img.restarts
  | .next =>
      it.restarts ≤ it.current ∨
        ∃ i e, img.entries[i]? = some e ∧ e.shared = 0 ∧ it.current.toNat = img.offset i ∧
          img.IndexFits i it.restartIndex

variable {img : Image} {it : BlockIter}

theorem exists_seekToFirst (hw : img.WellFormed) (hd : it.Describes img) (hne : img.entries ≠ [])
    (hindex : it.restartIndex = 0) :
    ∃ it', it.seekToFirst = .ok it' ∧ it'.Describes img ∧ it'.IndexRight img := by
  have hpos := List.length_pos_of_ne_nil hne
  have hfirst : img.restarts[0]? = some 0 := by
    rw [← List.head?_eq_getElem?]
    exact hw.first hne
  have hget := List.getElem?_eq_getElem hpos
  have hshared := hw.shared_restart 0 (List.mem_of_getElem? hfirst) _ hget
  have hread : readFixed32 it.data it.restarts.toNat = .ok (UInt32.ofNat (img.offset 0)) := by
    have hword := img.read_restart hfirst
    rw [hd.data, hd.restarts]
    simpa using hword
  have hd' := hd.moved it.restartIndex (UInt32.ofNat (img.offset 0))
  obtain ⟨it', hnext, hit'⟩ := exists_next_of_fits hw hd' hget hshared (hw.toNat_offset 0)
    (.inl (by simpa [hindex] using hfirst))
  exact ⟨it', by rw [seekToFirst, hread, ok_bind]; exact hnext, hit'⟩

theorem exists_seek_of_fits (hw : img.WellFormed) (hd : it.Describes img) {target : Bytes}
    (hfits : (Call.seek target).Fits img it) {fuel : ℕ}
    (hfuel : img.restarts.length + 1 + img.entries.length ≤ fuel) :
    ∃ it', it.seek fuel target = .ok it' ∧ it'.Describes img ∧ it'.IndexRight img := by
  obtain ⟨hfirst, hall⟩ := hfits
  have hrounds : img.restarts.length + 1 ≤ fuel := by omega
  obtain ⟨j, r, hr, hbefore, hafter, hseek⟩ := seek_eq_scan hw hd hfirst hrounds
  obtain ⟨t, e, hreach, hnot⟩ := hall j r hr hbefore hafter
  have htlt := (List.getElem?_eq_some_iff.mp hreach.entry).1
  have hleft : t - r < fuel := by omega
  have hd' := hd.moved (UInt32.ofNat j) (UInt32.ofNat (img.offset r))
  obtain ⟨it', hscan, hd'', -, -, hcurrent, hgroup⟩ := scan_eq hw hreach.entry hreach.le hd'
    (hw.toNat_offset r) hreach.from_le hreach.before hreach.unshared hleft
  have hahead : img.NotAhead r (UInt32.ofNat j) := by
    have hj := (List.getElem?_eq_some_iff.mp hr).1
    have hlt := hw.length_lt
    rw [img.length_bytes] at hlt
    refine .inr ⟨r, ?_, le_rfl⟩
    rwa [UInt32.toNat_ofNat', Nat.mod_eq_of_lt (by omega)]
  exact ⟨it', hseek ▸ hscan, hd'', indexRight_of_groupOf htlt hcurrent (hgroup hahead hnot)⟩

/-- **Step lemma.** A call that fits completes with the right restart index. -/
theorem exec_of_fits (hw : img.WellFormed) (hd : it.Describes img) (hne : img.entries ≠ [])
    {fuel : ℕ} (hfuel : img.restarts.length + 1 + img.entries.length ≤ fuel) {call : Call}
    (hfits : call.Fits img it) :
    ∃ it', exec fuel it call = .ok it' ∧ it'.Describes img ∧ it'.IndexRight img := by
  cases call with
  | seekToFirst => exact exists_seekToFirst hw hd hne (hfits hne)
  | seekToLast =>
    have hrounds : img.entries.length < fuel := by omega
    obtain ⟨it', e, hseek, hd', -, -, -, hcurrent, hgroup⟩ :=
      exists_seekToLast hw hd hne hfits hrounds
    have hpos := List.length_pos_of_ne_nil hne
    refine ⟨it', hseek, hd', indexRight_of_groupOf (by omega) ?_ hgroup⟩
    rw [hcurrent, Nat.sub_add_cancel hpos]
  | seek target => exact exists_seek_of_fits hw hd hfits hfuel
  | next =>
    rcases hfits with hend | ⟨i, e, hi, hshared, hcurrent, hindex⟩
    · exact ⟨_, next_at_end hend, hd.parsed _ _ _, fun i hi =>
        absurd hi (not_onEntry_of_end hw hd hend i)⟩
    · exact exists_next_of_fits hw hd hi hshared hcurrent hindex

/-- **The restart index over runs.** From any iterator that describes the block, in every run of
calls that fit, every call completes and, if it lands on an entry, leaves the restart index of the
entry's group. -/
theorem group_of_run (hw : img.WellFormed) (hd : it.Describes img) {fuel : ℕ}
    (hfuel : img.restarts.length + 1 + img.entries.length ≤ fuel) {calls : List Call}
    {it' : BlockIter} (hrun : Run it (fun it call => call.Fits img it) (exec fuel) calls it') :
    (img.entries ≠ [] → ∀ call : Call, call.Fits img it' →
      ∃ it'', exec fuel it' call = .ok it'') ∧
    (calls ≠ [] → ∀ i, it'.OnEntry img i → img.GroupOf i it'.restartIndex.toNat) := by
  rcases List.eq_nil_or_concat img.entries with hnil | ⟨es, e, hconcat⟩
  · -- an empty block has no entry to land on
    refine ⟨fun hne => absurd hnil hne, fun _ i hi => ?_⟩
    obtain ⟨e, he, -⟩ := hi
    simp [hnil] at he
  · have hne : img.entries ≠ [] := by simp [hconcat]
    have hinv : it'.Describes img ∧ (calls ≠ [] → it'.IndexRight img) := by
      refine hrun.inv (P := fun calls it => it.Describes img ∧ (calls ≠ [] → it.IndexRight img))
        ⟨hd, fun h => absurd rfl h⟩ ?_
      rintro calls it call it₁ ⟨hd, -⟩ hfits hexec -
      obtain ⟨it₂, hexec', hd', hright⟩ := exec_of_fits hw hd hne hfuel hfits
      obtain rfl : it₁ = it₂ := Except.ok.inj (hexec.symm.trans hexec')
      exact ⟨hd', fun _ => hright⟩
    refine ⟨fun _ call hfits => ?_, hinv.2⟩
    obtain ⟨it₂, hexec, -⟩ := exec_of_fits hw hinv.1 hne hfuel hfits
    exact ⟨it₂, hexec⟩

/-- From the first entry of the block of two restarts to its last one. -/
theorem group_of_run_twoRestarts :
    ∃ it', Run { lastOf twoRestarts ⟨0, [98], [121]⟩ with restartIndex := 0 }
        (fun it call => call.Fits twoRestarts it) (exec 5) [.seekToFirst, .seekToLast] it' ∧
      it'.OnEntry twoRestarts 1 ∧ twoRestarts.GroupOf 1 it'.restartIndex.toNat := by
  set it₀ : BlockIter := { lastOf twoRestarts ⟨0, [98], [121]⟩ with restartIndex := 0 } with hit₀
  have hd : it₀.Describes twoRestarts := ⟨rfl, rfl, rfl⟩
  have hne : twoRestarts.entries ≠ [] := by decide
  have hlast : twoRestarts.LastGroupUnshared := fun _ _ e _ _ he =>
    unshared_twoRestarts e (List.mem_of_getElem? he)
  have hrounds : twoRestarts.entries.length < 5 := by decide
  obtain ⟨it₁, hfirst, hd₁, -⟩ := exists_seekToFirst wellFormed_twoRestarts hd hne rfl
  obtain ⟨it₂, e, hseek, -, he, hkey, hvalue, hcurrent, -⟩ :=
    exists_seekToLast wellFormed_twoRestarts hd₁ hne hlast hrounds
  have hrun₁ : Run it₀ (fun it call => call.Fits twoRestarts it) (exec 5) [.seekToFirst] it₁ :=
    (RunWithin.init trivial).step (i := Call.seekToFirst) (fun _ => rfl) hfirst trivial
  have hrun₂ := hrun₁.step (i := Call.seekToLast) hlast hseek trivial
  have hon : it₂.OnEntry twoRestarts 1 := ⟨e, he, hkey, hvalue, hcurrent⟩
  exact ⟨it₂, hrun₂, hon,
    (group_of_run wellFormed_twoRestarts hd (by decide) hrun₂).2 (by simp) 1 hon⟩

/-- A call that lands on entry `i` with another restart index than that of its group. -/
def Misplaces (it : BlockIter) (img : Image) (call : Call) (i : ℕ) : Prop :=
  img.WellFormed ∧ it.Describes img ∧ ∀ fuel, ∃ it', exec fuel it call = .ok it' ∧
    it'.OnEntry img i ∧ ¬ img.GroupOf i it'.restartIndex.toNat

/-- `SeekToFirst` from the last entry keeps the index `1`, and `Next` from the first entry to the
second, a restart, keeps the index `0`. -/
theorem misplaces_seekToFirst_and_next :
    (lastOf twoRestarts ⟨0, [98], [121]⟩).Misplaces twoRestarts .seekToFirst 0 ∧
    ({ lastOf twoRestarts ⟨0, [97], [120]⟩ with current := 14, restartIndex := 0 } :
      BlockIter).Misplaces twoRestarts .next 1 := by
  refine ⟨⟨wellFormed_twoRestarts, ⟨rfl, rfl, rfl⟩,
      fun fuel => ⟨_, rfl, ⟨_, rfl, rfl, rfl, rfl⟩, ?_⟩⟩,
    ⟨wellFormed_twoRestarts, ⟨rfl, rfl, rfl⟩, fun fuel => ⟨_, rfl, ⟨_, rfl, rfl, rfl, rfl⟩, ?_⟩⟩⟩
  · -- restart `1` is behind entry `0`
    rintro ⟨⟨s, hs, hle⟩, -⟩
    obtain rfl : 1 = s := Option.some.inj hs
    exact absurd hle (by decide)
  · -- restart `1` is at entry `1`
    rintro ⟨-, hbound⟩
    have hone : (1 : ℕ) ∈ {r | ∃ s, twoRestarts.restarts[r]? = some s ∧
        twoRestarts.offset s ≤ twoRestarts.offset 1} := ⟨1, rfl, le_rfl⟩
    exact absurd (hbound hone) (by decide)

end BlockIter

end TinyLeveldb
