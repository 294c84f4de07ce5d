import Mathlib.Data.List.Perm.Subperm
import TinyLeveldb.Block.Next

/-!
# The binary search of a block

The first loop of `blockIter::Seek` halves a window `[left, right]` of restart indices, two `int`s
that end one apart: `right` is as low as `-1` when no restart entry is before the target, and
`left` as high as the number of restarts when all are. On every block whose restarts are
well-formed the loop ends (`searchRestarts_straddles`); when the keys of the restart entries
increase, it ends between the last one before the target and the first one that is not
(`searchRestarts_correct`).

The sum of two indices does not wrap: an entry has a header of twelve bytes and the offset of
the restart array is a word, so there are far fewer than `2 ^ 30` restarts
(`length_restarts_lt`). Nothing here bounds the length of the block itself.
-/

namespace TinyLeveldb

open Library

namespace BlockIter

/-- The key that a round of the search reads for restart `mid`. -/
def readRestartKey (it : BlockIter) (mid : ℤ) : Except Fault Bytes := do
  let offset ← readFixed32 it.data (it.restarts.toNat + mid * 4)
  let _ ← readFixed32 it.data offset.toNat
  let nonShared ← readFixed32 it.data (offset.toNat + 4)
  readString it.data (offset.toNat + 12) nonShared.toNat

/-- The binary search of `Seek`: the indices that it reads of the restart array, and `left` and
`right` when it ends. The sum of the two `int`s wraps. -/
def searchReads (it : BlockIter) (target : Bytes) :
    ℕ → ℤ → ℤ → Except Fault (List ℤ × (ℤ × ℤ))
  | 0, _, _ => .error .diverged
  | fuel + 1, left, right =>
      if left ≤ right then do
        let mid := ((left + right).bmod (2 ^ 32)).tdiv 2
        let key ← it.readRestartKey mid
        if key < target then
          let (reads, ends) ← it.searchReads target fuel (mid + 1) right
          .ok (mid :: reads, ends)
        else
          let (reads, ends) ← it.searchReads target fuel left (mid - 1)
          .ok (mid :: reads, ends)
      else .ok ([], (left, right))

/-- The binary search, without the indices it reads. -/
def searchRestarts (it : BlockIter) (target : Bytes) (fuel : ℕ) (left right : ℤ) :
    Except Fault (ℤ × ℤ) := do
  let (_, ends) ← it.searchReads target fuel left right
  .ok ends

theorem searchRestarts_of_searchReads {it : BlockIter} {target : Bytes} {fuel : ℕ} {left right : ℤ}
    {reads : List ℤ} {ends : ℤ × ℤ}
    (h : it.searchReads target fuel left right = .ok (reads, ends)) :
    it.searchRestarts target fuel left right = .ok ends := by
  rw [searchRestarts, h, ok_bind]

/-- A round of the search reads one restart key. -/
theorem searchRestarts_eq_readRestartKey (it : BlockIter) (target : Bytes) (fuel : ℕ)
    (left right : ℤ) : it.searchRestarts target (fuel + 1) left right =
      if left ≤ right then
        let mid := ((left + right).bmod (2 ^ 32)).tdiv 2
        it.readRestartKey mid >>= fun key =>
          if key < target then it.searchRestarts target fuel (mid + 1) right
          else it.searchRestarts target fuel left (mid - 1)
      else .ok (left, right) := by
  simp only [searchRestarts, searchReads]
  split
  · rw [bind_assoc]
    refine congrArg _ (funext fun key => ?_)
    split <;> simp only [bind_assoc, ok_bind]
  · rfl

end BlockIter

namespace Image

variable {img : Image} {target : Bytes}

/-- The keys of the restart entries. -/
def restartKeys (img : Image) : List Bytes :=
  img.restarts.map fun r => (img.entries[r]?.map Entry.key).getD []

/-- Restart `j` is an entry with a key before the target. -/
def RestartBefore (img : Image) (target : Bytes) (j : ℕ) : Prop :=
  ∃ r e, img.restarts[j]? = some r ∧ img.entries[r]? = some e ∧ e.key < target

/-- Every restart has an entry, which shares nothing. -/
theorem RestartsWellFormed.exists_restart (hw : img.RestartsWellFormed) {j : ℕ}
    (hj : j < img.restarts.length) :
    ∃ r e, img.restarts[j]? = some r ∧ img.entries[r]? = some e ∧ e.shared = 0 := by
  have hr := hw.restarts_lt _ (List.getElem_mem hj)
  refine ⟨img.restarts[j], img.entries[img.restarts[j]], List.getElem?_eq_getElem hj,
    List.getElem?_eq_getElem hr, ?_⟩
  exact hw.shared_restart _ (List.getElem_mem hj) _ (List.getElem?_eq_getElem hr)

theorem getElem?_restartKeys {j r : ℕ} {e : Entry} (hr : img.restarts[j]? = some r)
    (he : img.entries[r]? = some e) : img.restartKeys[j]? = some e.key := by
  simp [restartKeys, hr, he]

theorem restartBefore_iff_of_getElem? {j r : ℕ} {e : Entry} (hr : img.restarts[j]? = some r)
    (he : img.entries[r]? = some e) : img.RestartBefore target j ↔ e.key < target := by
  refine ⟨fun ⟨r', e', hr', he', hlt⟩ => ?_, fun hlt => ⟨r, e, hr, he, hlt⟩⟩
  obtain rfl := Option.some.inj (hr.symm.trans hr')
  obtain rfl := Option.some.inj (he.symm.trans he')
  exact hlt

/-- A restart is before the target when its key is. -/
theorem RestartsWellFormed.restartBefore_iff (hw : img.RestartsWellFormed) {j : ℕ} :
    img.RestartBefore target j ↔ ∃ key, img.restartKeys[j]? = some key ∧ key < target := by
  constructor
  · rintro ⟨r, e, hr, he, hlt⟩
    exact ⟨e.key, getElem?_restartKeys hr he, hlt⟩
  · rintro ⟨key, hkey, hlt⟩
    have hj : j < img.restarts.length := by
      have hj := (List.getElem?_eq_some_iff.mp hkey).1
      rwa [restartKeys, List.length_map] at hj
    obtain ⟨r, e, hr, he, -⟩ := hw.exists_restart hj
    obtain rfl := Option.some.inj ((getElem?_restartKeys hr he).symm.trans hkey)
    exact ⟨r, e, hr, he, hlt⟩

/-- With increasing restart keys the restarts before the target are the first ones. -/
theorem RestartBefore.mono_of_restartKeys (hw : img.RestartsWellFormed)
    (hkeys : img.restartKeys.Pairwise (· < ·)) {j k : ℕ} (h : img.RestartBefore target k)
    (hjk : j ≤ k) : img.RestartBefore target j := by
  rw [hw.restartBefore_iff] at h ⊢
  obtain ⟨key, hkey, hlt⟩ := h
  rcases hjk.eq_or_lt with rfl | hjk
  · exact ⟨key, hkey, hlt⟩
  · obtain ⟨hk, rfl⟩ := List.getElem?_eq_some_iff.mp hkey
    have hbefore := List.pairwise_iff_getElem.mp hkeys j k (hjk.trans hk) hk hjk
    exact ⟨_, List.getElem?_eq_getElem (hjk.trans hk), hbefore.trans hlt⟩

theorem restartKeys_sorted (hw : img.WellFormed) (hs : img.Sorted) :
    img.restartKeys.Pairwise (· < ·) := by
  rw [restartKeys, List.pairwise_map]
  refine hw.restarts_sorted.imp_of_mem fun {r r'} hr hr' hlt => ?_
  have hr := hw.restarts_lt r hr
  have hr' := hw.restarts_lt r' hr'
  simpa [List.getElem?_eq_getElem hr, List.getElem?_eq_getElem hr'] using
    List.pairwise_iff_getElem.mp hs r r' hr hr' hlt

/-- The restarts before the target are the first ones. -/
theorem RestartBefore.mono (hw : img.WellFormed) (hs : img.Sorted) {j k : ℕ}
    (h : img.RestartBefore target k) (hjk : j ≤ k) : img.RestartBefore target j :=
  h.mono_of_restartKeys hw.restartsWellFormed (restartKeys_sorted hw hs) hjk

/-! ### How many restarts there are -/

/-- Every entry takes at least its header. -/
theorem length_entries_le (img : Image) : 12 * img.entries.length ≤ img.entryBytes.length := by
  rw [entryBytes]
  induction img.entries with
  | nil => rfl
  | cons e es ih =>
    rw [List.flatMap_cons, List.length_append, List.length_cons, e.length_bytes]
    omega

theorem RestartsWellFormed.length_restarts_le (hw : img.RestartsWellFormed) :
    img.restarts.length ≤ img.entries.length := by
  have hnodup : img.restarts.Nodup := hw.restarts_sorted.imp fun hlt => hlt.ne
  have hsubset : img.restarts ⊆ List.range img.entries.length := fun r hr =>
    List.mem_range.mpr (hw.restarts_lt r hr)
  have hle := (hnodup.subperm hsubset).length_le
  rwa [List.length_range] at hle

end Image

namespace BlockIter

variable {img : Image} {it : BlockIter} {target : Bytes}

theorem Describes.entryBytes_lt (hd : it.Describes img) : img.entryBytes.length < 2 ^ 32 := by
  rw [← hd.restarts]
  exact it.restarts.toNat_lt

/-- The sum of two restart indices is an `int`. -/
theorem length_restarts_lt (hw : img.RestartsWellFormed) (hd : it.Describes img) :
    img.restarts.length < 2 ^ 29 := by
  have hrestarts := hw.length_restarts_le
  have hentries := img.length_entries_le
  have hlt := hd.entryBytes_lt
  omega

/-- The window that `Seek` starts with. When there are no restarts it is empty. -/
theorem lastRestart_eq (hw : img.RestartsWellFormed) (hd : it.Describes img) :
    ((it.restartsNum - 1).toNat : ℤ).bmod (2 ^ 32) = (img.restarts.length : ℤ) - 1 := by
  have hnum := length_restarts_lt hw hd
  by_cases hzero : it.restartsNum = 0
  · rw [← hd.restartsNum, hzero]
    decide
  · have hone : (1 : UInt32) ≤ it.restartsNum := by
      rw [UInt32.le_iff_toNat_le, UInt32.toNat_one]
      exact Nat.pos_of_ne_zero fun h => hzero (UInt32.toNat_inj.mp h)
    have hpos := UInt32.le_iff_toNat_le.mp hone
    rw [UInt32.toNat_sub_of_le _ _ hone, hd.restartsNum, UInt32.toNat_one,
      Int.bmod_eq_of_le (by omega) (by omega)]
    rw [hd.restartsNum, UInt32.toNat_one] at hpos
    omega

/-! ### One round and all of them -/

/-- The window `[left, right]` of the search still holds the last restart before the target. -/
structure Window (img : Image) (target : Bytes) (left right : ℤ) : Prop where
  nonneg : 0 ≤ left
  le : left ≤ right + 1
  lt : right < img.restarts.length
  before : ∀ j : ℕ, j < left → img.RestartBefore target j
  after : ∀ j : ℕ, right < j → ¬ img.RestartBefore target j

/-- The restart before the window is before the target, and the one behind it is not. -/
structure Straddles (img : Image) (target : Bytes) (left right : ℤ) : Prop where
  nonneg : 0 ≤ left
  le : left ≤ right + 1
  lt : right < img.restarts.length
  before : ∀ j : ℕ, (j : ℤ) + 1 = left → img.RestartBefore target j
  after : ∀ j : ℕ, (j : ℤ) = right + 1 → ¬ img.RestartBefore target j

/-- The window of all restarts, the first one that `Seek` searches. -/
theorem straddles_all (img : Image) (target : Bytes) :
    Straddles img target 0 ((img.restarts.length : ℤ) - 1) := by
  refine ⟨le_rfl, by omega, by omega, fun j hj => by omega, fun j hj => ?_⟩
  rintro ⟨r, e, hr, -, -⟩
  obtain ⟨hlt, -⟩ := List.getElem?_eq_some_iff.mp hr
  omega

/-- The upper half of the window, behind a restart that is before the target. -/
theorem Straddles.upper {left right : ℤ} (h : Straddles img target left right) {mid : ℕ}
    (hleft : left ≤ mid) (hright : (mid : ℤ) ≤ right) (hbefore : img.RestartBefore target mid) :
    Straddles img target (mid + 1) right := by
  refine ⟨by omega, by omega, h.lt, fun j hj => ?_, h.after⟩
  obtain rfl : j = mid := by omega
  exact hbefore

/-- The lower half, in front of a restart that is not. -/
theorem Straddles.lower {left right : ℤ} (h : Straddles img target left right) {mid : ℕ}
    (hleft : left ≤ mid) (hright : (mid : ℤ) ≤ right) (hbefore : ¬ img.RestartBefore target mid) :
    Straddles img target left (mid - 1) := by
  have hlt := h.lt
  refine ⟨h.nonneg, by omega, by omega, h.before, fun j hj => ?_⟩
  obtain rfl : j = mid := by omega
  exact hbefore

/-- The key of a restart is read in full. -/
theorem readRestartKey_eq (hd : it.Describes img) {j r : ℕ} {e : Entry}
    (hr : img.restarts[j]? = some r) (he : img.entries[r]? = some e) (hshared : e.shared = 0) :
    it.readRestartKey j = .ok e.key := by
  obtain ⟨hword, hnonShared, -, hkey, -⟩ := img.read_entry he
  have hrestart := img.read_restart hr
  -- the length of the key fits its word, since the entry lies before the restart array
  have hlength : (UInt32.ofNat e.key.length).toNat = e.key.length := by
    have hle := img.offset_le (r + 1)
    have hentries := hd.entryBytes_lt
    rw [img.offset_succ he, e.length_bytes, hshared] at hle
    rw [UInt32.toNat_ofNat', Nat.mod_eq_of_lt (by omega)]
  rw [hshared, Nat.sub_zero] at hnonShared hkey
  simp only [readRestartKey, hd.data, hd.restarts, hrestart, ok_bind,
    Image.toNat_offset_of_lt hd.entryBytes_lt, hword, hnonShared, hlength, hkey, List.drop_zero]

/-- **Step lemma.** One round of the search reads the key of the restart in the middle of the
window. -/
theorem searchReads_succ (hw : img.RestartsWellFormed) (hd : it.Describes img) {left right : ℤ}
    (h : Straddles img target left right) (hwindow : left ≤ right) :
    ∃ (mid : ℕ) (key : Bytes), left ≤ mid ∧ (mid : ℤ) ≤ right ∧
      (img.RestartBefore target mid ↔ key < target) ∧
      ∀ fuel, it.searchReads target (fuel + 1) left right =
        if key < target then
          it.searchReads target fuel (mid + 1) right >>= fun round =>
            .ok ((mid : ℤ) :: round.1, round.2)
        else
          it.searchReads target fuel left (mid - 1) >>= fun round =>
            .ok ((mid : ℤ) :: round.1, round.2) := by
  have hlt := h.lt
  have hnonneg := h.nonneg
  have hnum := length_restarts_lt hw hd
  have hsum : (left + right).bmod (2 ^ 32) = left + right :=
    Int.bmod_eq_of_le (by omega) (by omega)
  obtain ⟨mid, hmid⟩ : ∃ mid : ℕ, (left + right).tdiv 2 = mid :=
    ⟨((left + right).tdiv 2).toNat, by
      rw [Int.tdiv_eq_ediv_of_nonneg (by omega)]
      omega⟩
  have hbounds : left ≤ mid ∧ (mid : ℤ) ≤ right := by
    rw [Int.tdiv_eq_ediv_of_nonneg (by omega)] at hmid
    omega
  obtain ⟨r, e, hr, he, hshared⟩ := hw.exists_restart (j := mid) (by omega)
  refine ⟨mid, e.key, hbounds.1, hbounds.2, Image.restartBefore_iff_of_getElem? hr he,
    fun fuel => ?_⟩
  rw [searchReads, if_pos hwindow]
  simp only [hsum, hmid, readRestartKey_eq hd hr he hshared, ok_bind]

/-- The search ends with an empty window, having read nothing outside the restart array and the
restart entries. -/
theorem searchReads_straddles (hw : img.RestartsWellFormed) (hd : it.Describes img)
    {fuel : ℕ} {left right : ℤ} (h : Straddles img target left right)
    (hfuel : right - left + 2 ≤ fuel) :
    ∃ reads right', it.searchReads target fuel left right = .ok (reads, (right' + 1, right')) ∧
      (∀ i ∈ reads, left ≤ i ∧ i ≤ right) ∧ Straddles img target (right' + 1) right' := by
  induction fuel generalizing left right with
  | zero =>
    have := h.le
    omega
  | succ fuel ih =>
    have hle := h.le
    by_cases hwindow : left ≤ right
    · obtain ⟨mid, key, hleft, hright, hmid, hround⟩ := searchReads_succ hw hd h hwindow
      rw [hround]
      by_cases hbefore : key < target
      · have hupper := h.upper hleft hright (hmid.mpr hbefore)
        obtain ⟨reads, right', hok, hreads, hend⟩ := ih hupper (by omega)
        refine ⟨mid :: reads, right', by rw [if_pos hbefore, hok, ok_bind],
          List.forall_mem_cons.mpr ⟨⟨hleft, hright⟩, fun i hi => ?_⟩, hend⟩
        obtain ⟨hi, hi'⟩ := hreads i hi
        omega
      · have hlower := h.lower hleft hright (mt hmid.mp hbefore)
        obtain ⟨reads, right', hok, hreads, hend⟩ := ih hlower (by omega)
        refine ⟨mid :: reads, right', by rw [if_neg hbefore, hok, ok_bind],
          List.forall_mem_cons.mpr ⟨⟨hleft, hright⟩, fun i hi => ?_⟩, hend⟩
        obtain ⟨hi, hi'⟩ := hreads i hi
        omega
    · obtain rfl : left = right + 1 := by omega
      exact ⟨[], right, by rw [searchReads, if_neg hwindow], by simp, h⟩

/-- The loop of the source, on a well-formed block. -/
theorem searchRestarts_straddles (hw : img.WellFormed) (hd : it.Describes img)
    {fuel : ℕ} {left right : ℤ} (h : Straddles img target left right)
    (hfuel : right - left + 2 ≤ fuel) :
    ∃ right', it.searchRestarts target fuel left right = .ok (right' + 1, right') ∧
      Straddles img target (right' + 1) right' := by
  obtain ⟨reads, right', hok, -, hend⟩ := searchReads_straddles hw.restartsWellFormed hd h hfuel
  exact ⟨right', searchRestarts_of_searchReads hok, hend⟩

/-! ### Increasing restart keys -/

/-- With increasing restart keys an empty window that straddles is the right one. -/
theorem Straddles.window (hw : img.RestartsWellFormed) (hkeys : img.restartKeys.Pairwise (· < ·))
    {right : ℤ} (h : Straddles img target (right + 1) right) :
    Window img target (right + 1) right := by
  refine ⟨h.nonneg, h.le, h.lt, fun j hj => ?_, fun j hj hbefore => ?_⟩
  · obtain ⟨last, hlast⟩ : ∃ last : ℕ, (last : ℤ) = right := ⟨right.toNat, by omega⟩
    exact (h.before last (by omega)).mono_of_restartKeys hw hkeys (by omega)
  · obtain ⟨next, hnext⟩ : ∃ next : ℕ, (next : ℤ) = right + 1 :=
      ⟨(right + 1).toNat, by have := h.nonneg; omega⟩
    exact h.after next hnext (hbefore.mono_of_restartKeys hw hkeys (by omega))

/-- The first loop of `Seek` ends, having read the restart array at indices of restarts only, and
`right` is then the index of the last restart with a key before the target, or `-1`. -/
def SplitsRestarts (it : BlockIter) (img : Image) (target : Bytes) (fuel : ℕ) : Prop :=
  let last := ((it.restartsNum - 1).toNat : ℤ).bmod (2 ^ 32)
  ∃ reads left right,
    it.searchReads target fuel 0 last = .ok (reads, (left, right)) ∧
    it.searchRestarts target fuel 0 last = .ok (left, right) ∧
    (∀ i ∈ reads, 0 ≤ i ∧ i < it.restartsNum.toNat) ∧
    left = right + 1 ∧ -1 ≤ right ∧ right < it.restartsNum.toNat ∧
    ∀ (j : ℕ) (key : Bytes), img.restartKeys[j]? = some key →
      (j ≤ right → key < target) ∧ (right < j → target ≤ key)

/-- **The binary search is right** on every block whose restarts are well-formed and have
increasing keys, for every target. One round for each restart, and one more, suffices. -/
theorem searchRestarts_correct (hw : img.RestartsWellFormed)
    (hkeys : img.restartKeys.Pairwise (· < ·)) (hd : it.Describes img) (target : Bytes)
    {fuel : ℕ} (hfuel : it.restartsNum.toNat < fuel) : it.SplitsRestarts img target fuel := by
  have hnum := hd.restartsNum
  have hrounds : (img.restarts.length : ℤ) - 1 - 0 + 2 ≤ fuel := by omega
  rw [SplitsRestarts, lastRestart_eq hw hd]
  obtain ⟨reads, right, hok, hreads, hend⟩ :=
    searchReads_straddles hw hd (straddles_all img target) hrounds
  obtain ⟨hnonneg, -, hlt, hbefore, hafter⟩ := hend.window hw hkeys
  refine ⟨reads, right + 1, right, hok, searchRestarts_of_searchReads hok, fun i hi => ?_, rfl,
    by omega, by omega, fun j key hkey => ⟨fun hj => ?_, fun hj => ?_⟩⟩
  · have := hreads i hi
    omega
  · obtain ⟨key', hkey', hlt'⟩ := hw.restartBefore_iff.mp (hbefore j (by omega))
    obtain rfl := Option.some.inj (hkey.symm.trans hkey')
    exact hlt'
  · by_contra hlt'
    exact hafter j hj (hw.restartBefore_iff.mpr ⟨key, hkey, not_le.mp hlt'⟩)

/-- Searching `"b"` in the first block. -/
theorem splitsRestarts_twoRestarts :
    (lastOf twoRestarts ⟨0, [98], [121]⟩).SplitsRestarts twoRestarts [98] 3 :=
  searchRestarts_correct wellFormed_twoRestarts.restartsWellFormed (by decide) ⟨rfl, rfl, rfl⟩ [98]
    (by decide)

/-- The search for `"b"` reads the first restart, whose key is before it, and then the second. -/
example : (lastOf twoRestarts ⟨0, [98], [121]⟩).searchReads [98] 3 0 1 = .ok ([0, 1], (1, 0)) := by
  decide +kernel

end BlockIter

end TinyLeveldb
