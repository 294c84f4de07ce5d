import Mathlib.Order.Bounds.Defs
import TinyLeveldb.Block.Image

/-!
# Stepping through a block

`blockIter::Next` parses the entry at `current` and adds the length of the pair to `current`. On
an entry that shares nothing this is right (`next_of_unshared`). On any other entry it is not:
the shared length is skipped once more in front of the rest of the key, and it counts towards
the length of the pair, so that `current` overshoots the next entry by it
(`current_of_next`). At the restart array nothing is parsed, but `current` moves on all the same.
`nextDecodes_iff` puts this together.

On the way the loop of `parseNext` moves `restart_index` on past the restarts that are before
`current` (`Image.Advances`).
-/

namespace TinyLeveldb

open Library

namespace Image

variable {img : Image} {i j : ℕ} {e : Entry}

/-! ### Lengths and offsets -/

theorem toNat_offset_of_lt (h : img.entryBytes.length < 2 ^ 32) (i : ℕ) :
    (UInt32.ofNat (img.offset i)).toNat = img.offset i := by
  have hle := img.offset_le i
  rw [UInt32.toNat_ofNat', Nat.mod_eq_of_lt (by omega)]

/-- Offsets fit the words that hold them. -/
theorem WellFormed.toNat_offset (hw : img.WellFormed) (i : ℕ) :
    (UInt32.ofNat (img.offset i)).toNat = img.offset i := by
  have hlt := hw.length_lt
  rw [img.length_bytes] at hlt
  exact toNat_offset_of_lt (by omega) i

/-- A key is no longer than what the entries up to it take. -/
theorem WellFormed.length_le (hw : img.WellFormed) (hi : img.entries[i]? = some e) :
    e.shared ≤ e.key.length ∧ e.key.length + e.value.length + 12 ≤ img.offset (i + 1) := by
  induction i generalizing e with
  | zero =>
    -- the first entry is a restart
    have hne : img.entries ≠ [] := by
      rintro hnil
      simp [hnil] at hi
    have hshared := hw.shared_restart 0 (List.mem_of_mem_head? (hw.first hne)) e hi
    rw [img.offset_succ hi, e.length_bytes, hshared]
    omega
  | succ i ih =>
    obtain ⟨hlt, rfl⟩ := List.getElem?_eq_some_iff.mp hi
    obtain ⟨hle, htake⟩ := List.isChain_iff_getElem.mp hw.precedes i hlt
    have hprev := (ih (List.getElem?_eq_getElem (Nat.lt_of_succ_lt hlt))).2
    have hlength := congrArg List.length htake
    rw [List.length_take, List.length_take] at hlength
    rw [img.offset_succ hi, Entry.length_bytes]
    omega

theorem WellFormed.toNat_lengths (hw : img.WellFormed) (hi : img.entries[i]? = some e) :
    (UInt32.ofNat e.shared).toNat = e.shared ∧
      (UInt32.ofNat (e.key.length - e.shared)).toNat = e.key.length - e.shared ∧
      (UInt32.ofNat e.value.length).toNat = e.value.length := by
  obtain ⟨hshared, hlength⟩ := hw.length_le hi
  have hle := img.offset_le (i + 1)
  have hlt := hw.length_lt
  rw [img.length_bytes] at hlt
  rw [UInt32.toNat_ofNat', UInt32.toNat_ofNat', UInt32.toNat_ofNat', Nat.mod_eq_of_lt (by omega),
    Nat.mod_eq_of_lt (by omega), Nat.mod_eq_of_lt (by omega)]
  exact ⟨rfl, rfl, rfl⟩

/-- Later entries have larger offsets. -/
theorem offset_lt_offset (hi : i < img.entries.length) (hij : i < j) :
    img.offset i < img.offset j := by
  have hle := img.offset_le_offset (show i + 1 ≤ j from hij)
  rw [img.offset_succ (List.getElem?_eq_getElem hi), Entry.length_bytes] at hle
  omega

theorem le_of_offset_le (hj : j < img.entries.length) (h : img.offset i ≤ img.offset j) :
    i ≤ j := by
  by_contra hlt
  exact absurd (img.offset_lt_offset hj (not_le.mp hlt)) (not_lt.mpr h)

theorem WellFormed.restart_le (hw : img.WellFormed) {a b r s : ℕ}
    (ha : img.restarts[a]? = some r) (hb : img.restarts[b]? = some s) (hab : a ≤ b) : r ≤ s := by
  obtain ⟨ha', rfl⟩ := List.getElem?_eq_some_iff.mp ha
  obtain ⟨hb', rfl⟩ := List.getElem?_eq_some_iff.mp hb
  rcases hab.eq_or_lt with rfl | hlt
  · exact le_rfl
  · exact (List.pairwise_iff_getElem.mp hw.restarts_sorted a b ha' hb' hlt).le

/-! ### The restart index -/

/-- Restart `r` is the last one at or before entry `i`. -/
def GroupOf (img : Image) (i r : ℕ) : Prop :=
  IsGreatest {r | ∃ s, img.restarts[r]? = some s ∧ img.offset s ≤ img.offset i} r

/-- The restart index has not come past entry `i`. It may be `-1`. -/
def NotAhead (img : Image) (i : ℕ) (restartIndex : UInt32) : Prop :=
  restartIndex + 1 = 0 ∨ ∃ r, img.restarts[restartIndex.toNat]? = some r ∧ r ≤ i

/-- A restart index from which `parseNext` gets that of entry `i`: the entry's own if the entry is
a restart, and any that has not come past it otherwise. -/
def IndexFits (img : Image) (i : ℕ) (restartIndex : UInt32) : Prop :=
  img.restarts[restartIndex.toNat]? = some i ∨
    i ∉ img.restarts ∧ img.NotAhead i restartIndex

/-- Moving the restart index on from `ri` to `ri'`, past the restarts that are before `current`. -/
structure Advances (img : Image) (current ri ri' : UInt32) : Prop where
  le : (ri + 1).toNat ≤ (ri' + 1).toNat
  passed : ri' = ri ∨ ∃ r, img.restarts[ri'.toNat]? = some r ∧ img.offset r < current.toNat
  stops : ∀ r, img.restarts[(ri' + 1).toNat]? = some r → current.toNat ≤ img.offset r

theorem NotAhead.mono {restartIndex : UInt32} (h : img.NotAhead i restartIndex) (hij : i ≤ j) :
    img.NotAhead j restartIndex :=
  h.imp_right fun ⟨r, hr, hle⟩ => ⟨r, hr, hle.trans hij⟩

theorem groupOf_of_between (hw : img.WellFormed) (hi : i < img.entries.length) {r s : ℕ}
    (hr : img.restarts[r]? = some s) (hs : s ≤ i)
    (hnext : ∀ s', img.restarts[r + 1]? = some s' → i < s') : img.GroupOf i r := by
  refine ⟨⟨s, hr, img.offset_le_offset hs⟩, ?_⟩
  rintro r' ⟨s', hr', hs'⟩
  have hle := img.le_of_offset_le hi hs'
  by_contra hlt
  -- a later restart at or before the entry would have another one between
  obtain ⟨hlength, -⟩ := List.getElem?_eq_some_iff.mp hr'
  have hget := List.getElem?_eq_getElem (show r + 1 < img.restarts.length by omega)
  have := hnext _ hget
  have := hw.restart_le hget hr' (by omega)
  omega

/-- There is an index behind that of a restart. -/
theorem WellFormed.toNat_succ (hw : img.WellFormed) {restartIndex : UInt32} {r : ℕ}
    (hr : img.restarts[restartIndex.toNat]? = some r) :
    (restartIndex + 1).toNat = restartIndex.toNat + 1 := by
  obtain ⟨hlength, -⟩ := List.getElem?_eq_some_iff.mp hr
  have hlt := hw.length_lt
  rw [img.length_bytes] at hlt
  rw [UInt32.toNat_add, UInt32.toNat_one, Nat.mod_eq_of_lt (by omega)]

section Advances

variable {current ri ri' : UInt32}

/-- Parsing entry `i` leaves the restart index at or before the entry. -/
theorem Advances.notAhead (h : img.Advances current ri ri') (hi : i < img.entries.length)
    (hcurrent : current.toNat = img.offset i) (hri : img.NotAhead i ri) : img.NotAhead i ri' := by
  rcases h.passed with rfl | ⟨r, hr, hlt⟩
  · exact hri
  · exact .inr ⟨r, hr, img.le_of_offset_le hi (hcurrent ▸ hlt.le)⟩

/-- Parsing entry `i` leaves the restart index of the entry if it fits. -/
theorem Advances.groupOf (h : img.Advances current ri ri') (hw : img.WellFormed)
    (hi : i < img.entries.length) (hcurrent : current.toNat = img.offset i)
    (hfits : img.IndexFits i ri) : img.GroupOf i ri'.toNat := by
  rcases hfits with hself | ⟨hnot, hri⟩
  · -- the loop stops at once
    have hstay : ri' = ri := by
      rcases h.passed with heq | ⟨r, hr, hlt⟩
      · exact heq
      · have hle := h.le
        rw [hw.toNat_succ hself, hw.toNat_succ hr] at hle
        have hir := hw.restart_le hself hr (Nat.le_of_succ_le_succ hle)
        exact absurd (img.offset_le_offset hir) (not_le.mpr (hcurrent ▸ hlt))
    subst hstay
    refine groupOf_of_between hw hi hself le_rfl fun s' hs' => ?_
    obtain ⟨ha, hra⟩ := List.getElem?_eq_some_iff.mp hself
    obtain ⟨hb, rfl⟩ := List.getElem?_eq_some_iff.mp hs'
    rw [← hra]
    exact List.pairwise_iff_getElem.mp hw.restarts_sorted _ _ ha hb (Nat.lt_succ_self _)
  · obtain ⟨s, hs, hsi⟩ : ∃ s, img.restarts[ri'.toNat]? = some s ∧ s ≤ i := by
      rcases h.notAhead hi hcurrent hri with hwrap | hs
      · -- an index of `-1` would have moved on past the first restart
        have hne : img.entries ≠ [] := List.ne_nil_of_length_pos (Nat.zero_lt_of_lt hi)
        have hfirst := hw.first hne
        rw [List.head?_eq_getElem?] at hfirst
        have hstops := h.stops 0 (by rw [hwrap]; exact hfirst)
        rw [hcurrent] at hstops
        obtain rfl : i = 0 := by
          have := img.le_of_offset_le (Nat.zero_lt_of_lt hi) hstops
          omega
        exact absurd (List.mem_of_getElem? hfirst) hnot
      · exact hs
    refine groupOf_of_between hw hi hs hsi fun s' hs' => ?_
    have hle := h.stops s' (by rw [hw.toNat_succ hs]; exact hs')
    have hmem := List.mem_of_getElem? hs'
    rw [hcurrent] at hle
    have his := img.le_of_offset_le (hw.restarts_lt s' hmem) hle
    exact his.lt_of_ne fun heq => hnot (heq ▸ hmem)

end Advances

end Image

namespace BlockIter

variable {img : Image} {it : BlockIter} {i : ℕ} {e : Entry}

/-- The loop of `parseNext` ends: it reads words of the restart array only. -/
theorem advanceRestart_spec (hw : img.WellFormed) (hd : it.Describes img) {fuel : ℕ}
    {restartIndex : UInt32} (hpos : 1 ≤ fuel)
    (hfuel : img.restarts.length + 1 ≤ (restartIndex + 1).toNat + fuel) :
    ∃ restartIndex', it.advanceRestart fuel restartIndex = .ok restartIndex' ∧
      img.Advances it.current restartIndex restartIndex' := by
  induction fuel generalizing restartIndex with
  | zero => omega
  | succ fuel ih =>
    rw [advanceRestart]
    split
    · rename_i hlt
      rw [UInt32.lt_iff_toNat_lt, hd.restartsNum] at hlt
      have hget := List.getElem?_eq_getElem hlt
      have hread := img.read_restart hget
      rw [hd.data, hd.restarts, hread, ok_bind]
      split
      · rename_i hbefore
        rw [UInt32.lt_iff_toNat_lt, hw.toNat_offset] at hbefore
        have hnext : (restartIndex + 1 + 1).toNat = (restartIndex + 1).toNat + 1 := by
          have hnum := it.restartsNum.toNat_lt
          rw [hd.restartsNum] at hnum
          rw [UInt32.toNat_add, UInt32.toNat_one, Nat.mod_eq_of_lt (by omega)]
        have hrounds : img.restarts.length + 1 ≤ (restartIndex + 1 + 1).toNat + fuel := by omega
        obtain ⟨restartIndex', hok, hadv⟩ := ih (by omega) hrounds
        refine ⟨restartIndex', hok, by have := hadv.le; omega, Or.inr ?_, hadv.stops⟩
        rcases hadv.passed with rfl | hpassed
        · exact ⟨_, hget, hbefore⟩
        · exact hpassed
      · rename_i hnot
        rw [UInt32.lt_iff_toNat_lt, hw.toNat_offset, not_lt] at hnot
        refine ⟨restartIndex, rfl, le_rfl, Or.inl rfl, fun r hr => ?_⟩
        obtain rfl := Option.some.inj (hget.symm.trans hr)
        exact hnot
    · rename_i hge
      rw [UInt32.lt_iff_toNat_lt, hd.restartsNum] at hge
      refine ⟨restartIndex, rfl, le_rfl, Or.inl rfl, fun r hr => ?_⟩
      exact absurd (List.getElem?_eq_some_iff.mp hr).1 hge

/-! ### One step -/

/-- The iterator after `Next` has parsed a pair. -/
def parsed (it : BlockIter) (key value : Bytes) (restartIndex : UInt32) : BlockIter :=
  { it with
    key, value, restartIndex
    current := it.current + UInt32.ofNat (key.length + value.length + 12) }

theorem Describes.parsed (hd : it.Describes img) (key value : Bytes) (restartIndex : UInt32) :
    (it.parsed key value restartIndex).Describes img :=
  ⟨hd.data, hd.restarts, hd.restartsNum⟩

theorem Describes.moved (hd : it.Describes img) (restartIndex current : UInt32) :
    ({ it with restartIndex, current } : BlockIter).Describes img :=
  ⟨hd.data, hd.restarts, hd.restartsNum⟩

/-- `Next` at the offset of an entry reads everything but the rest of the key, which it looks for
behind the shared length. -/
theorem next_at_entry (hw : img.WellFormed) (hd : it.Describes img)
    (hi : img.entries[i]? = some e) (hcurrent : it.current.toNat = img.offset i) :
    ∃ restartIndex, img.Advances it.current it.restartIndex restartIndex ∧
      it.next = readString img.bytes (img.offset i + 12 + e.shared) (e.key.length - e.shared) >>=
        fun suffix => .ok (it.parsed (resize it.key e.shared ++ suffix) e.value restartIndex) := by
  obtain ⟨hword, hnonShared, hvalueSize, -, hvalue⟩ := img.read_entry hi
  obtain ⟨hshared, hlength, hvalueLength⟩ := hw.toNat_lengths hi
  have hfuel : img.restarts.length + 1 ≤
      (it.restartIndex + 1).toNat + (it.restartsNum.toNat + 1) := by
    rw [hd.restartsNum]
    omega
  obtain ⟨restartIndex, hadvance, hadv⟩ := advanceRestart_spec hw hd (by omega) hfuel
  have hinside : ¬ it.current ≥ it.restarts := by
    have hle := img.offset_le (i + 1)
    rw [img.offset_succ hi, e.length_bytes] at hle
    rw [ge_iff_le, UInt32.le_iff_toNat_le, hcurrent, hd.restarts]
    omega
  refine ⟨restartIndex, hadv, ?_⟩
  rw [next, parseNext, if_neg hinside]
  simp only [hd.data, hcurrent, hword, hnonShared, hvalueSize, ok_bind, hshared, hlength,
    hvalueLength, hvalue, hadvance]
  rcases readString img.bytes (img.offset i + 12 + e.shared) (e.key.length - e.shared)
    with _ | suffix
  · rfl
  · simp only [ok_bind, parsed, hd.data]

/-- `Next` at the end of the entries parses nothing. -/
theorem next_at_end (h : it.restarts ≤ it.current) :
    it.next = .ok (it.parsed it.key it.value it.restartIndex) := by
  rw [next, parseNext, if_pos h]
  rfl

/-- Behind an entry `current` is the offset of the next one plus the shared length. -/
theorem current_of_next (hw : img.WellFormed) (hd : it.Describes img)
    (hi : img.entries[i]? = some e) (hcurrent : it.current.toNat = img.offset i)
    {it' : BlockIter} (hnext : it.next = .ok it') :
    it'.current.toNat = (img.offset (i + 1) + e.shared) % 2 ^ 32 := by
  obtain ⟨restartIndex, -, heq⟩ := next_at_entry hw hd hi hcurrent
  rw [heq, bind_eq_ok] at hnext
  obtain ⟨suffix, hsuffix, hit'⟩ := hnext
  have hlength : suffix.length = e.key.length - e.shared := length_of_readString hsuffix
  have hle := (hw.length_le hi).1
  rw [← Except.ok.inj hit', img.offset_succ hi, e.length_bytes]
  simp only [parsed, UInt32.toNat_add, UInt32.toNat_ofNat', hcurrent, List.length_append,
    length_resize, hlength]
  omega

/-- On an entry that shares nothing `Next` is right. -/
theorem next_of_unshared (hw : img.WellFormed) (hd : it.Describes img)
    (hi : img.entries[i]? = some e) (hshared : e.shared = 0)
    (hcurrent : it.current.toNat = img.offset i) :
    ∃ it', it.next = .ok it' ∧ it'.Describes img ∧ it'.key = e.key ∧ it'.value = e.value ∧
      it'.current.toNat = img.offset (i + 1) ∧
      img.Advances it.current it.restartIndex it'.restartIndex := by
  obtain ⟨restartIndex, hadv, heq⟩ := next_at_entry hw hd hi hcurrent
  obtain ⟨-, -, -, hkey, -⟩ := img.read_entry hi
  rw [hshared, Nat.sub_zero, List.drop_zero] at hkey
  rw [hshared, Nat.add_zero, Nat.sub_zero, hkey, ok_bind, resize_zero, List.nil_append] at heq
  refine ⟨_, heq, hd.parsed _ _ _, rfl, rfl, ?_, hadv⟩
  have hlt := hw.length_lt
  have hle := img.offset_le (i + 1)
  rw [img.length_bytes] at hlt
  rw [current_of_next hw hd hi hcurrent heq, hshared, Nat.add_zero, Nat.mod_eq_of_lt (by omega)]

/-! ### What `Next` is to do -/

/-- The iterator stands before entry `j`, and its key is the one before, unless the entry is a
restart. -/
structure Before (it : BlockIter) (img : Image) (j : ℕ) (e : Entry) : Prop where
  entry : img.entries[j]? = some e
  current : it.current.toNat = img.offset j
  key : j ∈ img.restarts ∨ ∃ i e', j = i + 1 ∧ img.entries[i]? = some e' ∧ it.key = e'.key

/-- Before an entry `Next` reads it and moves on to the next one, or to the restart array; at the
restart array it does nothing. -/
structure NextDecodes (it : BlockIter) (img : Image) : Prop where
  entry : ∀ j e, it.Before img j e → ∃ it', it.next = .ok it' ∧ it'.key = e.key ∧
    it'.value = e.value ∧ it'.current.toNat = img.offset (j + 1)
  stays : it.current = it.restarts → ∃ it', it.next = .ok it' ∧ it'.key = it.key ∧
    it'.value = it.value ∧ it'.current = it.current

/-- **Where `Next` is right**: before an entry that shares nothing, and at the restart array if the
pair it stands on has a length that wraps to zero. -/
theorem nextDecodes_iff (hw : img.WellFormed) (hd : it.Describes img) :
    it.NextDecodes img ↔ (∀ j e, it.Before img j e → e.shared = 0) ∧
      (it.current = it.restarts → (it.key.length + it.value.length + 12) % 2 ^ 32 = 0) := by
  have hend : it.current = it.restarts →
      it.next = .ok (it.parsed it.key it.value it.restartIndex) := fun hcurrent =>
    next_at_end (hcurrent ▸ UInt32.le_refl _)
  have hstays : (it.parsed it.key it.value it.restartIndex).current = it.current ↔
      (it.key.length + it.value.length + 12) % 2 ^ 32 = 0 := by
    have hlt := it.current.toNat_lt
    rw [parsed, ← UInt32.toNat_inj, UInt32.toNat_add, UInt32.toNat_ofNat']
    omega
  constructor
  · rintro ⟨hentry, hstay⟩
    refine ⟨fun j e hj => ?_, fun hcurrent => ?_⟩
    · obtain ⟨it', hnext, -, -, hcurrent⟩ := hentry j e hj
      have hmoved := current_of_next hw hd hj.entry hj.current hnext
      -- the shared length is smaller than the block, so it cannot wrap to zero
      have hshared := hw.length_le hj.entry
      have hle := img.offset_le (j + 1)
      have hlt := hw.length_lt
      rw [img.length_bytes] at hlt
      omega
    · obtain ⟨it', hnext, -, -, hsame⟩ := hstay hcurrent
      rw [hend hcurrent] at hnext
      cases hnext
      exact hstays.mp hsame
  · rintro ⟨hshared, hlength⟩
    refine ⟨fun j e hj => ?_, fun hcurrent => ?_⟩
    · obtain ⟨it', hnext, -, hkey, hvalue, hcurrent, -⟩ :=
        next_of_unshared hw hd hj.entry (hshared j e hj) hj.current
      exact ⟨it', hnext, hkey, hvalue, hcurrent⟩
    · exact ⟨_, hend hcurrent, rfl, rfl, hstays.mpr (hlength hcurrent)⟩

/-! ### Two blocks -/

/-- The pairs `("a", "x")`, `("b", "y")`, each of them a restart. -/
def twoRestarts : Image where
  entries := [⟨0, [97], [120]⟩, ⟨0, [98], [121]⟩]
  restarts := [0, 1]

/-- The pairs `("ab", "x")`, `("ac", "y")`, the second of which shares a byte. -/
def oneShared : Image where
  entries := [⟨0, [97, 98], [120]⟩, ⟨1, [97, 99], [121]⟩]
  restarts := [0]

theorem unshared_twoRestarts : ∀ e ∈ twoRestarts.entries, e.shared = 0 := by
  simp [twoRestarts]

theorem wellFormed_twoRestarts : twoRestarts.WellFormed where
  length_lt := by decide
  precedes := by simp [twoRestarts, Entry.Precedes]
  first := fun _ => rfl
  restarts_lt := by decide
  restarts_sorted := by decide
  shared_restart := fun _ _ e he => unshared_twoRestarts e (List.mem_of_getElem? he)

theorem wellFormed_oneShared : oneShared.WellFormed where
  length_lt := by decide
  precedes := by simp [oneShared, Entry.Precedes]
  first := fun _ => rfl
  restarts_lt := by decide
  restarts_sorted := by decide
  shared_restart := by
    intro r hr e he
    obtain rfl : r = 0 := by simpa [oneShared] using hr
    obtain rfl : _ = e := Option.some.inj he
    rfl

/-- An iterator that stands on the last entry of an image. -/
def lastOf (img : Image) (e : Entry) : BlockIter where
  data := img.bytes
  current := UInt32.ofNat img.entryBytes.length
  restartsNum := UInt32.ofNat img.restarts.length
  restartIndex := UInt32.ofNat img.restarts.length - 1
  restarts := UInt32.ofNat img.entryBytes.length
  key := e.key
  value := e.value
  size := img.bytes.length

/-- From `"a"` to `"b"` in the first block. -/
theorem nextDecodes_twoRestarts :
    ({ lastOf twoRestarts ⟨0, [97], [120]⟩ with current := 14 } : BlockIter).NextDecodes
      twoRestarts := by
  refine (nextDecodes_iff wellFormed_twoRestarts ⟨rfl, rfl, rfl⟩).mpr ⟨fun j e hj => ?_, ?_⟩
  · exact unshared_twoRestarts e (List.mem_of_getElem? hj.entry)
  · intro hcurrent
    exact absurd hcurrent (by decide)

/-- From `"ab"` to `"ac"` in the second block, and at the end of either. -/
theorem not_nextDecodes_shared_and_end :
    ¬ ({ lastOf oneShared ⟨0, [97, 98], [120]⟩ with current := 15 } : BlockIter).NextDecodes
      oneShared ∧
    ¬ (lastOf twoRestarts ⟨0, [98], [121]⟩).NextDecodes twoRestarts := by
  refine ⟨fun h => ?_, fun h => ?_⟩
  · obtain ⟨it', hnext, -, -, hcurrent⟩ :=
      h.entry 1 ⟨1, [97, 99], [121]⟩ ⟨rfl, rfl, .inr ⟨0, _, rfl, rfl, rfl⟩⟩
    have hmoved := current_of_next (i := 1) wellFormed_oneShared ⟨rfl, rfl, rfl⟩ rfl rfl hnext
    rw [hcurrent] at hmoved
    exact absurd hmoved (by decide)
  · obtain ⟨it', hnext, -, -, hcurrent⟩ := h.stays rfl
    rw [next_at_end (UInt32.le_refl _)] at hnext
    cases hnext
    exact absurd hcurrent (by decide)

end BlockIter

end TinyLeveldb
