import TinyLeveldb.Block.Seek

/-!
# Whether `Seek` ends

The binary search of `Seek` ends on every well-formed block (`searchRestarts_straddles`). The scan
behind it is a `for(;;)` whose only exit is a key that is not before the target, and `Next` never
says that the entries are over: past the last one it keeps the key and only moves `current` on by
the length of the last pair, until the 32-bit sum wraps around and the scan is inside the block
again.

`Seek` ends where it finds its entry, and, when no key is before the target and the search ends with
`-1`, where the offset it starts from makes the first step of the scan the last one
(`seekEnds_of_scanFits`). If every key is before the target, what happens depends on where `current`
comes back into the block: when that is the offset of an entry, the scan goes round for ever
(`seek_diverged_of_returns`).
-/

namespace TinyLeveldb

open Library

namespace BlockIter

variable {img : Image} {it : BlockIter} {target : Bytes}

/-- Both loops of `Seek` end. -/
def SeekEnds (it : BlockIter) (target : Bytes) : Prop :=
  ∃ fuel₀, ∀ fuel ≥ fuel₀, ∃ it', it.seek fuel target = .ok it'

/-- A scan whose first call of `Next` gets a key that is not before the target. -/
theorem scan_of_next {it' : BlockIter} (hnext : it.next = .ok it') (hge : target ≤ it'.key)
    {fuel : ℕ} (hfuel : 1 ≤ fuel) : scan target fuel it = .ok it' := by
  obtain ⟨rounds, rfl⟩ : ∃ rounds, fuel = rounds + 1 := ⟨fuel - 1, by omega⟩
  rw [scan, hnext, ok_bind, if_pos hge]

/-- What the scan of `Seek` needs to end.
* `found`: the first key is before the target, some key is not, and nothing is shared from the last
  restart before the target up to that key.
* `behind`, `landed`: no key is before the target. The word in front of the restart array points
  behind the entries, and the iterator has a key that is not before the target; or it points to an
  entry that shares nothing. -/
inductive ScanFits (img : Image) (it : BlockIter) (target : Bytes) : Prop
  | found {t : ℕ} {e : Entry} : img.FirstNotBefore target t e → img.UnsharedUpTo target t →
      ScanFits img it target
  | behind : (∀ e ∈ img.entries, target ≤ e.key) → img.entryBytes.length ≤ img.lastWord.toNat →
      target ≤ it.key → ScanFits img it target
  | landed {i : ℕ} {e : Entry} : (∀ e ∈ img.entries, target ≤ e.key) → img.entries[i]? = some e →
      img.lastWord.toNat = img.offset i → e.shared = 0 → ScanFits img it target

/-- When no key is before the target, `Seek` takes the step of the scan from the word in front of
the restart array. -/
theorem seekEnds_of_next (hw : img.WellFormed) (hd : it.Describes img) (hne : img.entries ≠ [])
    (hnone : ∀ e ∈ img.entries, target ≤ e.key) {it' : BlockIter}
    (hnext : ({ it with restartIndex := UInt32.ofInt (-1), current := img.lastWord } :
      BlockIter).next = .ok it') (hge : target ≤ it'.key) : it.SeekEnds target := by
  refine ⟨img.restarts.length + 1, fun fuel hfuel => ⟨it', ?_⟩⟩
  have hrestarts : ∀ j, ¬ img.RestartBefore target j := by
    rintro j ⟨r, e, -, he, hlt⟩
    exact absurd hlt (not_lt.mpr (hnone e (List.mem_of_getElem? he)))
  rw [seek_eq_scan_lastWord hw hd hne hrestarts hfuel]
  exact scan_of_next hnext hge (by omega)

/-- **Where `Seek` ends.** -/
theorem seekEnds_of_scanFits (hw : img.WellFormed) (hs : img.Sorted) (hd : it.Describes img)
    (hne : img.entries ≠ []) (h : ScanFits img it target) : it.SeekEnds target := by
  have hd' := hd.moved (UInt32.ofInt (-1)) img.lastWord
  cases h with
  | found hfirst hunshared =>
    refine ⟨img.restarts.length + 1 + img.entries.length, fun fuel hfuel => ?_⟩
    obtain ⟨it', hseek, -⟩ := exists_seek_of_unshared hw hs hd hfirst hunshared hfuel
    exact ⟨it', hseek⟩
  | behind hnone hbehind hkey =>
    have hend : it.restarts ≤ img.lastWord := by
      rwa [UInt32.le_iff_toNat_le, hd.restarts]
    exact seekEnds_of_next hw hd hne hnone (next_at_end hend) hkey
  | landed hnone he hoffset hshared =>
    obtain ⟨it', hnext, -, hkey, -⟩ := next_of_unshared hw hd' he hshared hoffset
    exact seekEnds_of_next hw hd hne hnone hnext (hkey ▸ hnone _ (List.mem_of_getElem? he))

/-- Seeking `"b"` and `"a"` in a block of two restarts, from its last entry. In front of the restart
array there are four bytes that point behind the entries. -/
theorem seekEnds_twoRestarts :
    (lastOf twoRestarts ⟨0, [98], [121]⟩).SeekEnds [98] ∧
      (lastOf twoRestarts ⟨0, [98], [121]⟩).SeekEnds [97] := by
  have hdescribes : (lastOf twoRestarts ⟨0, [98], [121]⟩).Describes twoRestarts := ⟨rfl, rfl, rfl⟩
  have hfound : ScanFits twoRestarts (lastOf twoRestarts ⟨0, [98], [121]⟩) [98] :=
    .found (firstNotBefore_one (by decide)) unsharedUpTo_twoRestarts
  have hbehind : ScanFits twoRestarts (lastOf twoRestarts ⟨0, [98], [121]⟩) [97] :=
    .behind (by decide) (by decide) (by decide)
  have hne : twoRestarts.entries ≠ [] := by decide
  constructor
  · exact seekEnds_of_scanFits wellFormed_twoRestarts sorted_twoRestarts hdescribes hne hfound
  · exact seekEnds_of_scanFits wellFormed_twoRestarts sorted_twoRestarts hdescribes hne hbehind

/-! ### Going round -/

/-- A scan that keeps a property under which the key stays before the target never ends. -/
theorem scan_diverged {P : BlockIter → Prop}
    (hstep : ∀ it, P it → ∃ it', it.next = .ok it' ∧ P it' ∧ it'.key < target) (h : P it)
    (fuel : ℕ) : scan target fuel it = .error .diverged := by
  induction fuel generalizing it with
  | zero => rfl
  | succ fuel ih =>
    obtain ⟨it', hnext, h', hlt⟩ := hstep it h
    rw [scan, hnext, ok_bind, if_neg (not_le.mpr hlt)]
    exact ih h'

end BlockIter

namespace Image

/-- The offsets behind the block, in steps of the last entry's length, come back to the offset of
entry `i` when they wrap around. -/
structure ReturnsTo (img : Image) (last : Entry) (i : ℕ) : Prop where
  getLast : img.entries.getLast? = some last
  lt : i < img.entries.length
  offset_lt : img.offset i < last.bytes.length
  wraps : ∃ rounds, img.entryBytes.length + rounds * last.bytes.length = 2 ^ 32 + img.offset i

/-- One round behind the block: the sum stays below `2 ^ 32`, or wraps around for the first time,
and so to the offset of entry `i`. -/
theorem ReturnsTo.mod_succ {img : Image} {last : Entry} {i rounds : ℕ}
    (h : img.ReturnsTo last i) (hw : img.WellFormed)
    (hinside : img.entryBytes.length + rounds * last.bytes.length < 2 ^ 32) :
    (img.entryBytes.length + (rounds + 1) * last.bytes.length) % 2 ^ 32 =
        img.entryBytes.length + (rounds + 1) * last.bytes.length ∨
      (img.entryBytes.length + (rounds + 1) * last.bytes.length) % 2 ^ 32 = img.offset i := by
  obtain ⟨rounds₀, hwraps⟩ := h.wraps
  have hoffset := h.offset_lt
  rcases Nat.lt_or_ge (img.entryBytes.length + (rounds + 1) * last.bytes.length) (2 ^ 32)
    with hsmall | hlarge
  · exact .inl (Nat.mod_eq_of_lt hsmall)
  · have hrounds : rounds₀ = rounds + 1 := by
      rw [Nat.succ_mul] at hlarge
      rcases Nat.lt_trichotomy rounds₀ (rounds + 1) with hless | heq | hmore
      · have := Nat.mul_le_mul_right last.bytes.length (Nat.le_of_lt_succ hless)
        omega
      · exact heq
      · have := Nat.mul_le_mul_right last.bytes.length (Nat.succ_le_of_lt hmore)
        rw [Nat.succ_mul, Nat.succ_mul] at this
        omega
    have hle := img.offset_le i
    have hblock := hw.length_lt
    rw [img.length_bytes] at hblock
    rw [← hrounds, hwraps, Nat.add_mod_left, Nat.mod_eq_of_lt (by omega)]
    exact .inr rfl

end Image

namespace BlockIter

variable {img : Image} {it : BlockIter} {target : Bytes} {last : Entry} {i : ℕ}

/-- Where the scan is: before an entry, or some rounds behind the last one. -/
inductive Circling (img : Image) (last : Entry) (it : BlockIter) : Prop
  | before (j : ℕ) : j < img.entries.length → it.current.toNat = img.offset j →
      Circling img last it
  | behind (rounds : ℕ) : it.key = last.key → it.value = last.value →
      it.current.toNat = img.entryBytes.length + rounds * last.bytes.length →
      Circling img last it

/-- **Step lemma.** `Next` keeps the scan on its circle, where it meets the keys of the block. -/
theorem Circling.next (hw : img.WellFormed) (hd : it.Describes img)
    (hunshared : ∀ e ∈ img.entries, e.shared = 0) (hreturn : img.ReturnsTo last i)
    (h : Circling img last it) :
    ∃ it', it.next = .ok it' ∧ it'.Describes img ∧ Circling img last it' ∧
      ∃ e ∈ img.entries, it'.key = e.key := by
  have hmem : last ∈ img.entries := List.mem_of_getLast? hreturn.getLast
  rcases h with ⟨j, hj, hcurrent⟩ | ⟨rounds, hkey, hvalue, hcurrent⟩
  · have hget := List.getElem?_eq_getElem hj
    obtain ⟨it', hnext, hd', hkey, hvalue, hcurrent', -⟩ :=
      next_of_unshared hw hd hget (hunshared _ (List.getElem_mem hj)) hcurrent
    refine ⟨it', hnext, hd', ?_, _, List.getElem_mem hj, hkey⟩
    rcases Nat.lt_or_ge (j + 1) img.entries.length with hlt | hge
    · exact .before (j + 1) hlt hcurrent'
    · -- entry `j` is the last one
      have heq : j + 1 = img.entries.length := by omega
      have hlastj : img.entries[j] = last := by
        have := hreturn.getLast
        rw [List.getLast?_eq_getElem?, ← heq, Nat.add_sub_cancel, hget] at this
        exact Option.some.inj this
      refine .behind 0 (hkey.trans (by rw [hlastj])) (hvalue.trans (by rw [hlastj])) ?_
      rw [hcurrent', heq, img.offset_length, Nat.zero_mul, Nat.add_zero]
  · have hend : it.restarts ≤ it.current := by
      rw [UInt32.le_iff_toNat_le, hd.restarts, hcurrent]
      exact Nat.le_add_right _ _
    refine ⟨_, next_at_end hend, hd.parsed _ _ _, ?_, last, hmem, hkey⟩
    have hlength := last.length_bytes
    rw [hunshared last hmem, Nat.sub_zero] at hlength
    have hcurrent' : (it.parsed it.key it.value it.restartIndex).current.toNat =
        (img.entryBytes.length + (rounds + 1) * last.bytes.length) % 2 ^ 32 := by
      rw [parsed, UInt32.toNat_add, UInt32.toNat_ofNat', hcurrent, hkey, hvalue, Nat.succ_mul]
      omega
    rcases hreturn.mod_succ hw (hcurrent ▸ it.current.toNat_lt) with hsmall | hwrapped
    · exact .behind (rounds + 1) hkey hvalue (hcurrent'.trans hsmall)
    · exact .before i hreturn.lt (hcurrent'.trans hwrapped)

/-- **Where `Seek` does not end**: nothing is shared, every key is before the target, and behind the
block the scan comes back to an entry. -/
theorem seek_diverged_of_returns (hw : img.WellFormed) (hd : it.Describes img)
    (hunshared : ∀ e ∈ img.entries, e.shared = 0) (hbelow : ∀ e ∈ img.entries, e.key < target)
    (hreturn : img.ReturnsTo last i) {fuel : ℕ} (hfuel : img.restarts.length + 1 ≤ fuel) :
    it.seek fuel target = .error .diverged := by
  have hpos : 0 < img.entries.length := Nat.zero_lt_of_lt hreturn.lt
  have hfirst : img.RestartBefore target 0 := by
    refine ⟨0, img.entries[0], ?_, List.getElem?_eq_getElem hpos, hbelow _ (List.getElem_mem hpos)⟩
    rw [← List.head?_eq_getElem?]
    exact hw.first (List.ne_nil_of_length_pos hpos)
  obtain ⟨j, r, hr, -, -, hseek⟩ := seek_eq_scan hw hd hfirst hfuel
  rw [hseek]
  refine scan_diverged (P := fun it => it.Describes img ∧ Circling img last it) ?_
    ⟨hd.moved _ _, .before r (hw.restarts_lt r (List.mem_of_getElem? hr)) (hw.toNat_offset r)⟩ fuel
  rintro it ⟨hd, h⟩
  obtain ⟨it', hnext, hd', h', e, he, hkey⟩ := h.next hw hd hunshared hreturn
  exact ⟨it', hnext, ⟨hd', h'⟩, hkey ▸ hbelow e he⟩

/-- The pair `("a", "xyz")`, whose sixteen bytes divide `2 ^ 32`. -/
def onePair : Image where
  entries := [⟨0, [97], [120, 121, 122]⟩]
  restarts := [0]

theorem wellFormed_onePair : onePair.WellFormed where
  length_lt := by decide
  precedes := by simp [onePair]
  first := fun _ => rfl
  restarts_lt := by decide
  restarts_sorted := by decide
  shared_restart := by
    intro r hr e he
    have hmem := List.mem_of_getElem? he
    simp only [onePair, List.mem_singleton] at hmem
    rw [hmem]

/-- Seeking `"b"` in the block of this pair goes round for ever. -/
theorem not_seekEnds_onePair :
    onePair.WellFormed ∧ onePair.Sorted ∧
      (lastOf onePair ⟨0, [97], [120, 121, 122]⟩).Describes onePair ∧
      ¬ (lastOf onePair ⟨0, [97], [120, 121, 122]⟩).SeekEnds [98] := by
  refine ⟨wellFormed_onePair, List.pairwise_singleton _ _, ⟨rfl, rfl, rfl⟩, ?_⟩
  rintro ⟨fuel₀, hends⟩
  obtain ⟨it', hseek⟩ := hends (fuel₀ + 2) (by omega)
  have hreturn : onePair.ReturnsTo ⟨0, [97], [120, 121, 122]⟩ 0 :=
    ⟨rfl, by decide, by decide, 2 ^ 28 - 1, rfl⟩
  have hdiverged : (lastOf onePair ⟨0, [97], [120, 121, 122]⟩).seek (fuel₀ + 2) [98] =
      .error .diverged := by
    refine seek_diverged_of_returns wellFormed_onePair ⟨rfl, rfl, rfl⟩ ?_ ?_ hreturn ?_
    · simp [onePair]
    · simp only [onePair, List.mem_singleton, forall_eq]
      decide
    · exact Nat.le_add_left 2 fuel₀
  rw [hdiverged] at hseek
  cases hseek

end BlockIter

end TinyLeveldb
