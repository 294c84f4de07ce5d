import TinyLeveldb.Block.Search

/-!
# Seeking in a block

`blockIter::Seek`: a binary search for the last restart entry with a key before the target, and
a scan from there. The search is right for every target (`searchRestarts_correct`), but its result
`-1`, when no restart entry is before the target, makes the scan start at the offset that the
word *before* the restart array happens to spell. And the scan itself goes astray at the first
entry that shares a part of its key: `parseNext` skips the shared length once more when it reads
the rest of the key, and `Next` advances by the full length of the key. Away from both,
`Seek` finds its entry (`seeksTo_of_unshared`).
-/

namespace TinyLeveldb

open Library

namespace BlockIter

/-- The scan of `Seek`. -/
def scan (target : Bytes) : ℕ → BlockIter → Except Fault BlockIter
  | 0, _ => .error .diverged
  | fuel + 1, it => do
      let it ← it.next
      if it.key ≥ target then .ok it else scan target fuel it

/-- `Seek`. Both loops get the same fuel. -/
def seek (fuel : ℕ) (it : BlockIter) (target : Bytes) : Except Fault BlockIter := do
  let right := ((it.restartsNum - 1).toNat : ℤ).bmod (2 ^ 32)
  let (_, right) ← it.searchRestarts target fuel 0 right
  let current ← readFixed32 it.data (it.restarts.toNat + right * 4)
  scan target fuel { it with restartIndex := UInt32.ofInt right, current }

/-- With enough fuel, `Seek` ends on entry `t` of the image: its key and value are read, and the
next entry is the one behind it. -/
def SeeksTo (it : BlockIter) (img : Image) (target : Bytes) (t : ℕ) (e : Entry) : Prop :=
  ∃ fuel₀, ∀ fuel ≥ fuel₀, ∃ it', it.seek fuel target = .ok it' ∧ it'.key = e.key ∧
    it'.value = e.value ∧ it'.current.toNat = img.offset (t + 1)

end BlockIter

namespace Image

/-- Entry `t` is the first one with a key not before the target. -/
structure FirstNotBefore (img : Image) (target : Bytes) (t : ℕ) (e : Entry) : Prop where
  entry : img.entries[t]? = some e
  le : target ≤ e.key
  before : ∀ i e', i < t → img.entries[i]? = some e' → e'.key < target

/-- The last four bytes of the entries, which lie in front of the restart array, as a word. -/
def lastWord (img : Image) : UInt32 := decodeFixed32 (img.bytes.drop (img.entryBytes.length - 4))

variable {img : Image} {target : Bytes}

theorem read_lastWord (img : Image) (hne : img.entries ≠ []) :
    readFixed32 img.bytes (img.entryBytes.length + (-1 : ℤ) * 4) = .ok img.lastWord := by
  have hpos : 0 < img.entries.length := List.length_pos_of_ne_nil hne
  have hheader : 12 ≤ img.entryBytes.length := by
    have hle := img.offset_le 1
    rw [img.offset_succ (List.getElem?_eq_getElem hpos), Entry.length_bytes] at hle
    omega
  have hlength := img.length_bytes
  have hback : ((img.entryBytes.length : ℤ) + -1 * 4).toNat = img.entryBytes.length - 4 := by omega
  rw [readFixed32, if_pos ⟨by omega, by omega⟩, hback, lastWord]

end Image

namespace BlockIter

variable {img : Image} {it : BlockIter} {target : Bytes}

/-! ### The scan -/

/-- Through entries that share nothing, the scan reaches the first key that is not before the
target. The restart index is then right unless the entry is a restart. -/
theorem scan_eq (hw : img.WellFormed) {t : ℕ} {e : Entry} (ht : img.entries[t]? = some e)
    (hge : target ≤ e.key) {fuel i : ℕ} (hd : it.Describes img)
    (hcurrent : it.current.toNat = img.offset i) (hi : i ≤ t)
    (hbefore : ∀ j e', i ≤ j → j < t → img.entries[j]? = some e' → e'.key < target)
    (hshared : ∀ j e', i ≤ j → j ≤ t → img.entries[j]? = some e' → e'.shared = 0)
    (hfuel : t - i < fuel) :
    ∃ it', scan target fuel it = .ok it' ∧ it'.Describes img ∧ it'.key = e.key ∧
      it'.value = e.value ∧ it'.current.toNat = img.offset (t + 1) ∧
      (img.NotAhead i it.restartIndex → t ∉ img.restarts →
        img.GroupOf t it'.restartIndex.toNat) := by
  induction fuel generalizing it i with
  | zero => omega
  | succ fuel ih =>
    obtain ⟨htlt, -⟩ := List.getElem?_eq_some_iff.mp ht
    have hget : img.entries[i]? = some img.entries[i] := List.getElem?_eq_getElem (by omega)
    obtain ⟨it', hnext, hd', hkey, hvalue, hcurrent', hadv⟩ :=
      next_of_unshared hw hd hget (hshared i _ le_rfl hi hget) hcurrent
    rw [scan, hnext, ok_bind]
    rcases hi.eq_or_lt with rfl | hlt
    · obtain rfl := Option.some.inj (hget.symm.trans ht)
      rw [if_pos (by rw [hkey]; exact hge)]
      exact ⟨it', rfl, hd', hkey, hvalue, hcurrent', fun hahead hnot =>
        hadv.groupOf hw htlt hcurrent (.inr ⟨hnot, hahead⟩)⟩
    · have hkey_lt := hbefore i _ le_rfl hlt hget
      rw [if_neg (by rw [hkey]; exact not_le.mpr hkey_lt)]
      obtain ⟨it'', hscan, hd'', hkey'', hvalue'', hcurrent'', hgroup⟩ :=
        ih hd' hcurrent' hlt (fun j e' hj => hbefore j e' (by omega))
          (fun j e' hj => hshared j e' (by omega)) (by omega)
      refine ⟨it'', hscan, hd'', hkey'', hvalue'', hcurrent'', fun hahead => hgroup ?_⟩
      exact (hadv.notAhead (hlt.trans htlt) hcurrent hahead).mono (Nat.le_succ i)

/-! ### Both loops -/

/-- `Seek` scans from the offset that it reads at the index the search ends with. -/
theorem exists_seek_eq (target : Bytes) (hw : img.WellFormed) (hd : it.Describes img)
    {fuel : ℕ} (hfuel : img.restarts.length + 1 ≤ fuel) :
    ∃ right, Straddles img target (right + 1) right ∧ ∀ current : UInt32,
      readFixed32 img.bytes (img.entryBytes.length + right * 4) = .ok current →
      it.seek fuel target =
        scan target fuel { it with restartIndex := UInt32.ofInt right, current } := by
  have hright := lastRestart_eq hw.restartsWellFormed hd
  have hrounds : (img.restarts.length : ℤ) - 1 - 0 + 2 ≤ fuel := by omega
  obtain ⟨right, hsearch, hend⟩ :=
    searchRestarts_straddles hw hd (straddles_all img target) hrounds
  refine ⟨right, hend, fun current hcurrent => ?_⟩
  rw [seek, hright, hsearch, ok_bind]
  simp only [hd.data, hd.restarts, hcurrent, ok_bind]

/-- When the first restart is before the target, `Seek` scans from a restart that is, and whose
successor is not. -/
theorem seek_eq_scan (hw : img.WellFormed) (hd : it.Describes img)
    (hfirst : img.RestartBefore target 0) {fuel : ℕ} (hfuel : img.restarts.length + 1 ≤ fuel) :
    ∃ j r, img.restarts[j]? = some r ∧ img.RestartBefore target j ∧
      ¬ img.RestartBefore target (j + 1) ∧ it.seek fuel target = scan target fuel
        { it with restartIndex := UInt32.ofNat j, current := UInt32.ofNat (img.offset r) } := by
  have hnum := hw.length_lt
  rw [img.length_bytes] at hnum
  obtain ⟨right, hend, hseek⟩ := exists_seek_eq target hw hd hfuel
  -- it cannot end in front of the first restart
  obtain ⟨j, rfl⟩ : ∃ j : ℕ, right = j := by
    refine ⟨right.toNat, ?_⟩
    by_contra hneg
    have hnonneg := hend.nonneg
    exact hend.after 0 (by omega) hfirst
  have hbefore := hend.before j rfl
  have hafter := hend.after (j + 1) (by omega)
  obtain ⟨r, e, hr, -, -⟩ := hbefore
  refine ⟨j, r, hr, hend.before j rfl, hafter, ?_⟩
  have hindex : UInt32.ofInt (j : ℤ) = UInt32.ofNat j := by
    have hlt := hend.lt
    have hmod : ((j : ℤ) % 2 ^ 32).toNat = j := by omega
    rw [UInt32.ofInt, hmod]
  rw [hseek _ (img.read_restart hr), hindex]

/-- When no restart is before the target, `Seek` scans from the offset that the word in front of the
restart array spells. -/
theorem seek_eq_scan_lastWord (hw : img.WellFormed) (hd : it.Describes img)
    (hne : img.entries ≠ []) (hnone : ∀ j, ¬ img.RestartBefore target j) {fuel : ℕ}
    (hfuel : img.restarts.length + 1 ≤ fuel) :
    it.seek fuel target = scan target fuel
      { it with restartIndex := UInt32.ofInt (-1), current := img.lastWord } := by
  obtain ⟨right, hend, hseek⟩ := exists_seek_eq target hw hd hfuel
  -- every other index is that of a restart before the target
  obtain rfl : right = -1 := by
    by_contra hne
    have hnonneg := hend.nonneg
    exact hnone right.toNat (hend.before right.toNat (by omega))
  exact hseek _ (img.read_lastWord hne)

end BlockIter

namespace Image

variable {img : Image} {target : Bytes}

/-- With increasing keys the last restart before the target is the only one whose successor is not
before it. -/
theorem RestartBefore.unique (hw : img.WellFormed) (hs : img.Sorted) {j k : ℕ}
    (hj : img.RestartBefore target j) (hj' : ¬ img.RestartBefore target (j + 1))
    (hk : img.RestartBefore target k) (hk' : ¬ img.RestartBefore target (k + 1)) : j = k := by
  rcases Nat.lt_trichotomy j k with hlt | heq | hlt
  · exact absurd (hk.mono hw hs hlt) hj'
  · exact heq
  · exact absurd (hj.mono hw hs hlt) hk'

/-- An entry with a key not before the target is at or behind every restart before the target. -/
theorem RestartBefore.le_of_le_key (hs : img.Sorted) {j r t : ℕ} {e : Entry}
    (h : img.RestartBefore target j) (hr : img.restarts[j]? = some r)
    (ht : img.entries[t]? = some e) (hge : target ≤ e.key) : r ≤ t := by
  obtain ⟨r', e', hr', he', hlt⟩ := h
  obtain rfl := Option.some.inj (hr.symm.trans hr')
  by_contra hlt'
  obtain ⟨hr', rfl⟩ := List.getElem?_eq_some_iff.mp he'
  obtain ⟨ht', rfl⟩ := List.getElem?_eq_some_iff.mp ht
  have hkeys := List.pairwise_iff_getElem.mp hs t r ht' hr' (by omega)
  exact absurd (hkeys.trans hlt) (not_lt.mpr hge)

/-- Nothing is shared between the last restart entry with a key before the target and entry
`t`. -/
def UnsharedUpTo (img : Image) (target : Bytes) (t : ℕ) : Prop :=
  ∃ j r, img.restarts[j]? = some r ∧ img.RestartBefore target j ∧
    ¬ img.RestartBefore target (j + 1) ∧
    ∀ i e, r ≤ i → i ≤ t → img.entries[i]? = some e → e.shared = 0

end Image

namespace BlockIter

variable {img : Image} {it : BlockIter} {target : Bytes}

/-- From the last restart before the target, through entries that share nothing, `Seek` reaches the
first key that is not before the target. -/
theorem exists_seek_of_unshared (hw : img.WellFormed) (hs : img.Sorted) (hd : it.Describes img)
    {t : ℕ} {e : Entry} (hfirst : img.FirstNotBefore target t e)
    (hunshared : img.UnsharedUpTo target t) {fuel : ℕ}
    (hfuel : img.restarts.length + 1 + img.entries.length ≤ fuel) :
    ∃ it', it.seek fuel target = .ok it' ∧ it'.key = e.key ∧ it'.value = e.value ∧
      it'.current.toNat = img.offset (t + 1) := by
  obtain ⟨j, r, hr, hbefore, hafter, hshared⟩ := hunshared
  obtain ⟨ht, hge, hfirst⟩ := hfirst
  obtain ⟨htlt, -⟩ := List.getElem?_eq_some_iff.mp ht
  have hrounds : img.restarts.length + 1 ≤ fuel := by omega
  obtain ⟨k, r', hr', hk, hk', hseek⟩ :=
    seek_eq_scan hw hd (hbefore.mono hw hs (Nat.zero_le j)) hrounds
  obtain rfl := hbefore.unique hw hs hafter hk hk'
  obtain rfl := Option.some.inj (hr.symm.trans hr')
  have hrt : r ≤ t := hbefore.le_of_le_key hs hr ht hge
  have hleft : t - r < fuel := by omega
  have hd' := hd.moved (UInt32.ofNat j) (UInt32.ofNat (img.offset r))
  obtain ⟨it', hscan, -, hkey, hvalue, hcurrent, -⟩ :=
    scan_eq hw ht hge hd' (hw.toNat_offset r) hrt (fun i e' _ => hfirst i e') hshared hleft
  exact ⟨it', hseek ▸ hscan, hkey, hvalue, hcurrent⟩

/-- **Where `Seek` is right.** In a well-formed block with increasing keys, `Seek` finds the first
entry with a key not before the target when the first key is before the target and nothing is
shared from the last restart before the target up to that entry. -/
theorem seeksTo_of_unshared (hw : img.WellFormed) (hs : img.Sorted) (hd : it.Describes img) {t : ℕ}
    {e : Entry} (hfirst : img.FirstNotBefore target t e) (hunshared : img.UnsharedUpTo target t) :
    it.SeeksTo img target t e :=
  ⟨img.restarts.length + 1 + img.entries.length,
    fun _ hfuel => exists_seek_of_unshared hw hs hd hfirst hunshared hfuel⟩

/-! ### More fuel changes nothing -/

theorem searchRestarts_mono {fuel fuel' : ℕ} (hle : fuel ≤ fuel') {left right : ℤ}
    {ends : ℤ × ℤ} (h : it.searchRestarts target fuel left right = .ok ends) :
    it.searchRestarts target fuel' left right = .ok ends := by
  induction fuel generalizing fuel' left right with
  | zero => cases h
  | succ fuel ih =>
    obtain ⟨fuel', rfl⟩ : ∃ k, fuel' = k + 1 := ⟨fuel' - 1, by omega⟩
    have hle' : fuel ≤ fuel' := Nat.le_of_succ_le_succ hle
    rw [searchRestarts_eq_readRestartKey] at h ⊢
    by_cases hwindow : left ≤ right
    · rw [if_pos hwindow] at h ⊢
      obtain ⟨key, hkey, h⟩ := bind_eq_ok.mp h
      refine bind_eq_ok.mpr ⟨key, hkey, ?_⟩
      by_cases hbefore : key < target
      · rw [if_pos hbefore] at h ⊢
        exact ih hle' h
      · rw [if_neg hbefore] at h ⊢
        exact ih hle' h
    · rwa [if_neg hwindow] at h ⊢

theorem scan_mono {fuel fuel' : ℕ} (hle : fuel ≤ fuel') {it' : BlockIter}
    (h : scan target fuel it = .ok it') : scan target fuel' it = .ok it' := by
  induction fuel generalizing fuel' it with
  | zero => cases h
  | succ fuel ih =>
    obtain ⟨fuel', rfl⟩ : ∃ k, fuel' = k + 1 := ⟨fuel' - 1, by omega⟩
    have hle' : fuel ≤ fuel' := Nat.le_of_succ_le_succ hle
    rw [scan] at h ⊢
    simp only [bind_eq_ok] at h ⊢
    obtain ⟨next, hnext, h⟩ := h
    refine ⟨next, hnext, ?_⟩
    by_cases hstop : next.key ≥ target
    · rwa [if_pos hstop] at h ⊢
    · rw [if_neg hstop] at h ⊢
      exact ih hle' h

theorem seek_mono {fuel fuel' : ℕ} (hle : fuel ≤ fuel') {it' : BlockIter}
    (h : it.seek fuel target = .ok it') : it.seek fuel' target = .ok it' := by
  simp only [seek, bind_eq_ok] at h ⊢
  obtain ⟨ends, hends, current, hcurrent, h⟩ := h
  exact ⟨ends, searchRestarts_mono hle hends, current, hcurrent, scan_mono hle h⟩

/-- `Seek` has one outcome. -/
theorem SeeksTo.key_eq {t fuel : ℕ} {e : Entry} {it' : BlockIter}
    (h : it.SeeksTo img target t e) (hseek : it.seek fuel target = .ok it') :
    it'.key = e.key := by
  obtain ⟨fuel₀, h⟩ := h
  obtain ⟨it'', hseek', hkey, -⟩ := h (max fuel₀ fuel) (le_max_left _ _)
  obtain rfl : it' = it'' :=
    Except.ok.inj ((seek_mono (le_max_right fuel₀ fuel) hseek).symm.trans hseek')
  exact hkey

/-! ### Two seeks -/

theorem sorted_twoRestarts : twoRestarts.Sorted := by
  unfold Image.Sorted
  decide

theorem sorted_oneShared : oneShared.Sorted := by
  unfold Image.Sorted
  decide

theorem firstNotBefore_one {e e' : Entry} {restarts : List ℕ} (hlt : e.key < e'.key) :
    (⟨[e, e'], restarts⟩ : Image).FirstNotBefore e'.key 1 e' where
  entry := rfl
  le := le_rfl
  before := by
    intro i e₀ hi he₀
    obtain rfl : i = 0 := by omega
    obtain rfl : e = e₀ := Option.some.inj he₀
    exact hlt

theorem unsharedUpTo_twoRestarts : twoRestarts.UnsharedUpTo [98] 1 := by
  refine ⟨0, 0, rfl, ⟨0, _, rfl, rfl, by decide⟩, ?_, fun i e _ _ he => ?_⟩
  · rintro ⟨r, e, hr, he, hlt⟩
    obtain rfl : 1 = r := Option.some.inj hr
    obtain rfl : _ = e := Option.some.inj he
    exact absurd hlt (by decide)
  · exact unshared_twoRestarts e (List.mem_of_getElem? he)

/-- Seeking `"b"` in the first block. -/
theorem seeksTo_twoRestarts :
    (lastOf twoRestarts ⟨0, [98], [121]⟩).SeeksTo twoRestarts [98] 1 ⟨0, [98], [121]⟩ :=
  seeksTo_of_unshared wellFormed_twoRestarts sorted_twoRestarts ⟨rfl, rfl, rfl⟩
    (firstNotBefore_one (by decide)) unsharedUpTo_twoRestarts

theorem not_seeksTo_of_key {t : ℕ} {e : Entry} {key : Bytes}
    (hkey : (it.seek 4 target).map (·.key) = .ok key) (hne : key ≠ e.key) :
    ¬ it.SeeksTo img target t e := by
  intro h
  rcases hseek : it.seek 4 target with fault | it'
  · rw [hseek] at hkey
    cases hkey
  · rw [hseek] at hkey
    exact hne ((Except.ok.inj hkey).symm.trans (h.key_eq hseek))

/-- A block, an iterator of it and a target that some key reaches, which `Seek` misses. -/
def Misses (it : BlockIter) (img : Image) (target : Bytes) (t : ℕ) (e : Entry) : Prop :=
  img.WellFormed ∧ img.Sorted ∧ it.Describes img ∧ img.FirstNotBefore target t e ∧
    ¬ it.SeeksTo img target t e

/-- **Where it is wrong.** Seeking the first key of the first block leaves the iterator where it
was, and seeking the second key of the second block makes up the key `"ay"`. -/
theorem misses_first_and_shared :
    (lastOf twoRestarts ⟨0, [98], [121]⟩).Misses twoRestarts [97] 0 ⟨0, [97], [120]⟩ ∧
    (lastOf oneShared ⟨1, [97, 99], [121]⟩).Misses oneShared [97, 99] 1
      ⟨1, [97, 99], [121]⟩ := by
  have hkeys : ((lastOf twoRestarts ⟨0, [98], [121]⟩).seek 4 [97]).map (·.key) = .ok [98] ∧
      ((lastOf oneShared ⟨1, [97, 99], [121]⟩).seek 4 [97, 99]).map (·.key) = .ok [97, 121] := by
    decide +kernel
  constructor
  · refine ⟨wellFormed_twoRestarts, sorted_twoRestarts, ⟨rfl, rfl, rfl⟩,
      ⟨rfl, le_rfl, fun i e hi => absurd hi (Nat.not_lt_zero i)⟩, ?_⟩
    exact not_seeksTo_of_key hkeys.1 (by decide)
  · refine ⟨wellFormed_oneShared, sorted_oneShared, ⟨rfl, rfl, rfl⟩,
      firstNotBefore_one (by decide), ?_⟩
    exact not_seeksTo_of_key hkeys.2 (by decide)

end BlockIter

end TinyLeveldb
