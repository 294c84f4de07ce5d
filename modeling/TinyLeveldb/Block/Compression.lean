import TinyLeveldb.Block.Encoding
import TinyLeveldb.Library.FrontCoding

/-!
# Prefix compression

What `BlockBuilder::Add` computes for a key, before the header words are cut: the number of bytes
to share with the last key, and the rest of the key. Along the additions to a builder that was
reset this is the front coding of the keys, in which every entry whose index is a multiple of
`groupSize` is a start (`addedCodes_reset`): the counter says how far the group has come, whatever
the values and the memory behind the header words are. So the codes rebuild the keys, from the
first entry of any group on, and no code could share more (`addedCodes_losslessMaximal`). The
entries of the format have the same codes (`map_code_formatEntries`).
-/

namespace TinyLeveldb

open Library

/-- The arguments of one `Add`, and what its `append`s find behind `buf`. -/
structure Addition where
  stack : ℕ → Bytes
  key : Bytes
  value : Bytes

/-- The first entry of a group. -/
def GroupStart (i : ℕ) : Prop := (i : ℤ) % groupSize = 0

instance : DecidablePred GroupStart := fun _ => inferInstanceAs (Decidable (_ = _))

namespace BlockBuilder

/-- What `Add` computes for each key in turn. -/
def addedCodes : BlockBuilder → List Addition → List (ℕ × Bytes)
  | _, [] => []
  | b, a :: additions => b.addedCode a.key :: (b.add a.stack a.key a.value).addedCodes additions

/-- In step with its counter, `Add` computes the code of the key behind the last one. -/
theorem addedCode_eq {b : BlockBuilder} {j : ℕ} (hcounter : b.counter = (j : ℤ) % groupSize)
    {key : Bytes} (hkey : key.length < 2 ^ 32) :
    b.addedCode key = codeWord (GroupStart j) b.lastKey key := by
  by_cases hstart : GroupStart j
  · have hzero : b.counter = 0 := hcounter.trans hstart
    rw [addedCode, if_pos hzero, codeWord, if_pos hstart]
  · have hne : b.counter ≠ 0 := fun hzero => hstart (hcounter.symm.trans hzero)
    simp only [addedCode, if_neg hne, codeWord, if_neg hstart, sharedLength_minLength _ hkey]

theorem lastKey_add (stack : ℕ → Bytes) (b : BlockBuilder) (key value : Bytes) :
    (b.add stack key value).lastKey = key := by
  simp [add]

/-- **Step lemma.** `Add` moves the counter on to the next index. -/
theorem counter_add_eq {b : BlockBuilder} {j : ℕ} (hcounter : b.counter = (j : ℤ) % groupSize)
    (stack : ℕ → Bytes) (key value : Bytes) :
    (b.add stack key value).counter = ((j + 1 : ℕ) : ℤ) % groupSize := by
  rw [counter_add, hcounter, groupSize]
  split_ifs <;> omega

/-- What `Add` computes in turn is the front coding of the keys. -/
theorem addedCodes_eq {b : BlockBuilder} {j : ℕ} (hcounter : b.counter = (j : ℤ) % groupSize)
    {additions : List Addition} (hkeys : ∀ a ∈ additions, a.key.length < 2 ^ 32) :
    b.addedCodes additions = frontCode GroupStart j b.lastKey (additions.map Addition.key) := by
  induction additions generalizing b j with
  | nil => rfl
  | cons a additions ih =>
    have hkey := hkeys a List.mem_cons_self
    have hrest : ∀ a ∈ additions, a.key.length < 2 ^ 32 := fun a ha =>
      hkeys a (List.mem_cons_of_mem _ ha)
    rw [addedCodes, List.map_cons, frontCode, addedCode_eq hcounter hkey,
      ih (counter_add_eq hcounter a.stack a.key a.value) hrest, lastKey_add]

theorem addedCodes_reset {additions : List Addition}
    (hkeys : ∀ a ∈ additions, a.key.length < 2 ^ 32) :
    reset.addedCodes additions = frontCode GroupStart 0 [] (additions.map Addition.key) :=
  addedCodes_eq (b := reset) (j := 0) rfl hkeys

/-- The format of a block is the front coding of its keys as well. -/
theorem map_code_formatEntries (j : ℕ) (lastKey : Bytes) (pairs : List (Bytes × Bytes)) :
    (formatEntries j lastKey pairs).map (fun e => (e.shared, e.key.drop e.shared)) =
      frontCode GroupStart j lastKey (pairs.map Prod.fst) := by
  induction pairs generalizing j lastKey with
  | nil => rfl
  | cons pair pairs ih =>
    have hstart : GroupStart j ↔ j % 20 = 0 := by
      rw [GroupStart, groupSize]
      omega
    have hcode : ((formatEntry j lastKey pair).shared,
        (formatEntry j lastKey pair).key.drop (formatEntry j lastKey pair).shared) =
          codeWord (GroupStart j) lastKey pair.1 := by
      by_cases hj : GroupStart j
      · rw [formatEntry, if_pos (hstart.mp hj), codeWord, if_pos hj, List.drop_zero]
      · rw [formatEntry, if_neg (mt hstart.mpr hj), codeWord, if_neg hj]
    rw [formatEntries, List.map_cons, hcode, ih, List.map_cons, frontCode]

/-- The codes rebuild the keys, and from any group on behind any key. Each one shares a prefix of
its key with the key before it: nothing at the start of a group, and elsewhere the longest there
is. -/
structure LosslessMaximal (keys : List Bytes) (codes : List (ℕ × Bytes)) : Prop where
  rebuilds : rebuild [] codes = keys
  rebuilds_group : ∀ m, GroupStart m → ∀ lastKey, rebuild lastKey (codes.drop m) = keys.drop m
  code : ∀ i key lastKey, keys[i]? = some key → ([] :: keys)[i]? = some lastKey →
    ∃ shared, codes[i]? = some (shared, key.drop shared) ∧
      shared ≤ key.length ∧ shared ≤ lastKey.length ∧ (GroupStart i → shared = 0) ∧
      (¬ GroupStart i → ∀ n, Shares lastKey key n → n ≤ shared)

theorem losslessMaximal_frontCode (keys : List Bytes) :
    LosslessMaximal keys (frontCode GroupStart 0 [] keys) where
  rebuilds := rebuild_frontCode 0 [] keys
  rebuilds_group m hm lastKey := rebuild_drop_frontCode (by rwa [Nat.zero_add]) [] lastKey keys
  code i key lastKey hkey hlast := by
    have hcode : (frontCode GroupStart 0 [] keys)[i]? = _ := getElem?_frontCode hkey hlast
    obtain ⟨hshares, hsuffix⟩ := shares_codeWord (GroupStart (0 + i)) lastKey key
    have hle := shares_iff_le.mp hshares
    refine ⟨_, hcode.trans (congrArg some (Prod.ext rfl hsuffix)),
      hle.trans (commonPrefixLength_le_right _ _), hle.trans (commonPrefixLength_le_left _ _),
      fun hstart => ?_, fun hstart n hn => ?_⟩
    · rw [codeWord, if_pos (by rwa [Nat.zero_add])]
    · rw [codeWord, if_neg (by rwa [Nat.zero_add])]
      exact shares_iff_le.mp hn

/-- **Prefix compression is lossless and maximal**, for any keys added to a builder that was
reset. -/
theorem addedCodes_losslessMaximal (additions : List Addition)
    (hkeys : ∀ a ∈ additions, a.key.length < 2 ^ 31) :
    LosslessMaximal (additions.map Addition.key) (reset.addedCodes additions) := by
  rw [addedCodes_reset fun a ha => (hkeys a ha).trans (by decide)]
  exact losslessMaximal_frontCode _

/-- A key, a longer one, the same again, and one that is a prefix of it. -/
def fourKeys : List Addition :=
  [[97, 98], [97, 98, 99], [97, 98, 99], [97]].map fun key => ⟨fun _ => [], key, [120]⟩

theorem addedCodes_losslessMaximal_fourKeys :
    LosslessMaximal [[97, 98], [97, 98, 99], [97, 98, 99], [97]] (reset.addedCodes fourKeys) :=
  addedCodes_losslessMaximal fourKeys (by simp [fourKeys])

example : reset.addedCodes fourKeys = [(0, [97, 98]), (2, [99]), (3, []), (1, [])] := by
  decide

end BlockBuilder

end TinyLeveldb
