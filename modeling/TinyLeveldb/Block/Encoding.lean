import TinyLeveldb.Block.Next
import TinyLeveldb.Library.CommonPrefix

/-!
# What a block builder is meant to write

`format` is the block that a list of pairs should become: an image with a restart every twenty
entries, in which every other entry shares as much as it can with the key before it. It is
well-formed (`format_wellFormed`), so what holds of iterators over images holds of those over it.

The builder keeps its counter, its restarts and its last key in step with the format
(`Built.inStep`), and what it appends for an entry is the format's entry with each of the three
header words cut at its first zero byte (`buffer_add`). The first word of the first entry is zero,
so a block is never what it is meant to be (`not_conforms`).
-/

namespace TinyLeveldb

open Library

namespace BlockBuilder

/-! ### The format -/

/-- Entry `j` of a block, behind the given key. -/
def formatEntry (j : ℕ) (lastKey : Bytes) (pair : Bytes × Bytes) : Entry where
  shared := if j % 20 = 0 then 0 else commonPrefixLength lastKey pair.1
  key := pair.1
  value := pair.2

/-- The entries of a block from entry `j` on, behind the given key. -/
def formatEntries : ℕ → Bytes → List (Bytes × Bytes) → List Entry
  | _, _, [] => []
  | j, lastKey, pair :: pairs =>
      formatEntry j lastKey pair :: formatEntries (j + 1) pair.1 pairs

/-- The block of a list of pairs. -/
def format (pairs : List (Bytes × Bytes)) : Image where
  entries := formatEntries 0 [] pairs
  restarts := (List.range pairs.length).filter fun j => j % 20 = 0

/-- The last key of a list of pairs, or the one before them. -/
def lastKeyOf (lastKey : Bytes) (pairs : List (Bytes × Bytes)) : Bytes :=
  (pairs.map Prod.fst).getLastD lastKey

variable {pairs : List (Bytes × Bytes)} {pair : Bytes × Bytes}

theorem length_formatEntries (j : ℕ) (lastKey : Bytes) (pairs : List (Bytes × Bytes)) :
    (formatEntries j lastKey pairs).length = pairs.length := by
  induction pairs generalizing j lastKey with
  | nil => rfl
  | cons pair pairs ih => rw [formatEntries, List.length_cons, ih, List.length_cons]

theorem formatEntries_concat (j : ℕ) (lastKey : Bytes) (pairs : List (Bytes × Bytes))
    (pair : Bytes × Bytes) : formatEntries j lastKey (pairs ++ [pair]) =
      formatEntries j lastKey pairs ++
        [formatEntry (j + pairs.length) (lastKeyOf lastKey pairs) pair] := by
  induction pairs generalizing j lastKey with
  | nil => rfl
  | cons p pairs ih =>
    rw [List.cons_append, formatEntries, ih, formatEntries, List.cons_append, List.length_cons,
      lastKeyOf, lastKeyOf, List.map_cons, List.getLastD_cons, Nat.add_right_comm, Nat.add_assoc]

theorem map_key_formatEntries (j : ℕ) (lastKey : Bytes) (pairs : List (Bytes × Bytes)) :
    (formatEntries j lastKey pairs).map Entry.key = pairs.map Prod.fst := by
  induction pairs generalizing j lastKey with
  | nil => rfl
  | cons pair pairs ih =>
    rw [formatEntries, List.map_cons, ih, List.map_cons]
    rfl

theorem isChain_formatEntries (j : ℕ) (lastKey : Bytes) (pairs : List (Bytes × Bytes)) :
    (formatEntries j lastKey pairs).IsChain Entry.Precedes := by
  induction pairs generalizing j lastKey with
  | nil => exact .nil
  | cons p pairs ih =>
    cases pairs with
    | nil => exact .singleton _
    | cons q pairs =>
      rw [formatEntries, formatEntries]
      refine List.isChain_cons_cons.mpr ⟨?_, ih (j + 1) p.1⟩
      simp only [Entry.Precedes, formatEntry]
      split_ifs
      · simp
      · exact ⟨commonPrefixLength_le_left _ _, (take_commonPrefixLength _ _).symm⟩

theorem shared_formatEntries {j i : ℕ} {lastKey : Bytes} {e : Entry}
    (h : (formatEntries j lastKey pairs)[i]? = some e) (hi : (j + i) % 20 = 0) : e.shared = 0 := by
  induction pairs generalizing j i lastKey with
  | nil => simp [formatEntries] at h
  | cons p pairs ih =>
    rw [formatEntries] at h
    cases i with
    | zero =>
      obtain rfl := Option.some.inj h
      exact if_pos hi
    | succ i => exact ih h (by rwa [Nat.add_assoc, Nat.add_comm 1])

theorem format_restarts_concat (pairs : List (Bytes × Bytes)) (pair : Bytes × Bytes) :
    (format (pairs ++ [pair])).restarts =
      (format pairs).restarts ++ if pairs.length % 20 = 0 then [pairs.length] else [] := by
  simp only [format, List.length_append, List.length_singleton, List.range_succ,
    List.filter_append, List.filter_singleton, Bool.cond_decide]

/-- There is a group for every twenty entries. -/
theorem length_restarts_format (pairs : List (Bytes × Bytes)) :
    (format pairs).restarts.length = (pairs.length + 19) / 20 := by
  induction pairs using List.reverseRecOn with
  | nil => rfl
  | append_singleton pairs pair ih =>
    rw [format_restarts_concat, List.length_append, ih, List.length_append, List.length_singleton]
    split_ifs with hmod
    · rw [List.length_singleton]
      omega
    · rw [List.length_nil]
      omega

/-- The format is well-formed. -/
theorem format_wellFormed (h : (format pairs).bytes.length < 2 ^ 32) :
    (format pairs).WellFormed where
  length_lt := h
  precedes := isChain_formatEntries 0 [] pairs
  first hne := by
    cases pairs with
    | nil => exact absurd rfl hne
    | cons p pairs =>
      rw [format, List.length_cons, List.range_succ_eq_map, List.filter_cons]
      rfl
  restarts_lt r hr := by
    have hlt := List.mem_range.mp (List.mem_filter.mp hr).1
    rwa [format, length_formatEntries]
  restarts_sorted := List.pairwise_lt_range.filter _
  shared_restart r hr e he := by
    have hmod := (List.mem_filter.mp hr).2
    exact shared_formatEntries he (by simpa using hmod)

/-- The keys of a block below `2 ^ 32` bytes are below `2 ^ 32` bytes. -/
theorem length_key_lt (h : (format pairs).bytes.length < 2 ^ 32) (hpair : pair ∈ pairs) :
    pair.1.length < 2 ^ 32 := by
  have hkey : pair.1 ∈ (format pairs).entries.map Entry.key := by
    rw [format, map_key_formatEntries]
    exact List.mem_map_of_mem hpair
  obtain ⟨e, he, hkey⟩ := List.mem_map.mp hkey
  obtain ⟨i, hi⟩ := List.mem_iff_getElem?.mp he
  have hle := ((format_wellFormed h).length_le hi).2
  have hoffset := (format pairs).offset_le (i + 1)
  rw [Image.length_bytes] at h
  rw [← hkey]
  omega

/-- What `Block::restartNum` decodes from the format of a block. -/
theorem restartNum_format (h : (format pairs).bytes.length < 2 ^ 32) :
    (decodeFixed32 ((format pairs).bytes.drop ((format pairs).bytes.length - 4))).toNat =
      (pairs.length + 19) / 20 := by
  have hlength := (format pairs).length_bytes
  have hdrop : (format pairs).bytes.drop ((format pairs).bytes.length - 4) =
      encodeFixed32 (UInt32.ofNat (format pairs).restarts.length) := by
    rw [Image.bytes, ← List.append_assoc, List.length_append, length_encodeFixed32,
      Nat.add_sub_cancel, List.drop_left]
  rw [hdrop, ← List.append_nil (encodeFixed32 _), decodeFixed32_encodeFixed32_append,
    UInt32.toNat_ofNat', Nat.mod_eq_of_lt (by omega), length_restarts_format]

/-! ### In step with the format -/

/-- The bytes that `buffer.append(buf)` adds for a word. -/
def cutWord (stack : Bytes) (word : ℕ) : Bytes :=
  cString (encodeFixed32 (UInt32.ofNat word) ++ stack)

/-- An entry with its header words cut. -/
def cutEntry (stack : ℕ → Bytes) (e : Entry) : Bytes :=
  cutWord (stack 0) e.shared ++ cutWord (stack 1) (e.key.length - e.shared) ++
    cutWord (stack 2) e.value.length ++ e.key.drop e.shared ++ e.value

/-- The counter, the restarts and the last key of a builder to which the pairs were added. -/
structure InStep (pairs : List (Bytes × Bytes)) (b : BlockBuilder) : Prop where
  lastKey_eq : b.lastKey = lastKeyOf [] pairs
  counter_eq : b.counter = (pairs.length % 20 : ℕ)
  length_restarts : b.restarts.length = (format pairs).restarts.length
  head_restarts : pairs ≠ [] → b.restarts.head? = some 0
  buffer_eq : pairs = [] → b.buffer = []

theorem inStep_reset : InStep [] reset where
  lastKey_eq := rfl
  counter_eq := rfl
  length_restarts := rfl
  head_restarts h := absurd rfl h
  buffer_eq _ := rfl

variable {b : BlockBuilder}

theorem counter_add (stack : ℕ → Bytes) (b : BlockBuilder) (key value : Bytes) :
    (b.add stack key value).counter =
      if b.counter + 1 ≥ groupSize then 0 else b.counter + 1 := by
  by_cases hzero : b.counter = 0 <;> simp [add, hzero, addRestart, addEntry]

theorem restarts_add (stack : ℕ → Bytes) (b : BlockBuilder) (key value : Bytes) :
    (b.add stack key value).restarts =
      if b.counter = 0 then b.restarts ++ [UInt32.ofNat b.buffer.length] else b.restarts := by
  by_cases hzero : b.counter = 0 <;> simp [add, hzero, addRestart, addEntry]

/-- **Step lemma.** `Add` keeps the builder in step. -/
theorem InStep.add (h : InStep pairs b) (stack : ℕ → Bytes) (key value : Bytes) :
    InStep (pairs ++ [(key, value)]) (b.add stack key value) := by
  have hcounter : b.counter = 0 ↔ pairs.length % 20 = 0 := by
    rw [h.counter_eq]
    omega
  refine ⟨?_, ?_, ?_, fun _ => ?_, fun hnil => absurd hnil (by simp)⟩
  · simp [BlockBuilder.add, lastKeyOf]
  · rw [counter_add, h.counter_eq, groupSize, List.length_append, List.length_singleton]
    split_ifs <;> omega
  · rw [format_restarts_concat, restarts_add, List.length_append, ← h.length_restarts]
    by_cases hzero : b.counter = 0
    · rw [if_pos hzero, if_pos (hcounter.mp hzero)]
      exact List.length_append
    · rw [if_neg hzero, if_neg (mt hcounter.mpr hzero)]
      rfl
  · rw [restarts_add]
    rcases List.eq_nil_or_concat pairs with hnil | ⟨ps, p, hconcat⟩
    · -- the first restart, at the start of the buffer
      have hzero : b.counter = 0 := by simp [h.counter_eq, hnil]
      have hrestarts : b.restarts = [] := by
        rw [← List.length_eq_zero_iff, h.length_restarts, hnil]
        rfl
      rw [if_pos hzero, hrestarts, h.buffer_eq hnil]
      rfl
    · have hhead := h.head_restarts (by simp [hconcat])
      split_ifs
      · rw [List.head?_append, hhead]
        rfl
      · exact hhead

theorem Built.inStep (h : Built reset pairs b) : InStep pairs b := by
  induction h with
  | start => exact inStep_reset
  | add stack key value _ ih => exact ih.add stack key value

theorem sharedLength_eq (n : ℕ) (key lastKey : Bytes) :
    sharedLength n key lastKey = min n (commonPrefixLength lastKey key) := by
  induction n generalizing key lastKey with
  | zero => simp [sharedLength]
  | succ n ih =>
    cases key with
    | nil => cases lastKey <;> simp [sharedLength, commonPrefixLength]
    | cons k key =>
      cases lastKey with
      | nil => simp [sharedLength, commonPrefixLength]
      | cons l lastKey =>
        simp only [sharedLength, commonPrefixLength, ne_eq, ite_not, eq_comm (a := k)]
        split_ifs
        · rw [ih, Nat.succ_min_succ]
        · simp

/-- The loop of `Add` finds the longest common prefix. -/
theorem sharedLength_minLength (lastKey : Bytes) {key : Bytes} (hkey : key.length < 2 ^ 32) :
    sharedLength (min lastKey.length key.length % 2 ^ 32) key lastKey =
      commonPrefixLength lastKey key := by
  have hleft := commonPrefixLength_le_left lastKey key
  have hright := commonPrefixLength_le_right lastKey key
  rw [sharedLength_eq, Nat.mod_eq_of_lt (by omega)]
  omega

/-- **What `Add` appends**: the entry of the format, with its header words cut. -/
theorem buffer_add (h : InStep pairs b) (stack : ℕ → Bytes) {key : Bytes}
    (hkey : key.length < 2 ^ 32) (value : Bytes) : (b.add stack key value).buffer = b.buffer ++
      cutEntry stack (formatEntry pairs.length (lastKeyOf [] pairs) (key, value)) := by
  have hcounter : b.counter = 0 ↔ pairs.length % 20 = 0 := by
    rw [h.counter_eq]
    omega
  have hcode : b.addedCode key =
      ((formatEntry pairs.length (lastKeyOf [] pairs) (key, value)).shared,
        key.drop (formatEntry pairs.length (lastKeyOf [] pairs) (key, value)).shared) := by
    by_cases hzero : b.counter = 0
    · rw [addedCode, if_pos hzero, formatEntry, if_pos (hcounter.mp hzero), List.drop_zero]
    · have hshared := sharedLength_minLength (lastKeyOf [] pairs) hkey
      simp only [addedCode, if_neg hzero, formatEntry, if_neg (mt hcounter.mpr hzero),
        h.lastKey_eq, hshared]
  rw [buffer_add_eq, hcode]
  simp only [appendEntry, appendWord, cutEntry, cutWord, List.append_assoc]
  rfl

/-! ### No block conforms -/

theorem length_cutWord_le (word : ℕ) : (cutWord [] word).length ≤ 4 := by
  rw [cutWord, List.append_nil, ← length_encodeFixed32 (UInt32.ofNat word)]
  exact (List.takeWhile_prefix _).length_le

/-- Where a NUL follows each header word in memory, an entry is at most as long as its format. -/
theorem length_cutEntry_le (e : Entry) : (cutEntry (fun _ => []) e).length ≤ e.bytes.length := by
  have hshared := length_cutWord_le e.shared
  have hnonShared := length_cutWord_le (e.key.length - e.shared)
  have hvalueSize := length_cutWord_le e.value.length
  simp only [cutEntry, List.length_append, List.length_drop, Entry.length_bytes]
  omega

theorem length_cutRestarts_le (restarts : List (UInt32 × ℕ)) :
    (restarts.flatMap fun w => cString (encodeFixed32 w.1 ++ [])).length ≤ 4 * restarts.length := by
  induction restarts with
  | nil => rfl
  | cons w restarts ih =>
    have hword : (cString (encodeFixed32 w.1 ++ [])).length ≤ 4 := by
      rw [List.append_nil]
      exact (List.takeWhile_prefix _).length_le
    rw [List.flatMap_cons, List.length_append, List.length_cons]
    omega

/-- **`Finish` falls short of the estimate** where a NUL follows each word in memory: the first
restart is zero, and so is the number of restarts of a block that has none. -/
theorem length_finishBuffer_lt (h : InStep pairs b) :
    (b.finishBuffer fun _ => []).buffer.length < b.currentSizeEstimate := by
  rw [finishBuffer, currentSizeEstimate]
  simp only [appendRestarts_eq, appendWord, List.length_append]
  have hcount := length_cutWord_le b.restarts.length
  rw [cutWord] at hcount
  by_cases hnil : pairs = []
  · have hrestarts : b.restarts = [] := by
      rw [← List.length_eq_zero_iff, h.length_restarts, hnil]
      rfl
    simp [hrestarts, cString, encodeFixed32]
  · obtain ⟨restarts, hrestarts⟩ : ∃ restarts, b.restarts = 0 :: restarts :=
      List.head?_eq_some_iff.mp (h.head_restarts hnil)
    have htail := length_cutRestarts_le (restarts.zipIdx (0 + 1))
    rw [List.length_zipIdx] at htail
    rw [hrestarts] at hcount ⊢
    rw [List.zipIdx_cons, List.flatMap_cons, cString_of_zero rfl, List.nil_append]
    simp only [List.length_cons] at hcount ⊢
    omega

/-- A builder to which the pairs were added, a NUL behind each word, is at most as long as the
entries of the format. -/
theorem exists_built_length_le (hkeys : ∀ p ∈ pairs, p.1.length < 2 ^ 32) :
    ∃ b, Built reset pairs b ∧ b.buffer.length ≤ (format pairs).entryBytes.length := by
  induction pairs using List.reverseRecOn with
  | nil => exact ⟨reset, .start, le_rfl⟩
  | append_singleton pairs pair ih =>
    obtain ⟨b, hbuilt, hle⟩ := ih fun p hp => hkeys p (List.mem_append_left _ hp)
    obtain ⟨key, value⟩ := pair
    refine ⟨_, hbuilt.add (fun _ => []) key value, ?_⟩
    have hcut := length_cutEntry_le (formatEntry pairs.length (lastKeyOf [] pairs) (key, value))
    rw [buffer_add hbuilt.inStep _ (hkeys (key, value) (by simp)), List.length_append]
    simp only [Image.entryBytes, format, formatEntries_concat, Nat.zero_add, List.flatMap_append,
      List.length_append, List.flatMap_singleton] at hle ⊢
    omega

/-- **What is claimed of a list of pairs**: whatever lies in memory behind the header words, the
block of the pairs is their format, and its last four bytes decode to the number of groups. -/
def Conforms (pairs : List (Bytes × Bytes)) : Prop :=
  ∀ b stack, Built reset pairs b →
    let block := (b.finishBuffer stack).buffer
    block = (format pairs).bytes ∧
      (decodeFixed32 (block.drop (block.length - 4))).toNat = (pairs.length + 19) / 20

/-- **A block never conforms to its format.** -/
theorem not_conforms (h : (format pairs).bytes.length < 2 ^ 32) : ¬ Conforms pairs := by
  intro hconforms
  obtain ⟨b, hbuilt, hle⟩ := exists_built_length_le fun p hp => length_key_lt h hp
  have hlt := length_finishBuffer_lt hbuilt.inStep
  rw [(hconforms b (fun _ => []) hbuilt).1, Image.length_bytes, currentSizeEstimate,
    hbuilt.inStep.length_restarts] at hlt
  omega

theorem not_conforms_twoPairs :
    (format [([97], [98]), ([97, 99], [])]).bytes.length < 2 ^ 32 ∧
      ¬ Conforms [([97], [98]), ([97, 99], [])] :=
  ⟨by decide, not_conforms (by decide)⟩

/-- The header of the one entry takes two bytes instead of twelve, the restart array none instead
of four, and the number of restarts one instead of four. -/
theorem not_conforms_onePair : (format [([97], [98])]).bytes.length = 22 ∧
    ∃ b, Built reset [([97], [98])] b ∧ (b.finishBuffer fun _ => []).buffer = [1, 1, 97, 98, 1] ∧
      ¬ Conforms [([97], [98])] := by
  have hbuilt : Built reset [([97], [98])] (reset.add (fun _ => []) [97] [98]) :=
    Built.start.add _ _ _
  refine ⟨by decide, _, hbuilt, by decide, fun hconforms => ?_⟩
  exact absurd (hconforms _ (fun _ => []) hbuilt).1 (by decide)

end BlockBuilder

end TinyLeveldb
