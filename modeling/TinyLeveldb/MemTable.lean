import TinyLeveldb.SkipList.Structure

/-!
# The memtable

`MemTable::Add` packs key, tag and value into one buffer and inserts the buffer into a skip
list ordered by the key alone; `MemTable::Get` searches that list. The buffers come from an
arena that hands out disjoint memory, so an entry is kept here as the bytes of its buffer.
`MemTable`'s constructor is declared but not defined in the source: any `maxLevel` is allowed.

`Get` never returns `OK` from a completed call, because `search` decodes the entry at a null
pointer instead of the one it found. It completes exactly when the query's C string is above
every key of the list, and then answers `IOError`. `readsLatest_iff` says when this is what a
client that reads its latest write should see.
-/

namespace TinyLeveldb

open Library

/-- `enum ValueType`. -/
inductive ValueType
  | kTypeDeletion
  | kTypeValue
  deriving DecidableEq, Repr

/-- The value of the enumerator, as the `int` it is promoted to. -/
def ValueType.code : ValueType → BitVec 32
  | .kTypeDeletion => 0
  | .kTypeValue => 1

/-- `class MemTable`: its table. -/
structure MemTable where
  table : SkipList Bytes

namespace MemTable

/-- One call of `Add`; `coins` are the outcomes of the random tests of `randomLevel`, should
the key be inserted. -/
structure AddCall where
  seq : BitVec 32
  type : ValueType
  key : Slice
  value : Slice
  coins : List Bool

/-- A table over a fresh skip list. -/
def new (spare maxLevel : ℕ) (hpos : 1 ≤ maxLevel) : MemTable where
  table := SkipList.new spare maxLevel hpos []

/-- The buffer `Add` builds: key size, key, tag, value size, value. The tag is an `int` before
it is widened to 64 bits. -/
def encodeEntry (seq : BitVec 32) (type : ValueType) (key value : Slice) : Bytes :=
  let tag : BitVec 32 := (seq <<< 8) ||| type.code
  encodeFixed32 (UInt32.ofNat key.size) ++ (key.data ++
    (encodeFixed64 (UInt64.ofBitVec (tag.signExtend 64)) ++
      (encodeFixed32 (UInt32.ofNat value.size) ++ value.data)))

/-- `Add`. -/
def add (spare : ℕ) (m : MemTable) (call : AddCall) : Except Fault MemTable := do
  let buf := encodeEntry call.seq call.type call.key call.value
  let table ← m.table.insert SkipList.decodeKey spare call.coins buf
  .ok { m with table := table }

/-- `Get`: the status, and what `value` holds afterwards. -/
def get (m : MemTable) (key : Slice) (value : Bytes) : Except Fault (Status × Bytes) := do
  match ← m.table.search SkipList.decodeKey key.cString with
  | some value => .ok (.ok, value)
  | none => .ok (.ioError, value)

/-- `DecodeKey` of the buffer `Add` builds is the key. -/
@[simp]
theorem decodeKey_encodeEntry (seq : BitVec 32) (type : ValueType) (key value : Slice) :
    SkipList.decodeKey (encodeEntry seq type key value) = key.data := by
  have hsize : (UInt32.ofNat key.size).toNat = key.data.length := by
    have := key.size_lt
    rw [UInt32.toNat_ofNat', Nat.mod_eq_of_lt (by simp only [Slice.size]; omega)]
    rfl
  simp only [SkipList.decodeKey, encodeEntry, decodeFixed32_encodeFixed32_append, hsize]
  rw [List.drop_left' (length_encodeFixed32 _), List.take_left]

/-! ### What a client expects -/

/-- `a` is the call with the largest sequence number for key `k`. -/
def IsLatest (adds : List AddCall) (k : Bytes) (a : AddCall) : Prop :=
  a ∈ adds ∧ a.key.data = k ∧ ∀ b ∈ adds, b.key.data = k → b.seq.toInt ≤ a.seq.toInt

/-- Read your latest write: after the calls `adds` on a fresh table, `Get` returns `OK` with
the value of the latest `Add` for the key when that is a `kTypeValue`, and does not return
`OK` when there is none or the latest is a `kTypeDeletion`. -/
def ReadsLatest (spare maxLevel : ℕ) (hpos : 1 ≤ maxLevel) (adds : List AddCall) (key : Slice)
    (old : Bytes) : Prop :=
  ∃ m status value, runAll (add spare) (new spare maxLevel hpos) adds = .ok m ∧
    m.get key old = .ok (status, value) ∧
    (∀ a, IsLatest adds key.data a → a.type = .kTypeValue →
      status = .ok ∧ value = a.value.data) ∧
    ((∀ a, IsLatest adds key.data a → a.type = .kTypeDeletion) → status ≠ .ok)

/-- The keys of the calls. -/
def keys (adds : List AddCall) : List Bytes := adds.map fun a => a.key.data

/-- Every call whose key is above all keys before it drew a level that leaves the list's arrays
a slot for the level above it. -/
def LevelsFit (spare maxLevel : ℕ) (adds : List AddCall) : Prop :=
  AllSteps (fun pre a => (∀ k ∈ keys pre, k < a.key.data) →
    SkipList.randomLevel maxLevel a.coins < maxLevel + spare) adds

theorem levelsFit_concat {spare maxLevel : ℕ} {adds : List AddCall} {a : AddCall} :
    LevelsFit spare maxLevel (adds ++ [a]) ↔ LevelsFit spare maxLevel adds ∧
      ((∀ k ∈ keys adds, k < a.key.data) →
        SkipList.randomLevel maxLevel a.coins < maxLevel + spare) :=
  allSteps_concat

/-! ### Runs of `Add` -/

/-- The call on the table that an `Add` makes. -/
def callOf (a : AddCall) : SkipList.Call Bytes :=
  .insert a.coins (encodeEntry a.seq a.type a.key a.value)

/-- The keys the calls on the table insert. -/
private theorem insertedKeys_callOf (adds : List AddCall) :
    (SkipList.insertedKeys (adds.map callOf)).map SkipList.decodeKey = keys adds := by
  induction adds with
  | nil => rfl
  | cons a adds ih =>
    rw [keys, List.map_cons, List.map_cons, ← keys, ← ih, ← decodeKey_encodeEntry a.seq a.type]
    rfl

/-- The run invariant: that of the table, and its level has a slot as long as the levels drawn
fit. -/
private structure AddInv (spare maxLevel : ℕ) (adds : List AddCall) (m : MemTable)
    (ts : List (SkipList.Tower Bytes)) : Prop where
  run : SkipList.RunInv SkipList.decodeKey spare (adds.map callOf) m.table ts
  maxLevel_eq : m.table.maxLevel = maxLevel
  level_lt_iff : m.table.level < maxLevel + spare ↔ LevelsFit spare maxLevel adds

private theorem AddInv.bound_iff {spare maxLevel : ℕ} {adds : List AddCall} {m : MemTable}
    {ts : List (SkipList.Tower Bytes)} (h : AddInv spare maxLevel adds m ts) :
    m.table.level < m.table.maxLevel + spare ↔ LevelsFit spare maxLevel adds := by
  rw [h.maxLevel_eq, h.level_lt_iff]

/-- **Step lemma.** `Add` completes when the key is decided by the keys added before and the
levels drawn so far fit. -/
private theorem AddInv.add_ok {spare maxLevel : ℕ} {pre : List AddCall} {m : MemTable}
    {ts : List (SkipList.Tower Bytes)} (h : AddInv spare maxLevel pre m ts) {a : AddCall}
    (hdec : Decided (MemTable.keys pre) a.key.data) (hfit : LevelsFit spare maxLevel pre) :
    ∃ m', add spare m a = .ok m' ∧ ∃ ts', AddInv spare maxLevel (pre ++ [a]) m' ts' := by
  have hdec' : Decided ((SkipList.insertedKeys (pre.map callOf)).map SkipList.decodeKey)
      (SkipList.decodeKey (callOf a).key) := by
    rwa [insertedKeys_callOf, callOf, SkipList.Call.key_insert, decodeKey_encodeEntry]
  obtain ⟨t', ht', ⟨ts', hrun⟩, hmax, hlevel⟩ := h.run.exec_ok (h.bound_iff.mpr hfit) hdec'
  have hexec : m.table.insert SkipList.decodeKey spare a.coins
      (encodeEntry a.seq a.type a.key a.value) = .ok t' := ht'
  refine ⟨{ table := t' }, by simp [add, hexec], ts', ?_, by rw [hmax, h.maxLevel_eq], ?_⟩
  · rwa [List.map_append]
  · rw [hlevel, insertedKeys_callOf, callOf, SkipList.Call.levelAfter, decodeKey_encodeEntry,
      levelsFit_concat, ← h.level_lt_iff, h.maxLevel_eq]
    split_ifs with hall
    · exact Nat.max_lt.trans (and_congr_right fun _ => ⟨fun hlt _ => hlt, fun hlt => hlt hall⟩)
    · exact ⟨fun hlt => ⟨hlt, fun hc => absurd hc hall⟩, fun hlt => hlt.1⟩

/-- Otherwise it faults. -/
private theorem AddInv.of_add_ok {spare maxLevel : ℕ} {pre : List AddCall} {m m' : MemTable}
    {ts : List (SkipList.Tower Bytes)} (h : AddInv spare maxLevel pre m ts) {a : AddCall}
    (hadd : add spare m a = .ok m') :
    Decided (MemTable.keys pre) a.key.data ∧ LevelsFit spare maxLevel pre := by
  obtain ⟨t, ht, -⟩ := bind_eq_ok.mp hadd
  have hexec : SkipList.exec SkipList.decodeKey spare m.table (callOf a) = .ok t := ht
  obtain ⟨hbound, hdec⟩ := h.run.of_exec_ok hexec
  rw [insertedKeys_callOf, callOf, SkipList.Call.key_insert, decodeKey_encodeEntry] at hdec
  exact ⟨hdec, h.bound_iff.mp hbound⟩

private theorem addInv_new {spare maxLevel : ℕ} (hpos : 1 ≤ maxLevel) :
    AddInv spare maxLevel [] (new spare maxLevel hpos) [] where
  run := SkipList.runInv_new ..
  maxLevel_eq := rfl
  level_lt_iff := by
    have : (new spare maxLevel hpos).table.level < maxLevel + spare :=
      lt_of_lt_of_le hpos (Nat.le_add_right _ _)
    simp [this, LevelsFit]

/-- **Runs of `Add`.** A run completes exactly when every key is decided by the keys before it
and the levels drawn before every call fit. -/
private theorem runAll_add_isOk_iff {spare maxLevel : ℕ} (hpos : 1 ≤ maxLevel)
    (adds : List AddCall) :
    (∃ m, runAll (add spare) (new spare maxLevel hpos) adds = .ok m) ↔
      AllSteps (fun pre a => Decided (keys pre) a.key.data ∧ LevelsFit spare maxLevel pre)
        adds := by
  refine runAll_isOk_iff (P := fun adds m => ∃ ts, AddInv spare maxLevel adds m ts)
    ?_ ?_ ⟨[], addInv_new hpos⟩
  · rintro pre a m ⟨ts, h⟩ ⟨hdec, hfit⟩
    exact h.add_ok hdec hfit
  · rintro pre a m m' ⟨ts, h⟩ hadd
    exact h.of_add_ok hadd

private theorem addInv_of_runAll {spare maxLevel : ℕ} (hpos : 1 ≤ maxLevel)
    {adds : List AddCall} {m : MemTable}
    (hrun : runAll (add spare) (new spare maxLevel hpos) adds = .ok m) :
    ∃ ts, AddInv spare maxLevel adds m ts := by
  refine runAll_inv (P := fun adds m => ∃ ts, AddInv spare maxLevel adds m ts) ?_
    ⟨[], addInv_new hpos⟩ hrun
  rintro pre a m m' ⟨ts, h⟩ hadd
  obtain ⟨hdec, hfit⟩ := h.of_add_ok hadd
  obtain ⟨m'', hm'', hinv⟩ := h.add_ok hdec hfit
  obtain rfl : m' = m'' := by simpa using hadd.symm.trans hm''
  exact hinv

/-- `Get` completes exactly when the list's level has a slot and every key of the list is below
the query's C string; it then returns `IOError` and leaves the value alone. -/
private theorem AddInv.get_eq_ok_iff {spare maxLevel : ℕ} {adds : List AddCall} {m : MemTable}
    {ts : List (SkipList.Tower Bytes)} (h : AddInv spare maxLevel adds m ts) {key : Slice}
    {old value : Bytes} {status : Status} :
    m.get key old = .ok (status, value) ↔
      LevelsFit spare maxLevel adds ∧ (∀ k ∈ MemTable.keys adds, k < key.cString) ∧
        status = .ioError ∧ value = old := by
  have hkeys : SkipList.keysOf SkipList.decodeKey ts = records (MemTable.keys adds) := by
    rw [h.run.keys, insertedKeys_callOf]
  rw [← h.bound_iff, ← forall_records_lt_iff, ← hkeys, SkipList.forall_mem_keysOf]
  by_cases hbound : m.table.level < m.table.maxLevel + spare
  · by_cases hall : ∀ t ∈ ts, SkipList.decodeKey t.key < key.cString
    · rw [get, h.run.repr.search_eq_none hbound hall]
      simp only [ok_bind, Except.ok.injEq, Prod.mk.injEq]
      -- nothing is found
      exact ⟨fun ⟨hs, hv⟩ => ⟨hbound, hall, hs.symm, hv.symm⟩,
        fun ⟨_, _, hs, hv⟩ => ⟨hs.symm, hv.symm⟩⟩
    · have hnot := hall
      push Not at hall
      obtain ⟨t, ht, hle⟩ := hall
      rw [get, h.run.repr.search_eq_nullDeref hbound ht hle, error_bind]
      exact iff_of_false (by simp) fun hc => hnot hc.2.1
  · rw [get, h.run.repr.search_outOfBounds (not_lt.mp hbound), error_bind]
    exact iff_of_false (by simp) fun hc => hbound hc.1

/-- **Read your latest write**, exactly: every added key is above all keys before it or at most
one of them that is not the largest, the levels drawn fit, the query's latest `Add` is no
`kTypeValue`, and every added key is below the C string at the query's data pointer. -/
theorem readsLatest_iff (spare maxLevel : ℕ) (adds : List AddCall) (key : Slice)
    (old : Bytes) :
    ReadsLatest spare (maxLevel + 1) (Nat.le_add_left 1 maxLevel) adds key old ↔
      AllSteps (fun pre a => Decided (keys pre) a.key.data) adds ∧
      LevelsFit spare (maxLevel + 1) adds ∧
      (∀ a, IsLatest adds key.data a → a.type = .kTypeDeletion) ∧
      ∀ k ∈ keys adds, k < key.cString := by
  have hpos : 1 ≤ maxLevel + 1 := Nat.le_add_left 1 maxLevel
  constructor
  · rintro ⟨m, status, value, hrun, hget, hvalue, hnot⟩
    obtain ⟨ts, hinv⟩ := addInv_of_runAll hpos hrun
    obtain ⟨hfit, hbelow, rfl, -⟩ := hinv.get_eq_ok_iff.mp hget
    have hsteps := (runAll_add_isOk_iff hpos adds).mp ⟨m, hrun⟩
    refine ⟨hsteps.mono fun _ _ hstep => hstep.1, hfit, fun a ha => ?_, hbelow⟩
    cases htype : a.type with
    | kTypeDeletion => rfl
    | kTypeValue => exact absurd (hvalue a ha htype).1 (by simp)
  · rintro ⟨hdec, hfit, hlatest, hbelow⟩
    have hsteps : AllSteps (fun pre a => Decided (keys pre) a.key.data ∧
        LevelsFit spare (maxLevel + 1) pre) adds := by
      intro pre a post hadds
      refine ⟨hdec pre a post hadds, fun p b q hpq => hfit p b (q ++ a :: post) ?_⟩
      rw [hadds, hpq]
      simp
    obtain ⟨m, hrun⟩ := (runAll_add_isOk_iff hpos adds).mpr hsteps
    obtain ⟨ts, hinv⟩ := addInv_of_runAll hpos hrun
    refine ⟨m, .ioError, old, hrun, hinv.get_eq_ok_iff.mpr ⟨hfit, hbelow, rfl, rfl⟩, ?_, ?_⟩
    · intro a ha htype
      rw [hlatest a ha] at htype
      cases htype
    · exact fun _ => by simp

/-- A single `Add` is not read back: `search` dereferences the null pointer after the only
node. -/
theorem not_readsLatest_single :
    ¬ ReadsLatest 0 4 (by decide)
      [{ seq := 1, type := .kTypeValue, key := ⟨[97], [], by decide⟩,
         value := ⟨[120], [], by decide⟩, coins := [] }] ⟨[97], [], by decide⟩ [] := by
  rintro ⟨m, status, value, hrun, hget, -⟩
  have hnull : (runAll (add 0) (new 0 4 (by decide))
      [{ seq := 1, type := .kTypeValue, key := ⟨[97], [], by decide⟩,
         value := ⟨[120], [], by decide⟩, coins := [] }] >>= fun m =>
      get m ⟨[97], [], by decide⟩ []) = .error .nullDeref := rfl
  rw [hrun, ok_bind, hget] at hnull
  cases hnull

end MemTable

end TinyLeveldb
