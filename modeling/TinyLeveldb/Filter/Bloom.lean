import TinyLeveldb.Hash
import TinyLeveldb.Library.BitArray

/-!
# The Bloom filter

`class BloomFilterPolicy`. A filter is an array of `bytes` bytes of bits and one more byte that
stores the number of probes. `CreateFilter` sets the probed bits of every key and `KeyMayMatch`
tests them; they find the same bits because the length of the filter determines `bits` and its
last byte the number of probes.

A filter may come from a file, so its reader is defined with a check in front of every read and
every remainder (`keyMayMatchWith`). `KeyMayMatch` is the reader whose checks do nothing, as the
compiled code has none; where all the checks pass, it does nothing undefined.
-/

namespace TinyLeveldb

open Library

/-- `BloomHash`. -/
def bloomHash (key : Slice) : UInt32 := hash key.data 0xbc9f1d34

/-- `class BloomFilterPolicy`, by the constructor's argument: an `int` that is not negative. -/
structure BloomFilterPolicy where
  bitsPerKey : ℕ
  bitsPerKey_lt : bitsPerKey < 2 ^ 31

/-- Rotate right 17 bits. -/
def probeDelta (h : UInt32) : UInt32 := (h >>> 17) ||| (h <<< 15)

/-- `h % bits` as a `uint32_t`. -/
def bitPos (h : UInt32) (bits : UInt64) : ℕ := (h.toUInt64 % bits).toUInt32.toNat

/-! ### Checks -/

/-- What must not happen while a filter is read. -/
inductive Violation
  /-- A byte outside the contents is read. -/
  | outside
  /-- The remainder by zero is taken. -/
  | moduloByZero
  /-- A `uint64_t` is shifted by 64 or more. -/
  | undefinedShift
  deriving DecidableEq

/-- No check. -/
def unchecked : Bool → Violation → Id Unit := fun _ _ => pure ()

section Checks

variable {μ : Type → Type} [Monad μ] (require : Bool → Violation → μ Unit)

/-- Read the byte at a position of the memory. -/
def readByteWith (memory : Bytes) (i : ℕ) : μ UInt8 := do
  require (i < memory.length) .outside
  return memory.getD i 0

/-- `h % bits`. -/
def bitPosWith (h : UInt32) (bits : UInt64) : μ ℕ := do
  require (bits ≠ 0) .moduloByZero
  return bitPos h bits

end Checks

namespace BloomFilterPolicy

/-- `k_`. The product `bits_per_key * 0.69` is a `double`; it truncates to `69 / 100` of
`bits_per_key` below `100`, and from `44` on `k_` is `30` whatever its rounding. -/
def k (policy : BloomFilterPolicy) : ℕ := min (max (policy.bitsPerKey * 69 / 100) 1) 30

/-- The inner loop of `CreateFilter`: set the bits of the remaining probes. -/
def setProbes (initSize : ℕ) (bits : UInt64) (delta : UInt32) : ℕ → UInt32 → Bytes → Bytes
  | 0, _, dst => dst
  | j + 1, h, dst =>
      setProbes initSize bits delta j (h + delta) (setBit dst initSize (bitPos h bits))

/-- The outer loop of `CreateFilter`: set the bits of every key. -/
def setKeys (initSize : ℕ) (bits : UInt64) (k : ℕ) (keys : List Slice) (dst : Bytes) : Bytes :=
  keys.foldl
    (fun dst key =>
      let h := bloomHash key
      setProbes initSize bits (probeDelta h) k h dst) dst

/-- The number of bytes `CreateFilter` reserves for `n` keys, in `size_t` arithmetic: a
negative `n` converts to a large number. -/
def filterBytes (policy : BloomFilterPolicy) (n : ℤ) : UInt64 :=
  let bits := UInt64.ofInt n * UInt64.ofNat policy.bitsPerKey
  let bits := if bits < 64 then 64 else bits
  (bits + 7) / 8

/-- `CreateFilter` for the first `n` of the keys. -/
def createFilter (policy : BloomFilterPolicy) (keys : List Slice) (n : ℤ) (dst : Bytes) :
    Bytes :=
  let bytes := policy.filterBytes n
  let bits := bytes * 8
  let initSize := dst.length
  let dst := dst ++ List.replicate bytes.toNat 0 ++ [UInt8.ofNat policy.k]
  setKeys initSize bits policy.k (keys.take n.toNat) dst

section Checks

variable {μ : Type → Type} [Monad μ] (require : Bool → Violation → μ Unit)

/-- The loop of `KeyMayMatch`, over an array at position `start` of the memory: are the bits of
the remaining probes set? -/
def testProbesWith (memory : Bytes) (start : ℕ) (bits : UInt64) (delta : UInt32) :
    ℕ → UInt32 → μ Bool
  | 0, _ => pure true
  | j + 1, h => do
      let bitpos ← bitPosWith require h bits
      let byte ← readByteWith require memory (start + bitpos / 8)
      if byte &&& bitMask bitpos = 0 then pure false
      else testProbesWith memory start bits delta j (h + delta)

/-- `KeyMayMatch`, for the filter of `len` bytes at position `start` of the memory; it reads no
member of the policy. The probe count is a `char`, so a byte from `128` on converts to a large
`size_t`. -/
def keyMayMatchWith (_policy : BloomFilterPolicy) (key : Slice) (memory : Bytes)
    (start len : ℕ) : μ Bool :=
  if len < 2 then pure false
  else do
    let bits := UInt64.ofNat ((len - 1) * 8)
    let last ← readByteWith require memory (start + (len - 1))
    let k := last.toInt8.toInt64.toUInt64
    if k > 30 then pure true
    else
      let h := bloomHash key
      testProbesWith require memory start bits (probeDelta h) k.toNat h

end Checks

/-- The loop of `KeyMayMatch` without checks. -/
def testProbes (array : Bytes) (bits : UInt64) (delta : UInt32) (j : ℕ) (h : UInt32) : Bool :=
  (testProbesWith unchecked array 0 bits delta j h).run

/-- `KeyMayMatch`. -/
def keyMayMatch (policy : BloomFilterPolicy) (key filter : Slice) : Bool :=
  (policy.keyMayMatchWith unchecked key filter.data 0 filter.size).run

/-! ### The probes of a key -/

theorem k_le (policy : BloomFilterPolicy) : policy.k ≤ 30 := by
  rw [k]
  omega

/-- The stored probe count reads back as it was written. -/
theorem toUInt64_k (policy : BloomFilterPolicy) :
    (UInt8.ofNat policy.k).toInt8.toInt64.toUInt64 = UInt64.ofNat policy.k := by
  have hle := policy.k_le
  generalize policy.k = k at hle
  interval_cases k <;> rfl

theorem testProbes_succ (array : Bytes) (bits : UInt64) (delta : UInt32) (j : ℕ) (h : UInt32) :
    testProbes array bits delta (j + 1) h =
      if testBit array 0 (bitPos h bits) = false then false
      else testProbes array bits delta j (h + delta) := by
  change (if array.getD (0 + bitPos h bits / 8) 0 &&& bitMask (bitPos h bits) = 0 then false
    else testProbes array bits delta j (h + delta)) = _
  simp only [testBit, ne_eq, decide_not, Bool.not_eq_false', decide_eq_true_eq]

theorem keyMayMatch_eq (policy : BloomFilterPolicy) (key filter : Slice) :
    policy.keyMayMatch key filter =
      if filter.size < 2 then false
      else
        let k := (filter.data.getD (filter.size - 1) 0).toInt8.toInt64.toUInt64
        if k > 30 then true
        else testProbes filter.data (UInt64.ofNat ((filter.size - 1) * 8))
          (probeDelta (bloomHash key)) k.toNat (bloomHash key) := by
  change (if filter.size < 2 then false else _) = _
  rw [Nat.zero_add]
  rfl

theorem bitPos_lt (h : UInt32) {b : UInt64} (hpos : 0 < b.toNat) :
    bitPos h b < b.toNat := by
  rw [bitPos, UInt64.toNat_toUInt32, UInt64.toNat_mod]
  exact (Nat.mod_le _ _).trans_lt (Nat.mod_lt _ hpos)

section Probes

variable {initSize bytes : ℕ} {bits : UInt64} {delta h : UInt32} {dst : Bytes}

@[simp]
theorem length_setProbes (k : ℕ) :
    (setProbes initSize bits delta k h dst).length = dst.length := by
  induction k generalizing h dst with
  | zero => rfl
  | succ k ih => rw [setProbes, ih, length_setBit]

/-- Probing keeps what is in front of the array. -/
theorem take_setProbes (k : ℕ) :
    (setProbes initSize bits delta k h dst).take initSize = dst.take initSize := by
  induction k generalizing h dst with
  | zero => rfl
  | succ k ih => rw [setProbes, ih, take_setBit le_rfl]

/-- Probing keeps what is behind the array. -/
theorem getD_setProbes (hbits : bits.toNat = bytes * 8) (hpos : 0 < bytes) (k : ℕ) :
    (setProbes initSize bits delta k h dst).getD (initSize + bytes) 0 =
      dst.getD (initSize + bytes) 0 := by
  induction k generalizing h dst with
  | zero => rfl
  | succ k ih =>
    have hlt := bitPos_lt h (b := bits) (by omega)
    rw [setProbes, ih, getD_setBit_of_lt (by omega)]

/-- Probing clears no bit. -/
theorem testBit_setProbes {i : ℕ} (hi : testBit dst initSize i = true) (k : ℕ) :
    testBit (setProbes initSize bits delta k h dst) initSize i = true := by
  induction k generalizing h dst with
  | zero => exact hi
  | succ k ih => exact ih (testBit_setBit_of_testBit hi)

/-- What was probed stays probed while further bits are set. -/
theorem testProbes_mono {array array' : Bytes}
    (hmono : ∀ i, testBit array 0 i = true → testBit array' 0 i = true) {k : ℕ}
    (hk : testProbes array bits delta k h = true) : testProbes array' bits delta k h = true := by
  induction k generalizing h with
  | zero => rfl
  | succ k ih =>
    simp only [testProbes_succ, Bool.if_false_left, Bool.and_eq_true, Bool.not_eq_true',
      decide_eq_false_iff_not, Bool.not_eq_false] at hk ⊢
    exact ⟨hmono _ hk.1, ih hk.2⟩

/-- Testing the probes that were set succeeds. -/
theorem testProbes_setProbes (hbits : bits.toNat = bytes * 8) (hpos : 0 < bytes)
    (hlen : initSize + bytes ≤ dst.length) (k : ℕ) :
    testProbes ((setProbes initSize bits delta k h dst).drop initSize) bits delta k h = true := by
  induction k generalizing h dst with
  | zero => rfl
  | succ k ih =>
    have hlt := bitPos_lt h (b := bits) (by omega)
    have hself : testBit (setProbes initSize bits delta k (h + delta)
        (setBit dst initSize (bitPos h bits))) initSize (bitPos h bits) = true :=
      testBit_setProbes (testBit_setBit_self (by omega)) k
    simp only [testProbes_succ, setProbes, testBit_drop, hself, Bool.true_eq_false, if_false]
    exact ih (by rw [length_setBit]; exact hlen)

end Probes

/-! ### All keys -/

section Keys

variable {initSize bytes k : ℕ} {bits : UInt64} {keys : List Slice} {dst : Bytes}

@[simp]
theorem length_setKeys : (setKeys initSize bits k keys dst).length = dst.length := by
  induction keys generalizing dst with
  | nil => rfl
  | cons key keys ih => exact ih.trans (length_setProbes k)

theorem take_setKeys :
    (setKeys initSize bits k keys dst).take initSize = dst.take initSize := by
  induction keys generalizing dst with
  | nil => rfl
  | cons key keys ih => exact ih.trans (take_setProbes k)

theorem getD_setKeys (hbits : bits.toNat = bytes * 8) (hpos : 0 < bytes) :
    (setKeys initSize bits k keys dst).getD (initSize + bytes) 0 =
      dst.getD (initSize + bytes) 0 := by
  induction keys generalizing dst with
  | nil => rfl
  | cons key keys ih => exact ih.trans (getD_setProbes hbits hpos k)

theorem testBit_setKeys {i : ℕ} (hi : testBit dst initSize i = true) :
    testBit (setKeys initSize bits k keys dst) initSize i = true := by
  induction keys generalizing dst with
  | nil => exact hi
  | cons key keys ih => exact ih (testBit_setProbes hi k)

/-- The probes of every key are set at the end. -/
theorem testProbes_setKeys (hbits : bits.toNat = bytes * 8) (hpos : 0 < bytes)
    (hlen : initSize + bytes ≤ dst.length) {key : Slice} (hkey : key ∈ keys) :
    testProbes ((setKeys initSize bits k keys dst).drop initSize) bits
      (probeDelta (bloomHash key)) k (bloomHash key) = true := by
  induction keys generalizing dst with
  | nil => cases hkey
  | cons key' keys ih =>
    rcases List.mem_cons.mp hkey with rfl | hkey
    · refine testProbes_mono (fun i hi => ?_) (testProbes_setProbes hbits hpos hlen k)
      rw [testBit_drop] at hi ⊢
      rw [setKeys, List.foldl_cons]
      exact testBit_setKeys hi
    · exact ih ((length_setProbes k).symm ▸ hlen) hkey

end Keys

/-! ### No false negatives -/

/-- The size of a filter for fewer than `2 ^ 31` keys does not overflow. -/
theorem filterBytes_spec (policy : BloomFilterPolicy) {n : ℕ} (hn : n < 2 ^ 31) :
    0 < (policy.filterBytes n).toNat ∧
      (policy.filterBytes n * 8).toNat = (policy.filterBytes n).toNat * 8 := by
  have hprod : n * policy.bitsPerKey < 2 ^ 62 :=
    calc n * policy.bitsPerKey ≤ n * 2 ^ 31 := Nat.mul_le_mul_left n policy.bitsPerKey_lt.le
      _ < 2 ^ 31 * 2 ^ 31 := Nat.mul_lt_mul_of_pos_right hn (by decide)
      _ = 2 ^ 62 := rfl
  obtain ⟨bits, hbits, hlow, hhigh⟩ : ∃ bits : UInt64,
      policy.filterBytes n = (bits + 7) / 8 ∧ 64 ≤ bits.toNat ∧ bits.toNat < 2 ^ 63 := by
    have hmul : (UInt64.ofInt n * UInt64.ofNat policy.bitsPerKey).toNat < 2 ^ 62 := by
      have hpolicy := policy.bitsPerKey_lt
      rw [UInt64.toNat_mul, UInt64.ofInt, UInt64.toNat_ofNat', UInt64.toNat_ofNat',
        Nat.mod_eq_of_lt (by omega : policy.bitsPerKey < 2 ^ 64)]
      have hn' : ((n : ℤ) % 2 ^ 64).toNat = n := by omega
      rw [hn', Nat.mod_eq_of_lt (by omega : n < 2 ^ 64), Nat.mod_eq_of_lt (by omega)]
      exact hprod
    rw [filterBytes]
    by_cases hsmall : UInt64.ofInt n * UInt64.ofNat policy.bitsPerKey < 64
    · exact ⟨64, by simp only [if_pos hsmall], by decide, by decide⟩
    · refine ⟨UInt64.ofInt n * UInt64.ofNat policy.bitsPerKey, by simp only [if_neg hsmall], ?_,
        by omega⟩
      rw [UInt64.lt_iff_toNat_lt] at hsmall
      exact not_lt.mp hsmall
  have hbytes : (policy.filterBytes n).toNat = (bits.toNat + 7) / 8 := by
    have hseven : (7 : UInt64).toNat = 7 := rfl
    have height : (8 : UInt64).toNat = 8 := rfl
    rw [hbits, UInt64.toNat_div, UInt64.toNat_add, hseven, height, Nat.mod_eq_of_lt (by omega)]
  have height : (8 : UInt64).toNat = 8 := rfl
  refine ⟨by omega, ?_⟩
  rw [UInt64.toNat_mul, height, Nat.mod_eq_of_lt (by omega)]

/-- `CreateFilter` keeps the content of `dst`. -/
theorem take_createFilter (policy : BloomFilterPolicy) (keys : List Slice) (n : ℤ)
    (dst : Bytes) : (policy.createFilter keys n dst).take dst.length = dst := by
  rw [createFilter, take_setKeys]
  simp

/-- Every key of a filter matches it, whatever policy asks. -/
theorem keyMayMatch_of_mem (policy policy' : BloomFilterPolicy) {keys : List Slice}
    (hkeys : keys.length < 2 ^ 31) (dst : Bytes) {filter key : Slice}
    (hfilter : filter.data = (policy.createFilter keys keys.length dst).drop dst.length)
    (hkey : key ∈ keys) : policy'.keyMayMatch key filter = true := by
  obtain ⟨hpos, hbits⟩ := policy.filterBytes_spec hkeys
  have hcreate : policy.createFilter keys keys.length dst =
      setKeys dst.length (policy.filterBytes keys.length * 8) policy.k keys
        (dst ++ List.replicate (policy.filterBytes keys.length).toNat 0 ++
          [UInt8.ofNat policy.k]) := by
    simp only [createFilter, Int.toNat_natCast, List.take_length]
  rw [hcreate] at hfilter
  generalize policy.filterBytes keys.length = bytes at hpos hbits hfilter
  have hsize : filter.size = bytes.toNat + 1 := by
    rw [Slice.size, hfilter, List.length_drop, length_setKeys]
    simp
  have hk : filter.data.getD bytes.toNat 0 = UInt8.ofNat policy.k := by
    rw [hfilter, List.getD_eq_getElem?_getD, List.getElem?_drop, ← List.getD_eq_getElem?_getD,
      getD_setKeys hbits hpos]
    simp [List.getD_eq_getElem?_getD]
  -- both sides reduce the probes modulo the same number of bits
  have hbits' : UInt64.ofNat (bytes.toNat * 8) = bytes * 8 := by
    rw [← UInt64.toNat_inj, hbits, UInt64.toNat_ofNat_of_lt']
    have := filter.size_lt
    have : filter.data.length = bytes.toNat + 1 := hsize
    change bytes.toNat * 8 < 2 ^ 64
    omega
  have hkNat : (UInt64.ofNat policy.k).toNat = policy.k :=
    UInt64.toNat_ofNat_of_lt' (policy.k_le.trans_lt (by decide))
  have hle : ¬ UInt64.ofNat policy.k > 30 := by
    rw [gt_iff_lt, UInt64.lt_iff_toNat_lt, hkNat]
    exact not_lt.mpr policy.k_le
  have hlen : ¬ bytes.toNat + 1 < 2 := by omega
  simp only [keyMayMatch_eq, hsize, if_neg hlen, Nat.add_sub_cancel, hk, toUInt64_k, if_neg hle,
    hbits', hkNat]
  rw [hfilter]
  exact testProbes_setKeys hbits hpos (by simp) hkey

/-- **No false negatives.** `CreateFilter` keeps the content of `dst`, and every key matches the
filter it appends, whatever policy asks. -/
theorem keyMayMatch_createFilter (policy policy' : BloomFilterPolicy) (keys : List Slice)
    (dst : Bytes) (hkeys : keys.length < 2 ^ 31) :
    (policy.createFilter keys keys.length dst).take dst.length = dst ∧
      ∀ filter : Slice, filter.data = (policy.createFilter keys keys.length dst).drop dst.length →
        ∀ key ∈ keys, policy'.keyMayMatch key filter = true :=
  ⟨policy.take_createFilter keys keys.length dst, fun _ hfilter _ hkey =>
    keyMayMatch_of_mem policy policy' hkeys dst hfilter hkey⟩

/-- Two keys, one of them empty, in a filter behind one byte. -/
theorem keyMayMatch_createFilter_two :
    let keys : List Slice := [⟨[], [], by decide⟩, ⟨[97], [], by decide⟩]
    let filter := (createFilter ⟨10, by decide⟩ keys keys.length [1]).drop 1
    (createFilter ⟨10, by decide⟩ keys keys.length [1]).take 1 = [1] ∧
      ∀ slice : Slice, slice.data = filter →
        ∀ key ∈ keys, keyMayMatch ⟨3, by decide⟩ key slice = true :=
  keyMayMatch_createFilter ⟨10, by decide⟩ ⟨3, by decide⟩ _ [1] (by decide)

/-! ### Filters inside a memory -/

/-- A byte of a part of the memory. -/
theorem getD_take_drop {memory : Bytes} {start len i : ℕ} (hi : i < len) :
    ((memory.drop start).take len).getD i 0 = memory.getD (start + i) 0 := by
  rw [List.getD_eq_getElem?_getD, List.getElem?_take_of_lt hi, List.getElem?_drop,
    ← List.getD_eq_getElem?_getD]

section Checks

variable {μ : Type → Type} [Monad μ] [LawfulMonad μ] {require : Bool → Violation → μ Unit}
  {memory : Bytes} {start len : ℕ}

/-- The probes stay inside the filter, so every check passes. -/
theorem testProbesWith_eq (hrequire : ∀ v, require true v = pure ()) {bits : UInt64}
    (hbits : bits.toNat = (len - 1) * 8) (hlen : 2 ≤ len) (hle : start + len ≤ memory.length)
    (delta : UInt32) (k : ℕ) (h : UInt32) :
    testProbesWith require memory start bits delta k h =
      pure (testProbes ((memory.drop start).take len) bits delta k h) := by
  induction k generalizing h with
  | zero => rfl
  | succ k ih =>
    have hlt := bitPos_lt h (b := bits) (by omega)
    have hne : bits ≠ 0 := by
      rintro rfl
      rw [UInt64.toNat_zero] at hbits
      omega
    have hpos : bitPosWith require h bits = pure (bitPos h bits) := by
      rw [bitPosWith, decide_eq_true hne, hrequire, pure_bind]
    have hread : readByteWith require memory (start + bitPos h bits / 8) =
        pure (memory.getD (start + bitPos h bits / 8) 0) := by
      rw [readByteWith, decide_eq_true (by omega), hrequire, pure_bind]
    rw [testProbesWith, hpos, pure_bind, hread, pure_bind, testProbes_succ, testBit, Nat.zero_add,
      getD_take_drop (by omega), ih]
    generalize memory.getD (start + bitPos h bits / 8) 0 = byte
    by_cases hbit : byte &&& bitMask (bitPos h bits) = 0
    · simp [hbit]
    · simp [hbit]

/-- `KeyMayMatch` of a filter inside the memory does nothing undefined. -/
theorem keyMayMatchWith_eq (hrequire : ∀ v, require true v = pure ())
    (policy : BloomFilterPolicy) (key : Slice) {filter : Slice}
    (hfilter : filter.data = (memory.drop start).take len) (hle : start + len ≤ memory.length) :
    policy.keyMayMatchWith require key memory start len =
      pure (policy.keyMayMatch key filter) := by
  have hsize : filter.size = len := by
    rw [Slice.size, hfilter, List.length_take, List.length_drop]
    omega
  rw [keyMayMatchWith, keyMayMatch_eq, hsize]
  by_cases hlen : len < 2
  · rw [if_pos hlen, if_pos hlen]
  · have hread : readByteWith require memory (start + (len - 1)) =
        pure (memory.getD (start + (len - 1)) 0) := by
      rw [readByteWith, decide_eq_true (by omega), hrequire, pure_bind]
    have hbits : (UInt64.ofNat ((len - 1) * 8)).toNat = (len - 1) * 8 := by
      have hlt := filter.size_lt
      rw [← Slice.size, hsize] at hlt
      exact UInt64.toNat_ofNat_of_lt' (Nat.lt_of_lt_of_le (by omega : _ < 2 ^ 34) (by decide))
    simp only [if_neg hlen, hread, pure_bind, hfilter,
      getD_take_drop (show len - 1 < len by omega)]
    split
    · rfl
    · exact testProbesWith_eq hrequire hbits (by omega) hle _ _ _

end Checks

/-! ### Filters behind other bytes -/

theorem setProbes_append (bits : UInt64) (delta : UInt32) (pre : Bytes) (k : ℕ) (h : UInt32)
    (dst : Bytes) :
    setProbes pre.length bits delta k h (pre ++ dst) =
      pre ++ setProbes 0 bits delta k h dst := by
  induction k generalizing h dst with
  | zero => rfl
  | succ k ih =>
    have hset := setBit_append pre dst 0 (bitPos h bits)
    rw [Nat.add_zero] at hset
    rw [setProbes, setProbes, hset, ih]

theorem setKeys_append (bits : UInt64) (k : ℕ) (keys : List Slice) (pre dst : Bytes) :
    setKeys pre.length bits k keys (pre ++ dst) = pre ++ setKeys 0 bits k keys dst := by
  induction keys generalizing dst with
  | nil => rfl
  | cons key keys ih =>
    simp only [setKeys, List.foldl_cons, setProbes_append] at ih ⊢
    exact ih _

/-- What `CreateFilter` appends does not depend on what it appends to. -/
theorem createFilter_eq_append (policy : BloomFilterPolicy) (keys : List Slice) (n : ℤ)
    (dst : Bytes) :
    policy.createFilter keys n dst = dst ++ policy.createFilter keys n [] := by
  simp only [createFilter, List.append_assoc, setKeys_append, List.nil_append,
    List.length_nil]

/-- `CreateFilter` only reads the bytes of the keys. -/
theorem createFilter_congr (policy : BloomFilterPolicy) {keys keys' : List Slice}
    (h : keys.map Slice.data = keys'.map Slice.data) (n : ℤ) (dst : Bytes) :
    policy.createFilter keys n dst = policy.createFilter keys' n dst := by
  have hfold : ∀ (keys : List Slice) (initSize k : ℕ) (bits : UInt64) (dst : Bytes),
      setKeys initSize bits k keys dst = (keys.map Slice.data).foldl (fun dst data =>
        setProbes initSize bits (probeDelta (hash data 0xbc9f1d34)) k (hash data 0xbc9f1d34) dst)
        dst := fun keys initSize k bits dst => by
    rw [List.foldl_map]
    rfl
  simp only [createFilter, hfold, List.map_take, h]

end BloomFilterPolicy

end TinyLeveldb
