import TinyLeveldb.MemTable

/-!
# Entries of the memtable

`MemTable::Add` packs the sequence number and the type into a tag: an `int`, shifted by eight, so
that the top byte of the sequence number is lost, and then widened to 64 bits with its sign. What
`DecodeEntry` gets back is therefore the sign extension of the low 24 bits
(`decodeEntry_encodeEntry`). Everything else of an entry comes back as it went in, so the round
trip holds exactly for the sequence numbers below `2 ^ 23` (`roundTrips_iff`).
-/

namespace TinyLeveldb

/-- How far `DecodeEntry` has moved when it is done: the `p + val_size - buf` of its assertion. -/
def SkipList.decodedLen (buf : Bytes) : ℕ :=
  let keySize := (decodeFixed32 buf).toNat
  let p := 4 + keySize + 8
  let valSize := (decodeFixed32 (buf.drop p)).toNat
  p + 4 + valSize

namespace MemTable

/-- `encoded_len`. -/
def encodedLen (key value : Slice) : ℕ := key.size + value.size + 8 + 4 + 4

/-- The `int` tag `(seq << 8) | type`, widened to 64 bits. -/
def tag (seq : BitVec 32) (type : ValueType) : UInt64 :=
  .ofBitVec (((seq <<< 8) ||| type.code).signExtend 64)

/-- The sequence number that is left in a tag. -/
def storedSeq (seq : BitVec 32) : BitVec 32 := (seq.setWidth 24).signExtend 32

/-- An entry comes back as it went in, whatever lies behind its buffer. -/
def RoundTrips (seq : BitVec 32) (type : ValueType) (key value : Slice) : Prop :=
  ∀ rest : Bytes,
    let buf := encodeEntry seq type key value ++ rest
    (∃ e, SkipList.decodeEntry (some buf) = .ok e ∧ e.seq = seq ∧
      e.type.toBitVec = type.code.setWidth 64 ∧ e.key = key.data ∧ e.value = value.data) ∧
    SkipList.decodedLen buf = encodedLen key value ∧ SkipList.decodeKey buf = key.data

theorem toNat_size (s : Slice) : (UInt32.ofNat s.size).toNat = s.data.length := by
  have hlt := s.size_lt
  rw [UInt32.toNat_ofNat', Slice.size, Nat.mod_eq_of_lt (by omega)]

/-! ### Tags -/

/-- Only the lowest bit of a type is set. -/
theorem getLsbD_code (type : ValueType) {i : ℕ} (hi : 1 ≤ i) : type.code.getLsbD i = false := by
  cases type with
  | kTypeDeletion => simp [ValueType.code]
  | kTypeValue =>
    have hone : (1 : BitVec 32) = 1#32 := rfl
    rw [ValueType.code, hone, BitVec.getLsbD_one]
    simp [Nat.ne_of_gt hi]

/-- **The bits of a tag**: the type, the low 24 bits of the sequence number, and the highest of
these as the sign. -/
theorem getLsbD_tag (seq : BitVec 32) (type : ValueType) {i : ℕ} (hi : i < 64) :
    (tag seq type).toBitVec.getLsbD i =
      if i < 8 then type.code.getLsbD i
      else if i < 32 then seq.getLsbD (i - 8) else seq.getLsbD 23 := by
  have hmsb : ((seq <<< 8) ||| type.code).msb = seq.getLsbD 23 := by
    rw [BitVec.msb_or, BitVec.msb_eq_getLsbD_last, BitVec.msb_eq_getLsbD_last,
      getLsbD_code type (by decide), Bool.or_false, BitVec.getLsbD_shiftLeft]
    simp
  simp only [tag, BitVec.getLsbD_signExtend, hi, decide_true, Bool.true_and, hmsb,
    BitVec.getLsbD_or, BitVec.getLsbD_shiftLeft]
  by_cases h8 : i < 8
  · simp [h8, show i < 32 by omega]
  · by_cases h32 : i < 32
    · rw [getLsbD_code type (by omega)]
      simp [h8, h32]
    · simp [h8, h32]

theorem getLsbD_255 (i : ℕ) : (255#64).getLsbD i = decide (i < 8) := by
  have hpow : (255#64) = BitVec.ofNat 64 (2 ^ 8 - 1) := rfl
  rw [hpow, BitVec.getLsbD_ofNat, Nat.testBit_two_pow_sub_one]
  grind

/-- The type comes back. -/
theorem type_tag (seq : BitVec 32) (type : ValueType) :
    (tag seq type &&& 0xff).toBitVec = type.code.setWidth 64 := by
  have hmask : (0xff : UInt64).toBitVec = 255#64 := rfl
  rw [UInt64.toBitVec_and, hmask]
  apply BitVec.eq_of_getLsbD_eq
  intro i hi
  rw [BitVec.getLsbD_and, getLsbD_tag seq type hi, getLsbD_255, BitVec.getLsbD_setWidth]
  by_cases h8 : i < 8
  · simp [h8, hi]
  · simp [h8, getLsbD_code type (show 1 ≤ i by omega)]

/-- Of the sequence number the low 24 bits come back. -/
theorem seq_tag (seq : BitVec 32) (type : ValueType) :
    (tag seq type >>> 8).toBitVec.setWidth 32 = storedSeq seq := by
  have h8 : ((8 : UInt64).toBitVec % (64 : BitVec 64)).toNat = 8 := rfl
  apply BitVec.eq_of_getLsbD_eq
  intro i hi
  have hmsb : (seq.setWidth 24).msb = seq.getLsbD 23 := by
    rw [BitVec.msb_eq_getLsbD_last, BitVec.getLsbD_setWidth]
    simp
  rw [storedSeq, BitVec.getLsbD_signExtend, hmsb, BitVec.getLsbD_setWidth, BitVec.getLsbD_setWidth,
    UInt64.toBitVec_shiftRight, BitVec.ushiftRight_eq', h8, BitVec.getLsbD_ushiftRight,
    getLsbD_tag seq type (show 8 + i < 64 by omega)]
  by_cases h24 : i < 24
  · simp [h24, hi, show 8 + i < 32 by omega]
  · simp [h24, hi, show ¬ 8 + i < 32 by omega]

/-- The sign extension of the low 24 bits of a sequence number is the number itself exactly when
24 bits hold it. -/
theorem storedSeq_eq_iff {seq : BitVec 32} :
    storedSeq seq = seq ↔ -2 ^ 23 ≤ seq.toInt ∧ seq.toInt < 2 ^ 23 := by
  rw [← BitVec.toInt_inj, storedSeq, BitVec.toInt_signExtend_of_le (by decide),
    BitVec.toInt_setWidth, BitVec.toInt_eq_toNat_bmod]
  simp only [Int.bmod_def]
  omega

/-! ### Entries -/

variable {seq : BitVec 32} {type : ValueType} {key value : Slice}

theorem encodeEntry_append (seq : BitVec 32) (type : ValueType) (key value : Slice) (rest : Bytes) :
    encodeEntry seq type key value ++ rest = encodeFixed32 (UInt32.ofNat key.size) ++ (key.data ++
      (encodeFixed64 (tag seq type) ++
        (encodeFixed32 (UInt32.ofNat value.size) ++ (value.data ++ rest)))) := by
  simp only [encodeEntry, tag, List.append_assoc]

/-- `DecodeKey` reads the key, whatever lies behind the entry. -/
theorem decodeKey_encodeEntry_append (seq : BitVec 32) (type : ValueType) (key value : Slice)
    (rest : Bytes) : SkipList.decodeKey (encodeEntry seq type key value ++ rest) = key.data := by
  simp only [SkipList.decodeKey, encodeEntry_append, decodeFixed32_encodeFixed32_append,
    toNat_size key]
  rw [List.drop_left' (length_encodeFixed32 _), List.take_left]

/-- **What `DecodeEntry` makes of an entry**, whatever lies behind it. -/
theorem decodeEntry_encodeEntry (seq : BitVec 32) (type : ValueType) (key value : Slice)
    (rest : Bytes) : SkipList.decodeEntry (some (encodeEntry seq type key value ++ rest)) =
      .ok { seq := storedSeq seq, type := tag seq type &&& 0xff, key := key.data,
            value := value.data } := by
  have hkey := toNat_size key
  have hvalue := toNat_size value
  simp only [SkipList.decodeEntry, encodeEntry_append, decodeFixed32_encodeFixed32_append, hkey]
  rw [List.drop_left' (length_encodeFixed32 _), List.take_left, List.drop_left,
    decodeFixed64_encodeFixed64_append, List.drop_left' (length_encodeFixed64 _),
    decodeFixed32_encodeFixed32_append, List.drop_left' (length_encodeFixed32 _), hvalue,
    List.take_left]
  exact congrArg _ (congrArg (SkipList.DecodedEntry.mk · _ _ _) (seq_tag seq type))

/-- `DecodeEntry` stops at the end of the buffer. -/
theorem decodedLen_encodeEntry (seq : BitVec 32) (type : ValueType) (key value : Slice)
    (rest : Bytes) :
    SkipList.decodedLen (encodeEntry seq type key value ++ rest) = encodedLen key value := by
  have hkey := toNat_size key
  have hvalue := toNat_size value
  simp only [SkipList.decodedLen, encodeEntry_append, encodedLen,
    decodeFixed32_encodeFixed32_append, hkey]
  rw [← List.drop_drop, ← List.drop_drop, List.drop_left' (length_encodeFixed32 _), List.drop_left,
    List.drop_left' (length_encodeFixed64 _), decodeFixed32_encodeFixed32_append, hvalue]
  simp only [Slice.size]
  omega

/-- **The round trip of an entry**, exactly: the sequence number fits 23 bits. -/
theorem roundTrips_iff (hseq : 0 ≤ seq.toInt) :
    RoundTrips seq type key value ↔ seq.toInt < 2 ^ 23 := by
  constructor
  · intro h
    obtain ⟨⟨e, he, hback, -⟩, -⟩ := h []
    obtain rfl := Except.ok.inj (he.symm.trans (decodeEntry_encodeEntry seq type key value []))
    exact (storedSeq_eq_iff.mp hback).2
  · intro h rest
    refine ⟨⟨_, decodeEntry_encodeEntry seq type key value rest, ?_, type_tag seq type, rfl, rfl⟩,
      decodedLen_encodeEntry seq type key value rest, ?_⟩
    · exact storedSeq_eq_iff.mpr ⟨by omega, h⟩
    · exact decodeKey_encodeEntry_append seq type key value rest

/-- The largest sequence number that comes back. -/
theorem roundTrips_largest :
    RoundTrips (2 ^ 23 - 1) .kTypeValue ⟨[97], [], by decide⟩ ⟨[98, 0], [], by decide⟩ :=
  (roundTrips_iff (by decide)).mpr (by decide)

/-- The next one comes back negative. -/
theorem not_roundTrips_next :
    0 ≤ (2 ^ 23 : BitVec 32).toInt ∧ storedSeq (2 ^ 23) = -2 ^ 23 ∧
      ¬ RoundTrips (2 ^ 23) .kTypeValue ⟨[97], [], by decide⟩ ⟨[98, 0], [], by decide⟩ := by
  refine ⟨by decide, by decide, fun h => ?_⟩
  obtain ⟨⟨e, he, hback, -⟩, -⟩ := h []
  have hstored : storedSeq (2 ^ 23) = 2 ^ 23 := by
    obtain rfl := Except.ok.inj (he.symm.trans (decodeEntry_encodeEntry ..))
    exact hback
  exact absurd hstored (by decide)

end MemTable

end TinyLeveldb
