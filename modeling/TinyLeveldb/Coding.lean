import TinyLeveldb.Basic

/-!
# Fixed-width little-endian words

`class coding` of the source. The decoders read from a pointer without bounds checks; here a
byte that the given memory does not hold reads as `0`, and the callers that have bounds to
respect check them before they decode.
-/

namespace TinyLeveldb

/-- `coding::EncodeFixed32`: the four bytes it stores. -/
def encodeFixed32 (value : UInt32) : Bytes :=
  [value.toUInt8, (value >>> 8).toUInt8, (value >>> 16).toUInt8, (value >>> 24).toUInt8]

/-- `coding::EncodeFixed64`: the eight bytes it stores. -/
def encodeFixed64 (value : UInt64) : Bytes :=
  [value.toUInt8, (value >>> 8).toUInt8, (value >>> 16).toUInt8, (value >>> 24).toUInt8,
    (value >>> 32).toUInt8, (value >>> 40).toUInt8, (value >>> 48).toUInt8,
    (value >>> 56).toUInt8]

/-- `coding::DecodeFixed32`. -/
def decodeFixed32 (p : Bytes) : UInt32 :=
  (p.getD 0 0).toUInt32 ||| ((p.getD 1 0).toUInt32 <<< 8) |||
    ((p.getD 2 0).toUInt32 <<< 16) ||| ((p.getD 3 0).toUInt32 <<< 24)

/-- `coding::DecodeFixed64`. -/
def decodeFixed64 (p : Bytes) : UInt64 :=
  (p.getD 0 0).toUInt64 ||| ((p.getD 1 0).toUInt64 <<< 8) |||
    ((p.getD 2 0).toUInt64 <<< 16) ||| ((p.getD 3 0).toUInt64 <<< 24) |||
    ((p.getD 4 0).toUInt64 <<< 32) ||| ((p.getD 5 0).toUInt64 <<< 40) |||
    ((p.getD 6 0).toUInt64 <<< 48) ||| ((p.getD 7 0).toUInt64 <<< 56)

/-- `coding::PutFixed64`. -/
def putFixed64 (dst : Bytes) (value : UInt64) : Bytes := dst ++ encodeFixed64 value

@[simp]
theorem length_encodeFixed32 (value : UInt32) : (encodeFixed32 value).length = 4 := rfl

@[simp]
theorem length_encodeFixed64 (value : UInt64) : (encodeFixed64 value).length = 8 := rfl

/-- Decoding reads back the word that was encoded, whatever follows it. -/
@[simp]
theorem decodeFixed32_encodeFixed32_append (value : UInt32) (rest : Bytes) :
    decodeFixed32 (encodeFixed32 value ++ rest) = value := by
  have h8 : ((8 : UInt32).toBitVec % (32 : BitVec 32)).toNat = 8 := rfl
  have h16 : ((16 : UInt32).toBitVec % (32 : BitVec 32)).toNat = 16 := rfl
  have h24 : ((24 : UInt32).toBitVec % (32 : BitVec 32)).toNat = 24 := rfl
  simp only [decodeFixed32, encodeFixed32, List.cons_append, List.getD_cons_zero,
    List.getD_cons_succ]
  apply UInt32.toBitVec_inj.mp
  apply BitVec.eq_of_getLsbD_eq
  intro i hi
  -- bit `i` of the word is bit `i % 8` of byte `i / 8`
  simp only [UInt32.toBitVec_or, UInt32.toBitVec_shiftLeft, UInt8.toBitVec_toUInt32,
    UInt32.toBitVec_toUInt8, UInt32.toBitVec_shiftRight, BitVec.getLsbD_or,
    BitVec.getLsbD_setWidth, BitVec.shiftLeft_eq', BitVec.ushiftRight_eq',
    BitVec.getLsbD_shiftLeft, BitVec.getLsbD_ushiftRight, h8, h16, h24]
  grind

/-- A word read at a byte that is not zero is not zero. -/
theorem decodeFixed32_cons_ne_zero {byte : UInt8} (h : byte ≠ 0) (rest : Bytes) :
    decodeFixed32 (byte :: rest) ≠ 0 := by
  intro hzero
  simp only [decodeFixed32, List.getD_cons_zero, UInt32.or_eq_zero_iff] at hzero
  have hbyte : byte.toUInt32.toNat = 0 := by rw [hzero.1.1.1]; rfl
  rw [UInt8.toNat_toUInt32] at hbyte
  exact h (UInt8.toNat_inj.mp hbyte)

@[simp]
theorem decodeFixed64_encodeFixed64_append (value : UInt64) (rest : Bytes) :
    decodeFixed64 (encodeFixed64 value ++ rest) = value := by
  have h8 : ((8 : UInt64).toBitVec % (64 : BitVec 64)).toNat = 8 := rfl
  have h16 : ((16 : UInt64).toBitVec % (64 : BitVec 64)).toNat = 16 := rfl
  have h24 : ((24 : UInt64).toBitVec % (64 : BitVec 64)).toNat = 24 := rfl
  have h32 : ((32 : UInt64).toBitVec % (64 : BitVec 64)).toNat = 32 := rfl
  have h40 : ((40 : UInt64).toBitVec % (64 : BitVec 64)).toNat = 40 := rfl
  have h48 : ((48 : UInt64).toBitVec % (64 : BitVec 64)).toNat = 48 := rfl
  have h56 : ((56 : UInt64).toBitVec % (64 : BitVec 64)).toNat = 56 := rfl
  simp only [decodeFixed64, encodeFixed64, List.cons_append, List.getD_cons_zero,
    List.getD_cons_succ]
  apply UInt64.toBitVec_inj.mp
  apply BitVec.eq_of_getLsbD_eq
  intro i hi
  simp only [UInt64.toBitVec_or, UInt64.toBitVec_shiftLeft, UInt8.toBitVec_toUInt64,
    UInt64.toBitVec_toUInt8, UInt64.toBitVec_shiftRight, BitVec.getLsbD_or,
    BitVec.getLsbD_setWidth, BitVec.shiftLeft_eq', BitVec.ushiftRight_eq',
    BitVec.getLsbD_shiftLeft, BitVec.getLsbD_ushiftRight, h8, h16, h24, h32, h40, h48, h56]
  grind

/-- Word `i` of an array of words is read at byte `4 * i`. -/
theorem decodeFixed32_drop_words (words : List UInt32) (rest : Bytes) {i : ℕ}
    (hi : i < words.length) :
    decodeFixed32 (((words.map encodeFixed32).flatten ++ rest).drop (4 * i)) =
      words.getD i 0 := by
  induction words generalizing i with
  | nil => simp at hi
  | cons word words ih =>
    rw [List.map_cons, List.flatten_cons, List.append_assoc]
    cases i with
    | zero => simp
    | succ i =>
      have hdrop : 4 * (i + 1) = (encodeFixed32 word).length + 4 * i := by
        rw [length_encodeFixed32]
        omega
      rw [hdrop, ← List.drop_drop, List.drop_left, ih (by simpa using hi), List.getD_cons_succ]

theorem length_flatten_encodeFixed32 (words : List UInt32) :
    (words.map encodeFixed32).flatten.length = 4 * words.length := by
  induction words with
  | nil => rfl
  | cons word words ih =>
    rw [List.map_cons, List.flatten_cons, List.length_append, ih, length_encodeFixed32,
      List.length_cons]
    omega

end TinyLeveldb
