import TinyLeveldb.Crc32c
import TinyLeveldb.Library.XorLinear

/-!
# The strides of `Extend` compute the byte-by-byte checksum

The checksum register is a linear feedback shift register (`bitStep`), and all five tables list
values of its iterates: the byte table those of 8 steps at a byte, the four stride tables those
of 128 steps at a byte in each of the four positions of a word. A lane therefore advances by 128
steps at once (`step4_eq`), and the four lanes together stand for one register
(`Lanes.combined`), which every round of the loops moves past the bytes it reads.
-/

namespace TinyLeveldb

namespace Crc32c

open Library

/-! ### The shift register -/

/-- The Castagnoli polynomial, its lowest power in the highest bit. -/
def poly : UInt32 := 0x82f63b78

/-- One step of the shift register of the polynomial. -/
def bitStep (l : UInt32) : UInt32 := if l &&& 1 = 0 then l >>> 1 else (l >>> 1) ^^^ poly

/-- The steps that one byte takes. -/
def byteStep : UInt32 → UInt32 := bitStep^[8]

/-- The steps that one word takes. -/
def wordStep : UInt32 → UInt32 := byteStep^[4]

theorem and_one_eq (l : UInt32) : l &&& 1 = 0 ∨ l &&& 1 = 1 := by
  have h : (l &&& 1).toNat = l.toNat % 2 := by
    rw [UInt32.toNat_and]
    exact Nat.and_one_is_mod _
  rcases Nat.mod_two_eq_zero_or_one l.toNat with hl | hl
  · exact .inl (UInt32.toNat_inj.mp (h.trans hl))
  · exact .inr (UInt32.toNat_inj.mp (h.trans hl))

theorem xorLinear_bitStep : XorLinear bitStep := by
  intro a b
  have hlow : (a ^^^ b) &&& 1 = (a &&& 1) ^^^ (b &&& 1) := XorLinear.and 1 a b
  have hshift : (a ^^^ b) >>> 1 = (a >>> 1) ^^^ (b >>> 1) := XorLinear.shiftRight 1 a b
  simp only [bitStep, hlow, hshift]
  rcases and_one_eq a with ha | ha <;> rcases and_one_eq b with hb | hb <;> rw [ha, hb]
  · rfl
  · exact UInt32.xor_assoc _ _ _
  · change a >>> 1 ^^^ b >>> 1 ^^^ poly = a >>> 1 ^^^ poly ^^^ b >>> 1
    ac_rfl
  · -- the polynomial is added twice and cancels
    change a >>> 1 ^^^ b >>> 1 = a >>> 1 ^^^ poly ^^^ (b >>> 1 ^^^ poly)
    rw [UInt32.xor_comm (b >>> 1), ← UInt32.xor_assoc, UInt32.xor_assoc (a >>> 1),
      UInt32.xor_self, UInt32.xor_zero]

theorem xorLinear_byteStep : XorLinear byteStep := xorLinear_bitStep.iterate 8

theorem xorLinear_wordStep : XorLinear wordStep := xorLinear_byteStep.iterate 4

/-! ### The tables -/

/-- The byte table holds what eight steps of the register do to a byte, the stride tables what a
swath of four words does to the bytes of a lane. -/
theorem isXorTables :
    IsXorTable 8 byteStep byteExtensionTable ∧
      IsXorTable 8 wordStep^[4] strideExtensionTable3 ∧
      IsXorTable 8 (wordStep^[4] ∘ (· <<< 8)) strideExtensionTable2 ∧
      IsXorTable 8 (wordStep^[4] ∘ (· <<< 16)) strideExtensionTable1 ∧
      IsXorTable 8 (wordStep^[4] ∘ (· <<< 24)) strideExtensionTable0 := by
  decide +kernel

/-! ### One byte and one word of input -/

/-- A byte of the register runs through the table, the rest of it moves down. -/
theorem byteStep_eq (l : UInt32) : byteStep l = byteStep (l &&& 0xff) ^^^ (l >>> 8) := by
  have hsplit : byteStep = fun l => byteStep (l &&& 0xff) ^^^ (l >>> 8) :=
    xorLinear_byteStep.ext ((xorLinear_byteStep.comp (XorLinear.and 0xff)).xor
      (XorLinear.shiftRight 8)) (by decide +kernel)
  exact congrFun hsplit l

theorem toNat_and_ff_lt (l : UInt32) : (l &&& 0xff).toNat < 2 ^ 8 := by
  rw [UInt32.toNat_and]
  exact Nat.and_lt_two_pow _ (by decide)

theorem byteExtensionTable_getD (l : UInt32) :
    byteExtensionTable.getD (l &&& 0xff).toNat 0 = byteStep (l &&& 0xff) :=
  isXorTables.1.getD_eq xorLinear_byteStep (by decide) (toNat_and_ff_lt l)

theorem step4wRound_eq (w : UInt32) : step4wRound w = byteStep w := by
  rw [step4wRound, byteExtensionTable_getD, UInt32.xor_comm, ← byteStep_eq]

theorem step4w_eq (l w : UInt32) : step4w l w = wordStep (w ^^^ l) := by
  simp only [step4w, step4wRound_eq]
  rfl

theorem toUInt32_and_ff (byte : UInt8) : byte.toUInt32 &&& 0xff = byte.toUInt32 := by
  apply UInt32.toNat_inj.mp
  rw [UInt32.toNat_and, UInt8.toNat_toUInt32]
  exact Nat.and_two_pow_sub_one_of_lt_two_pow (n := 8) byte.toNat_lt

theorem step1_eq (l : UInt32) (byte : UInt8) : step1 l byte = byteStep (l ^^^ byte.toUInt32) := by
  have hindex : (l &&& 0xff).toNat ^^^ byte.toNat = ((l ^^^ byte.toUInt32) &&& 0xff).toNat := by
    have hand := XorLinear.and 0xff l byte.toUInt32
    simp only [toUInt32_and_ff] at hand
    rw [hand, UInt32.toNat_xor, UInt8.toNat_toUInt32]
  have hhigh : (l ^^^ byte.toUInt32) >>> 8 = l >>> 8 := by
    have hzero : byte.toUInt32 >>> 8 = 0 := by
      apply UInt32.toNat_inj.mp
      rw [UInt32.toNat_shiftRight, UInt8.toNat_toUInt32]
      exact Nat.shiftRight_eq_zero _ _ byte.toNat_lt
    have hshift := XorLinear.shiftRight 8 l byte.toUInt32
    simp only [hzero, UInt32.xor_zero] at hshift
    exact hshift
  rw [step1, hindex, byteExtensionTable_getD, byteStep_eq (l ^^^ byte.toUInt32), hhigh]

/-- Steps on a byte at the top of the register bring it down to the bottom. -/
theorem byteStep_iterate_shiftLeft (byte : UInt8) :
    byteStep (byte.toUInt32 <<< 8) = byte.toUInt32 ∧
    byteStep^[2] (byte.toUInt32 <<< 16) = byte.toUInt32 ∧
    byteStep^[3] (byte.toUInt32 <<< 24) = byte.toUInt32 := by
  have h1 : (fun x : UInt32 => byteStep ((x &&& 0xff) <<< 8)) = (· &&& 0xff) :=
    ((xorLinear_byteStep.comp (.shiftLeft 8)).comp (.and 0xff)).ext (.and 0xff)
      (by decide +kernel)
  have h2 : (fun x : UInt32 => byteStep^[2] ((x &&& 0xff) <<< 16)) = (· &&& 0xff) :=
    (((xorLinear_byteStep.iterate 2).comp (.shiftLeft 16)).comp (.and 0xff)).ext (.and 0xff)
      (by decide +kernel)
  have h3 : (fun x : UInt32 => byteStep^[3] ((x &&& 0xff) <<< 24)) = (· &&& 0xff) :=
    (((xorLinear_byteStep.iterate 3).comp (.shiftLeft 24)).comp (.and 0xff)).ext (.and 0xff)
      (by decide +kernel)
  have h1 := congrFun h1 byte.toUInt32
  have h2 := congrFun h2 byte.toUInt32
  have h3 := congrFun h3 byte.toUInt32
  simp only [toUInt32_and_ff] at h1 h2 h3
  exact ⟨h1, h2, h3⟩

/-- The four bytes of a word do not overlap. -/
theorem decodeFixed32_eq_xor (p : Bytes) :
    decodeFixed32 p = (p.getD 0 0).toUInt32 ^^^ ((p.getD 1 0).toUInt32 <<< 8) ^^^
      ((p.getD 2 0).toUInt32 <<< 16) ^^^ ((p.getD 3 0).toUInt32 <<< 24) := by
  have h8 : ((8 : UInt32).toBitVec % (32 : BitVec 32)).toNat = 8 := rfl
  have h16 : ((16 : UInt32).toBitVec % (32 : BitVec 32)).toNat = 16 := rfl
  have h24 : ((24 : UInt32).toBitVec % (32 : BitVec 32)).toNat = 24 := rfl
  rw [decodeFixed32]
  apply UInt32.toBitVec_inj.mp
  apply BitVec.eq_of_getLsbD_eq
  intro i hi
  simp only [UInt32.toBitVec_or, UInt32.toBitVec_xor, UInt32.toBitVec_shiftLeft,
    UInt8.toBitVec_toUInt32, BitVec.getLsbD_or, BitVec.getLsbD_xor, BitVec.getLsbD_setWidth,
    BitVec.shiftLeft_eq', BitVec.getLsbD_shiftLeft, h8, h16, h24]
  grind

/-- Four bytes fold into the register as the word they encode. -/
theorem byteStep_word (l : UInt32) (b0 b1 b2 b3 : UInt8) (rest : Bytes) :
    byteStep (byteStep (byteStep (byteStep (l ^^^ b0.toUInt32) ^^^ b1.toUInt32) ^^^
      b2.toUInt32) ^^^ b3.toUInt32) =
    wordStep (decodeFixed32 (b0 :: b1 :: b2 :: b3 :: rest) ^^^ l) := by
  have h1 : byteStep (b1.toUInt32 <<< 8) = b1.toUInt32 := (byteStep_iterate_shiftLeft b1).1
  have h2 : byteStep (byteStep (b2.toUInt32 <<< 16)) = b2.toUInt32 :=
    (byteStep_iterate_shiftLeft b2).2.1
  have h3 : byteStep (byteStep (byteStep (b3.toUInt32 <<< 24))) = b3.toUInt32 :=
    (byteStep_iterate_shiftLeft b3).2.2
  have hword (x : UInt32) : wordStep x = byteStep (byteStep (byteStep (byteStep x))) := rfl
  have hxor (x y : UInt32) : byteStep (x ^^^ y) = byteStep x ^^^ byteStep y :=
    xorLinear_byteStep x y
  rw [decodeFixed32_eq_xor, hword]
  simp only [List.getD_cons_zero, List.getD_cons_succ, hxor, h1, h2, h3]
  ac_rfl

theorem foldl_step1_word (l : UInt32) {p : Bytes} (hp : 4 ≤ p.length) :
    p.foldl step1 l = (p.drop 4).foldl step1 (wordStep (decodeFixed32 p ^^^ l)) := by
  obtain ⟨b0, b1, b2, b3, rest, rfl⟩ : ∃ b0 b1 b2 b3 rest, p = b0 :: b1 :: b2 :: b3 :: rest := by
    match p, hp with
    | b0 :: b1 :: b2 :: b3 :: rest, _ => exact ⟨b0, b1, b2, b3, rest, rfl⟩
  rw [← byteStep_word]
  simp only [List.foldl_cons, List.drop_succ_cons, List.drop_zero, step1_eq]

/-- A word is the exclusive or of its four bytes, each in its place. -/
theorem word_eq_bytes (crc : UInt32) :
    crc = (crc &&& (0xff : UInt32)) ^^^ (((crc >>> 8) &&& (0xff : UInt32)) <<< 8) ^^^
      (((crc >>> 16) &&& (0xff : UInt32)) <<< 16) ^^^ ((crc >>> 24) <<< 24) := by
  have hplace (k : UInt32) : XorLinear fun x => ((x >>> k) &&& (0xff : UInt32)) <<< k :=
    ((XorLinear.shiftLeft k).comp (.and 0xff)).comp (.shiftRight k)
  have hlin := (((XorLinear.and 0xff).xor (hplace 8)).xor (hplace 16)).xor
    ((XorLinear.shiftLeft 24).comp (.shiftRight 24))
  exact congrFun (XorLinear.id.ext hlin (by decide +kernel)) crc

/-- `STEP4` moves a lane past the four words of a swath and reads the next one. -/
theorem step4_eq (crc : UInt32) (p : Bytes) :
    step4 crc p = decodeFixed32 p ^^^ wordStep^[4] crc := by
  have hlin : XorLinear wordStep^[4] := xorLinear_wordStep.iterate 4
  have hxor (x y : UInt32) : wordStep^[4] (x ^^^ y) = wordStep^[4] x ^^^ wordStep^[4] y :=
    hlin x y
  have htop : (crc >>> 24).toNat < 2 ^ 8 := by
    rw [UInt32.toNat_shiftRight, Nat.shiftRight_eq_div_pow]
    have := crc.toNat_lt
    simp only [UInt32.reduceToNat, Nat.reduceMod]
    omega
  obtain ⟨-, hstride3, hstride2, hstride1, hstride0⟩ := isXorTables
  rw [step4, hstride3.getD_eq hlin (by decide) (toNat_and_ff_lt _),
    hstride2.getD_eq (hlin.comp (.shiftLeft 8)) (by decide) (toNat_and_ff_lt _),
    hstride1.getD_eq (hlin.comp (.shiftLeft 16)) (by decide) (toNat_and_ff_lt _),
    hstride0.getD_eq (hlin.comp (.shiftLeft 24)) (by decide) htop]
  conv_rhs => rw [word_eq_bytes crc]
  simp only [Function.comp_apply, hxor]
  ac_rfl

/-! ### The four lanes -/

/-- The register that the four lanes stand for: the word each of them still carries, read one
after the other. -/
def Lanes.combined (c : Lanes) : UInt32 :=
  wordStep (c.crc3 ^^^ wordStep (c.crc2 ^^^ wordStep (c.crc1 ^^^ wordStep c.crc0)))

/-- One round of the loop over single words: lane `0` reads a word and goes last. -/
def Lanes.rotate (c : Lanes) (p : Bytes) : Lanes := ⟨c.crc1, c.crc2, c.crc3, step4 c.crc0 p⟩

theorem Lanes.combined_rotate (c : Lanes) (p : Bytes) :
    (c.rotate p).combined = wordStep (decodeFixed32 p ^^^ c.combined) := by
  simp only [combined, rotate, step4_eq]
  rw [xorLinear_wordStep.interleave]

/-- `STEP16` is four single words: the lanes are back in their places. -/
theorem step16_eq_rotate (c : Lanes) (p : Bytes) :
    step16 c p = (((c.rotate p).rotate (p.drop 4)).rotate (p.drop 8)).rotate (p.drop 12) := rfl

theorem foldl_step1_rotate (c : Lanes) {p : Bytes} (hp : 4 ≤ p.length) :
    (p.drop 4).foldl step1 (c.rotate p).combined = p.foldl step1 c.combined := by
  rw [Lanes.combined_rotate, ← foldl_step1_word _ hp]

theorem foldl_step1_step16 (c : Lanes) {p : Bytes} (hp : 16 ≤ p.length) :
    (p.drop 16).foldl step1 (step16 c p).combined = p.foldl step1 c.combined := by
  have h4 : 4 ≤ (p.drop 4).length := by rw [List.length_drop]; omega
  have h8 : 4 ≤ (p.drop 8).length := by rw [List.length_drop]; omega
  have h12 : 4 ≤ (p.drop 12).length := by rw [List.length_drop]; omega
  rw [← foldl_step1_rotate c (by omega), ← foldl_step1_rotate _ h4, List.drop_drop,
    ← foldl_step1_rotate _ h8, List.drop_drop, ← foldl_step1_rotate _ h12, List.drop_drop,
    step16_eq_rotate]

/-! ### The loops

Each loop hands on lanes and a rest of the input that still lead to the same checksum. -/

theorem foldl_step1_swaths (fuel : ℕ) (c : Lanes) (p : Bytes) :
    (swaths fuel c p).2.foldl step1 (swaths fuel c p).1.combined = p.foldl step1 c.combined := by
  induction fuel generalizing c p with
  | zero => rfl
  | succ fuel ih =>
    rw [swaths]
    split
    · rename_i hp
      rw [ih, foldl_step1_step16 c hp]
    · rfl

theorem foldl_step1_words (fuel : ℕ) (c : Lanes) (p : Bytes) :
    (words fuel c p).2.foldl step1 (words fuel c p).1.combined = p.foldl step1 c.combined := by
  induction fuel generalizing c p with
  | zero => rfl
  | succ fuel ih =>
    rw [words]
    split
    · rename_i hp
      rw [ih]
      exact foldl_step1_rotate c hp
    · rfl

theorem step4w_combined (c : Lanes) :
    step4w (step4w (step4w (step4w 0 c.crc0) c.crc1) c.crc2) c.crc3 = c.combined := by
  simp only [step4w_eq, UInt32.xor_zero, Lanes.combined]

/-- The lanes that the first swath fills stand for the register after that swath. -/
theorem foldl_step1_extendStrides (l : UInt32) {p : Bytes} (hp : 16 ≤ p.length) :
    (extendStrides l p).2.foldl step1 (extendStrides l p).1 = p.foldl step1 l := by
  have h4 : 4 ≤ (p.drop 4).length := by rw [List.length_drop]; omega
  have h8 : 4 ≤ (p.drop 8).length := by rw [List.length_drop]; omega
  have h12 : 4 ≤ (p.drop 12).length := by rw [List.length_drop]; omega
  simp only [extendStrides, step4w_combined]
  rw [foldl_step1_words, foldl_step1_swaths, foldl_step1_word (p := p) l (by omega),
    foldl_step1_word _ h4, List.drop_drop, foldl_step1_word _ h8, List.drop_drop,
    foldl_step1_word _ h12, List.drop_drop]
  rfl

theorem foldl_step1_extendAlign (address : ℕ) (l : UInt32) (p : Bytes) :
    (extendAlign address l p).2.foldl step1 (extendAlign address l p).1 = p.foldl step1 l := by
  simp only [extendAlign]
  split
  · rw [← List.foldl_append, List.take_append_drop]
  · rfl

/-! ### The checksum -/

/-- One byte, with the whole register and the byte mixed before the table is read. -/
def plainStep (l : UInt32) (byte : UInt8) : UInt32 :=
  byteExtensionTable.getD ((l ^^^ byte.toUInt32) &&& 0xff).toNat 0 ^^^ (l >>> 8)

/-- The checksum of a byte string, one byte at a time. -/
def plainExtend (crc : UInt32) (data : Bytes) : UInt32 :=
  data.foldl plainStep (crc ^^^ 0xffffffff) ^^^ 0xffffffff

theorem plainStep_eq_step1 : plainStep = step1 := by
  funext l byte
  have hand : (l ^^^ byte.toUInt32) &&& 0xff = (l &&& 0xff) ^^^ (byte.toUInt32 &&& 0xff) :=
    XorLinear.and 0xff l _
  rw [plainStep, step1, hand, toUInt32_and_ff, UInt32.toNat_xor, UInt8.toNat_toUInt32]

theorem extend_eq_plainExtend (address : ℕ) (crc : UInt32) (data : Bytes) :
    extend address crc data = plainExtend crc data := by
  rw [plainExtend, plainStep_eq_step1, extend, ← foldl_step1_extendAlign address _ data]
  simp only
  split
  · rename_i hp
    rw [foldl_step1_extendStrides _ hp]
  · rfl

theorem plainExtend_append (crc : UInt32) (a b : Bytes) :
    plainExtend (plainExtend crc a) b = plainExtend crc (a ++ b) := by
  simp only [plainExtend, List.foldl_append]
  rw [UInt32.xor_assoc _ 0xffffffff, UInt32.xor_self, UInt32.xor_zero]

/-- The table has another word for every byte: only that of zero is zero. -/
theorem byteStep_injective : Function.Injective fun byte : UInt8 => byteStep byte.toUInt32 := by
  intro a b hab
  have hword : byteStep (a ^^^ b).toUInt32 = 0 := by
    rw [UInt8.toUInt32_xor, xorLinear_byteStep]
    exact UInt32.xor_eq_zero_iff.mpr hab
  have hzero : ∀ i < 2 ^ 8, byteExtensionTable.getD i 0 = 0 → i = 0 := by decide +kernel
  have hgetD := byteExtensionTable_getD (a ^^^ b).toUInt32
  rw [toUInt32_and_ff, UInt8.toNat_toUInt32, hword] at hgetD
  have hxor : (a ^^^ b).toNat = 0 := hzero _ (UInt8.toNat_lt _) hgetD
  exact UInt8.xor_eq_zero_iff.mp (UInt8.toNat_inj.mp hxor)

/-- A checksum that is extended by one byte shows which. -/
theorem extend_singleton_inj {address address' : ℕ} {crc : UInt32} {a b : UInt8} :
    extend address crc [a] = extend address' crc [b] ↔ a = b := by
  simp only [extend_eq_plainExtend, plainExtend, List.foldl_cons, List.foldl_nil,
    plainStep_eq_step1, step1_eq, xorLinear_byteStep _ (UInt8.toUInt32 _), UInt32.xor_left_inj,
    UInt32.xor_right_inj]
  exact byteStep_injective.eq_iff

/-- The strides compute the plain checksum at every alignment, and so a checksum extends over
a concatenation, wherever its parts lie. -/
theorem extend_plain :
    (∀ (address : ℕ) (crc : UInt32) (data : Bytes),
      extend address crc data = plainExtend crc data) ∧
    ∀ (address₁ address₂ address : ℕ) (crc : UInt32) (a b : Bytes),
      extend address₂ (extend address₁ crc a) b = extend address crc (a ++ b) := by
  constructor
  · exact extend_eq_plainExtend
  · intro address₁ address₂ address crc a b
    rw [extend_eq_plainExtend, extend_eq_plainExtend, extend_eq_plainExtend, plainExtend_append]

end Crc32c

end TinyLeveldb
