import TinyLeveldb.Crc32c.Extend
import TinyLeveldb.Library.ShiftRegister
import Mathlib.NumberTheory.LucasLehmer

/-!
# What the checksum detects

The register of `Extend` reads the bits of its bytes, the lowest first (`foldl_step1_eq`), so the
checksums of two strings of one length differ by what the register makes of the bits in which the
strings differ (`extend_xor_extend`). These are never zero when the differing bits

* lie within 32 consecutive bits,
* are odd in number, the polynomial having the factor `x + 1` (`parityWord_bitStep`), or
* are two, less than `2 ^ 31 - 1` bits apart, which is the period of the register
  (`minimalPeriod_bitStep`).
-/

namespace TinyLeveldb

open Library

namespace Crc32c

/-! ### The bits of a string -/

/-- The bits of a byte, in the order in which the register reads them. -/
def bitsOf (byte : UInt8) : List Bool := (List.range 8).map byte.toNat.testBit

/-- The bits of a string. -/
def bits (data : Bytes) : List Bool := data.flatMap bitsOf

/-- The bits in which two strings differ. -/
def errors (data data' : Bytes) : List Bool := (bits data).zipWith xor (bits data')

theorem length_bitsOf (byte : UInt8) : (bitsOf byte).length = 8 := by
  rw [bitsOf, List.length_map, List.length_range]

theorem bits_cons (byte : UInt8) (data : Bytes) :
    bits (byte :: data) = bitsOf byte ++ bits data := List.flatMap_cons

theorem length_bits (data : Bytes) : (bits data).length = 8 * data.length := by
  induction data with
  | nil => rfl
  | cons byte data ih =>
    rw [bits_cons, List.length_append, length_bitsOf, List.length_cons]
    omega

theorem wordOf_bitsOf (byte : UInt8) : wordOf (bitsOf byte) = byte.toUInt32 := by
  have hall : ∀ n < 256, wordOf (bitsOf (UInt8.ofNat n)) = (UInt8.ofNat n).toUInt32 := by
    decide +kernel
  have hbyte := hall byte.toNat byte.toNat_lt
  rwa [UInt8.ofNat_toNat] at hbyte

theorem bitsOf_injective : Function.Injective bitsOf := by
  intro a b hab
  have hword : a.toUInt32 = b.toUInt32 := by rw [← wordOf_bitsOf, ← wordOf_bitsOf, hab]
  apply UInt8.toNat_inj.mp
  rw [← UInt8.toNat_toUInt32, hword, UInt8.toNat_toUInt32]

theorem bits_injective : Function.Injective bits := by
  intro data data' h
  induction data generalizing data' with
  | nil =>
    have hlen := congrArg List.length h
    rw [length_bits, length_bits] at hlen
    exact (List.length_eq_zero_iff.mp (by simpa using hlen.symm)).symm
  | cons a data ih =>
    rcases data' with _ | ⟨b, data'⟩
    · have hlen := congrArg List.length h
      rw [length_bits, length_bits] at hlen
      simp at hlen
    · obtain ⟨hhead, htail⟩ := List.append_inj (by simpa only [bits_cons] using h)
        (by rw [length_bitsOf, length_bitsOf])
      rw [bitsOf_injective hhead, ih htail]

/-! ### The register reads bits -/

theorem bitStep_shiftLeft {w : UInt32} (hw : w.toNat < 2 ^ 31) : bitStep (w <<< 1) = w := by
  have hnat : (w <<< 1).toNat = 2 * w.toNat := by
    rw [toNat_shiftLeft_one]
    omega
  have hlow : (w <<< 1) &&& 1 = 0 := by
    apply UInt32.toNat_inj.mp
    rw [UInt32.toNat_and, hnat]
    exact (Nat.and_one_is_mod _).trans (Nat.mul_mod_right 2 _)
  rw [bitStep, if_pos hlow]
  apply UInt32.toNat_inj.mp
  rw [UInt32.toNat_shiftRight, hnat, Nat.shiftRight_eq_div_pow]
  exact Nat.mul_div_cancel_left _ (by decide)

/-- The highest bit of the polynomial is set: a step loses nothing. -/
theorem bitStep_injective : Function.Injective bitStep := by
  intro a b hab
  refine UInt32.xor_eq_zero_iff.mp ?_
  obtain ⟨w, hw⟩ : ∃ w, w = a ^^^ b := ⟨_, rfl⟩
  have hzero : bitStep w = 0 := by
    rw [hw, xorLinear_bitStep]
    exact UInt32.xor_eq_zero_iff.mpr hab
  have hhalf : (w >>> 1).toNat = w.toNat / 2 := by
    rw [UInt32.toNat_shiftRight, Nat.shiftRight_eq_div_pow]
    rfl
  have hand : (w &&& 1).toNat = w.toNat % 2 := by
    rw [UInt32.toNat_and]
    exact Nat.and_one_is_mod _
  rw [← hw]
  apply UInt32.toNat_inj.mp
  rw [bitStep] at hzero
  split at hzero
  · rename_i hlow
    rw [hlow] at hand
    rw [hzero] at hhalf
    change 0 = _ at hand hhalf
    change _ = 0
    omega
  · -- the shifted word has no bit as high as the polynomial's highest
    rw [UInt32.xor_eq_zero_iff.mp hzero] at hhalf
    change 0x82f63b78 = _ at hhalf
    have := w.toNat_lt
    omega

theorem step1_eq_foldl (l : UInt32) (byte : UInt8) :
    step1 l byte = (bitsOf byte).foldl (shiftIn bitStep) l := by
  rw [step1_eq, foldl_shiftIn_eq_iterate (fun _ => bitStep_shiftLeft) xorLinear_bitStep
    (by rw [length_bitsOf]; decide), wordOf_bitsOf, length_bitsOf, byteStep]

theorem foldl_step1_eq (l : UInt32) (data : Bytes) :
    data.foldl step1 l = (bits data).foldl (shiftIn bitStep) l := by
  induction data generalizing l with
  | nil => rfl
  | cons byte data ih =>
    rw [List.foldl_cons, ih, step1_eq_foldl, bits_cons, List.foldl_append]

/-- **The checksums differ by what the register makes of the differing bits.** -/
theorem extend_xor_extend {data data' : Bytes} (hlen : data.length = data'.length)
    (address address' : ℕ) (crc : UInt32) :
    extend address crc data ^^^ extend address' crc data' =
      (errors data data').foldl (shiftIn bitStep) 0 := by
  have hbits : (bits data).length = (bits data').length := by rw [length_bits, length_bits, hlen]
  have hmask (x y : UInt32) : (x ^^^ 0xffffffff) ^^^ (y ^^^ 0xffffffff) = x ^^^ y := by
    rw [UInt32.xor_comm y, ← UInt32.xor_assoc, UInt32.xor_assoc x, UInt32.xor_self,
      UInt32.xor_zero]
  simp only [extend_eq_plainExtend, plainExtend, plainStep_eq_step1, hmask, foldl_step1_eq]
  rw [foldl_shiftIn_xor xorLinear_bitStep hbits, UInt32.xor_self, errors]

/-! ### Parity -/

/-- The exclusive or of the bits of a word, as its lowest bit. -/
def parityWord (w : UInt32) : UInt32 :=
  xorShift 1 (xorShift 2 (xorShift 4 (xorShift 8 (xorShift 16 w)))) &&& 1

theorem xorLinear_parityWord : XorLinear parityWord :=
  (XorLinear.and 1).comp ((XorLinear.xorShift 1).comp ((XorLinear.xorShift 2).comp
    ((XorLinear.xorShift 4).comp ((XorLinear.xorShift 8).comp (.xorShift 16)))))

/-- The polynomial has an even number of terms, the highest included: a step keeps the parity. -/
theorem parityWord_bitStep (w : UInt32) : parityWord (bitStep w) = parityWord w :=
  congrFun ((xorLinear_parityWord.comp xorLinear_bitStep).ext xorLinear_parityWord
    (by decide)) w

theorem foldl_shiftIn_bitStep_odd {u : List Bool} (hu : u.count true % 2 = 1) :
    u.foldl (shiftIn bitStep) 0 ≠ 0 := by
  have hand : ∀ w : UInt32, parityWord w = 0 ∨ parityWord w = 1 := fun _ => and_one_eq _
  refine foldl_shiftIn_odd_ne_zero (φ := fun w => decide (parityWord w = 1)) (fun a b => ?_)
    (by decide) (fun w => by rw [parityWord_bitStep]) hu
  rw [xorLinear_parityWord a b]
  rcases hand a with ha | ha <;> rcases hand b with hb | hb <;> rw [ha, hb] <;> decide

/-! ### The period -/

/-- **The period of the register** is the Mersenne prime `2 ^ 31 - 1`. -/
theorem minimalPeriod_bitStep : Function.minimalPeriod bitStep 1 = 2 ^ 31 - 1 := by
  have hprime : Nat.Prime (2 ^ 31 - 1) := lucas_lehmer_sufficiency 31 (by decide) (by norm_num)
  have hround : bitStep^[2 ^ 31] 1 = bitStep 1 := by
    rw [← xorSum_squares xorLinear_bitStep]
    decide +kernel
  have hback : Function.IsPeriodicPt bitStep (2 ^ 31 - 1) 1 := by
    apply bitStep_injective
    rw [← Function.iterate_succ_apply' bitStep]
    exact hround
  have := Fact.mk hprime
  exact Function.minimalPeriod_eq_prime hback (by decide : bitStep 1 ≠ 1)

/-! ### What is detected -/

/-- Bits in error that the register cannot miss. -/
inductive Detected (e : List Bool) : Prop
  /-- They lie within 32 consecutive bits. -/
  | burst (n m : ℕ) (u : List Bool)
      (heq : e = List.replicate n false ++ u ++ List.replicate m false) (hlen : u.length ≤ 32)
      (hmem : true ∈ u)
  /-- They are odd in number. -/
  | odd (h : e.count true % 2 = 1)
  /-- They are two, less than a period apart. -/
  | pair (n k m : ℕ) (heq : e = List.replicate n false ++ true :: (List.replicate k false ++
        true :: List.replicate m false)) (hk : k + 1 < 2 ^ 31 - 1)

theorem Detected.foldl_ne_zero {e : List Bool} (h : Detected e) :
    e.foldl (shiftIn bitStep) 0 ≠ 0 := by
  cases h with
  | burst n m u heq hlen hmem =>
    rw [heq]
    exact foldl_shiftIn_burst_ne_zero (fun _ => bitStep_shiftLeft) xorLinear_bitStep
      bitStep_injective hlen hmem n m
  | odd h => exact foldl_shiftIn_bitStep_odd h
  | pair n k m heq hk =>
    rw [heq]
    exact foldl_shiftIn_pair_ne_zero xorLinear_bitStep bitStep_injective
      (by rwa [minimalPeriod_bitStep]) n m

section Strings

variable {data data' : Bytes}

theorem length_errors (hlen : data.length = data'.length) :
    (errors data data').length = 8 * data.length := by
  rw [errors, List.length_zipWith, length_bits, length_bits, ← hlen, Nat.min_self]

/-- Strings that differ differ in a bit. -/
theorem true_mem_errors (hlen : data.length = data'.length) (hne : data ≠ data') :
    true ∈ errors data data' := by
  by_contra hnone
  refine hne (bits_injective (List.ext_getElem (by rw [length_bits, length_bits, hlen]) ?_))
  intro i hi hi'
  have hmem : ((bits data)[i] ^^ (bits data')[i]) ∈ errors data data' := by
    refine List.mem_iff_getElem.mpr ⟨i, ?_, by simp [errors]⟩
    rwa [length_errors hlen, ← length_bits]
  rcases hbit : (bits data)[i] ^^ (bits data')[i] with _ | _
  · simpa using hbit
  · exact absurd (hbit ▸ hmem) hnone

theorem detected_burst (hlen : data.length = data'.length) (hne : data ≠ data') {n : ℕ}
    (hburst : ∀ i, (errors data data')[i]? = some true → n ≤ i ∧ i < n + 32) :
    Detected (errors data data') := by
  obtain ⟨n, u, m, heq, hu, hmem⟩ := exists_burst (true_mem_errors hlen hne) hburst
  exact .burst n m u heq hu hmem

theorem detected_flips (hlen : data.length = data'.length)
    (hflips : (errors data data').count true % 2 = 1 ∨
      (errors data data').count true = 2 ∧ data.length < 2 ^ 28) :
    Detected (errors data data') := by
  rcases hflips with hodd | ⟨htwo, hshort⟩
  · exact .odd hodd
  · obtain ⟨n, k, m, heq⟩ := exists_pair htwo
    have hlength := congrArg List.length heq
    rw [length_errors hlen] at hlength
    simp only [List.length_append, List.length_cons, List.length_replicate] at hlength
    exact .pair n k m heq (by omega)

/-- Equal bytes do not bring different checksums together. -/
theorem extend_left_injective (address address' : ℕ) {crc crc' : UInt32}
    (h : extend address crc data = extend address' crc' data) : crc = crc' := by
  simp only [extend_eq_plainExtend, plainExtend, plainStep_eq_step1, foldl_step1_eq,
    UInt32.xor_left_inj] at h
  have hxor := foldl_shiftIn_xor xorLinear_bitStep (u := bits data) rfl (crc ^^^ 0xffffffff)
    (crc' ^^^ 0xffffffff)
  have hnone : (bits data).zipWith xor (bits data) = List.replicate (bits data).length false := by
    rw [List.zipWith_self, List.eq_replicate_iff]
    simp
  rw [h, UInt32.xor_self, hnone, foldl_shiftIn_replicate] at hxor
  have hzero : (crc ^^^ 0xffffffff) ^^^ (crc' ^^^ 0xffffffff) = 0 := by
    by_contra hne
    exact xorLinear_bitStep.iterate_ne_zero bitStep_injective hne _ hxor.symm
  exact (UInt32.xor_left_inj _).mp (UInt32.xor_eq_zero_iff.mp hzero)

theorem extend_ne_of_detected (hlen : data.length = data'.length)
    (h : Detected (errors data data')) (address address' : ℕ) (crc : UInt32) :
    extend address crc data ≠ extend address' crc data' := by
  intro heq
  refine h.foldl_ne_zero ?_
  rw [← extend_xor_extend hlen address address' crc, heq, UInt32.xor_self]

/-- **Bursts are detected.** Strings that differ, but only within 32 consecutive bits, have
different checksums. -/
theorem extend_ne_of_burst (hlen : data.length = data'.length) (hne : data ≠ data') {n : ℕ}
    (hburst : ∀ i, (errors data data')[i]? = some true → n ≤ i ∧ i < n + 32)
    (address address' : ℕ) (crc : UInt32) :
    extend address crc data ≠ extend address' crc data' :=
  extend_ne_of_detected hlen (detected_burst hlen hne hburst) address address' crc

/-- Five bytes that differ in bits 4 to 35. -/
theorem extend_ne_of_burst_fiveBytes :
    extend 0 0 [0x00, 0x00, 0x00, 0x00, 0x00] ≠ extend 1 0 [0xf0, 0xff, 0xff, 0xff, 0x0f] := by
  obtain ⟨data, data', hdata, hdata'⟩ : ∃ data data' : Bytes,
      data = [0x00, 0x00, 0x00, 0x00, 0x00] ∧ data' = [0xf0, 0xff, 0xff, 0xff, 0x0f] :=
    ⟨_, _, rfl, rfl⟩
  have hlen : data.length = data'.length := by rw [hdata, hdata']; rfl
  have hall : ∀ i < 40, (errors data data')[i]? = some true → 4 ≤ i ∧ i < 4 + 32 := by
    rw [hdata, hdata']
    decide +kernel
  rw [← hdata, ← hdata']
  refine extend_ne_of_burst hlen (by rw [hdata, hdata']; decide) (fun i hi => hall i ?_ hi) 0 1 0
  have := (List.getElem?_eq_some_iff.mp hi).1
  rwa [length_errors hlen, hdata] at this

/-- **Flips are detected.** Strings that differ in an odd number of bits have different checksums,
and so have strings of fewer than `2 ^ 28` bytes that differ in two bits. -/
theorem extend_ne_of_flips (hlen : data.length = data'.length)
    (hflips : (errors data data').count true % 2 = 1 ∨
      (errors data data').count true = 2 ∧ data.length < 2 ^ 28)
    (address address' : ℕ) (crc : UInt32) :
    extend address crc data ≠ extend address' crc data' :=
  extend_ne_of_detected hlen (detected_flips hlen hflips) address address' crc

/-- The first and the last bit of eight bytes. -/
theorem extend_ne_of_flips_eightBytes :
    extend 0 0 [0x00, 0, 0, 0, 0, 0, 0, 0x00] ≠ extend 1 0 [0x01, 0, 0, 0, 0, 0, 0, 0x80] := by
  have htwo : (errors [0x00, 0, 0, 0, 0, 0, 0, 0x00] [0x01, 0, 0, 0, 0, 0, 0, 0x80]).count true =
      2 := by decide +kernel
  have hlen : ([0x00, 0, 0, 0, 0, 0, 0, 0x00] : Bytes).length =
      ([0x01, 0, 0, 0, 0, 0, 0, 0x80] : Bytes).length := rfl
  exact extend_ne_of_flips hlen (.inr ⟨htwo, by decide⟩) 0 1 0

end Strings

end Crc32c

end TinyLeveldb
