import TinyLeveldb.Hash
import TinyLeveldb.Library.XorLinear

/-!
# What the hash function keeps apart

Every step of `Hash` adds a word of the data to the state, multiplies by an odd number and mixes the
high bits into the low ones. Each of the three has an inverse (`mix_injective`), so `Hash` is a
permutation of its seed (`hash_seed_injective`), and two strings of the same length whose
differences lie in one word, the last and shorter one included, have different hashes
(`hash_ne_of_oneWord`). Keys of one length up to four therefore never collide
(`hash_injective_of_short`).
-/

namespace TinyLeveldb

open Library

/-- The multiplication and the shift of one step of `Hash`. -/
def mix (k h : UInt32) : UInt32 := xorShift k (h * 0xc6a4a793)

/-- The shifts by half the word, and by more, undo themselves. -/
theorem xorShift_injective {k : UInt32} (hk : k = 16 ∨ k = 24) :
    Function.Injective (xorShift k) := by
  have htwice : xorShift k ∘ xorShift k = id := by
    refine ((XorLinear.xorShift k).comp (.xorShift k)).ext XorLinear.id ?_
    rcases hk with rfl | rfl <;> decide
  exact (Function.LeftInverse.injective fun w => congrFun htwice w)

/-- The multiplier is odd, and so has an inverse. -/
theorem mul_injective : Function.Injective fun h : UInt32 => h * 0xc6a4a793 := by
  have hinverse : Function.LeftInverse (fun h : UInt32 => h * 0xd8198e9b) (· * 0xc6a4a793) := by
    intro h
    change h * 0xc6a4a793 * 0xd8198e9b = h
    rw [UInt32.mul_assoc]
    exact UInt32.mul_one h
  exact hinverse.injective

theorem mix_injective {k : UInt32} (hk : k = 16 ∨ k = 24) : Function.Injective (mix k) :=
  (xorShift_injective hk).comp mul_injective

/-! ### Words -/

theorem toNat_toUInt32_shiftLeft (b : UInt8) {k : UInt32} (hk : k.toNat ≤ 24) :
    (b.toUInt32 <<< k).toNat = 2 ^ k.toNat * b.toNat := by
  have hlt : 2 ^ k.toNat * b.toNat < 2 ^ 32 := by
    calc 2 ^ k.toNat * b.toNat < 2 ^ k.toNat * 2 ^ 8 :=
          Nat.mul_lt_mul_of_pos_left b.toNat_lt (Nat.two_pow_pos _)
      _ ≤ 2 ^ 24 * 2 ^ 8 := Nat.mul_le_mul_right _ (Nat.pow_le_pow_right (by decide) hk)
  rw [UInt32.toNat_shiftLeft, UInt8.toNat_toUInt32, Nat.mod_eq_of_lt (by omega : k.toNat < 32),
    Nat.shiftLeft_eq, Nat.mul_comm, Nat.mod_eq_of_lt hlt]

/-- The four bytes of a word, the first counting least; missing ones are zero. -/
theorem toNat_decodeFixed32 (p : Bytes) :
    (decodeFixed32 p).toNat = (p.getD 0 0).toNat + 2 ^ 8 * (p.getD 1 0).toNat +
      2 ^ 16 * (p.getD 2 0).toNat + 2 ^ 24 * (p.getD 3 0).toNat := by
  have h0 := (p.getD 0 0).toNat_lt
  have h1 := (p.getD 1 0).toNat_lt
  have h2 := (p.getD 2 0).toNat_lt
  have hor {i a b : ℕ} (hb : b < 2 ^ i) : b ||| 2 ^ i * a = b + 2 ^ i * a := by
    rw [Nat.or_comm, ← Nat.two_pow_add_eq_or_of_lt hb, Nat.add_comm]
  rw [decodeFixed32, UInt32.toNat_or, UInt32.toNat_or, UInt32.toNat_or,
    toNat_toUInt32_shiftLeft _ (by decide), toNat_toUInt32_shiftLeft _ (by decide),
    toNat_toUInt32_shiftLeft _ (by decide), UInt8.toNat_toUInt32]
  change (_ ||| 2 ^ 8 * _ ||| 2 ^ 16 * _ ||| 2 ^ 24 * _) = _
  rw [hor h0, hor (by omega : (p.getD 0 0).toNat + 2 ^ 8 * (p.getD 1 0).toNat < 2 ^ 16),
    hor (by omega : (p.getD 0 0).toNat + 2 ^ 8 * (p.getD 1 0).toNat +
      2 ^ 16 * (p.getD 2 0).toNat < 2 ^ 24)]

/-- A word shows its bytes. -/
theorem eq_of_decodeFixed32_eq {p p' : Bytes} (hlen : p.length = p'.length)
    (hword : decodeFixed32 p = decodeFixed32 p') (hdrop : p.drop 4 = p'.drop 4) : p = p' := by
  have hnat := congrArg UInt32.toNat hword
  rw [toNat_decodeFixed32, toNat_decodeFixed32] at hnat
  have hlt (q : Bytes) (i : ℕ) := (q.getD i 0).toNat_lt
  have hbytes : ∀ i < 4, p.getD i 0 = p'.getD i 0 := by
    intro i hi
    apply UInt8.toNat_inj.mp
    have h0 := hlt p 0
    have h1 := hlt p 1
    have h2 := hlt p 2
    have h0' := hlt p' 0
    have h1' := hlt p' 1
    have h2' := hlt p' 2
    obtain rfl | rfl | rfl | rfl : i = 0 ∨ i = 1 ∨ i = 2 ∨ i = 3 := by omega
    all_goals omega
  refine List.ext_getElem hlen fun i hi hi' => ?_
  by_cases hfirst : i < 4
  · simpa [List.getD_eq_getElem?_getD, hi, hi'] using hbytes i hfirst
  · have hrest := congrArg (·[i - 4]?) hdrop
    simp only [List.getElem?_drop] at hrest
    rw [Nat.add_sub_cancel' (Nat.le_of_not_lt hfirst)] at hrest
    simpa [hi, hi'] using hrest

/-! ### The loop -/

/-- The loop of `Hash` reads a word. -/
theorem hashLoop_of_four_le (h : UInt32) {data : Bytes} (hlen : 4 ≤ data.length) :
    hashLoop h data = hashLoop (mix 16 (h + decodeFixed32 data)) (data.drop 4) := by
  match data, hlen with
  | b₀ :: b₁ :: b₂ :: b₃ :: data, _ => rfl

/-- The `switch` of `Hash` reads the rest as a word. -/
theorem hashLoop_of_lt_four (h : UInt32) {data : Bytes} (hne : data ≠ []) (hlen : data.length < 4) :
    hashLoop h data = mix 24 (h + decodeFixed32 data) := by
  have h8 (b : UInt8) : (b.toUInt32 <<< 8).toNat = 2 ^ 8 * b.toNat :=
    toNat_toUInt32_shiftLeft b (by decide)
  have h16 (b : UInt8) : (b.toUInt32 <<< 16).toNat = 2 ^ 16 * b.toNat :=
    toNat_toUInt32_shiftLeft b (by decide)
  have hword := toNat_decodeFixed32 data
  have hsum : ∀ x : UInt32, x.toNat = (h.toNat + (decodeFixed32 data).toNat) % 2 ^ 32 →
      hashFinish x = mix 24 (h + decodeFixed32 data) := by
    intro x hx
    rw [← UInt32.toNat_add, UInt32.toNat_inj] at hx
    rw [hx]
    rfl
  match data, hne, hlen with
  | [b₀], _, _ =>
    refine hsum _ ?_
    rw [hword]
    simp [UInt32.toNat_add]
  | [b₀, b₁], _, _ =>
    refine hsum _ ?_
    rw [hword]
    simp [UInt32.toNat_add, h8]
    omega
  | [b₀, b₁, b₂], _, _ =>
    refine hsum _ ?_
    rw [hword]
    simp [UInt32.toNat_add, h8, h16]
    omega

/-- Whatever the data, another seed gives another hash. -/
theorem hashLoop_injective (data : Bytes) : Function.Injective fun h => hashLoop h data := by
  intro h h' heq
  induction hn : data.length using Nat.strong_induction_on generalizing data h h' with
  | _ n ih =>
    by_cases hlen : 4 ≤ data.length
    · simp only [hashLoop_of_four_le _ hlen] at heq
      have hstate := ih _ (by rw [← hn, List.length_drop]; omega) (data.drop 4) heq rfl
      exact (UInt32.add_left_inj _).mp (mix_injective (.inl rfl) hstate)
    · rcases eq_or_ne data [] with rfl | hne
      · exact heq
      · simp only [hashLoop_of_lt_four _ hne (Nat.lt_of_not_le hlen)] at heq
        exact (UInt32.add_left_inj _).mp (mix_injective (.inr rfl) heq)

/-- Strings that differ in one word only are told apart. -/
theorem hashLoop_ne {data data' : Bytes} (hlen : data.length = data'.length) (hne : data ≠ data')
    {k : ℕ} (hword : ∀ i, data[i]? ≠ data'[i]? → i / 4 = k) (h : UInt32) :
    hashLoop h data ≠ hashLoop h data' := by
  induction k generalizing data data' h with
  | zero =>
    -- they agree behind the first word
    have hdrop : data.drop 4 = data'.drop 4 := by
      refine List.ext_getElem? fun i => ?_
      rw [List.getElem?_drop, List.getElem?_drop]
      by_contra hi
      have := hword _ hi
      omega
    intro heq
    refine hne (eq_of_decodeFixed32_eq hlen ?_ hdrop)
    by_cases hfour : 4 ≤ data.length
    · rw [hashLoop_of_four_le h hfour, hashLoop_of_four_le h (hlen ▸ hfour), hdrop] at heq
      exact (UInt32.add_right_inj _).mp (mix_injective (.inl rfl) (hashLoop_injective _ heq))
    · have hnil : data ≠ [] := by
        rintro rfl
        exact hne (List.length_eq_zero_iff.mp hlen.symm).symm
      have hnil' : data' ≠ [] := by
        rintro rfl
        exact hne (List.length_eq_zero_iff.mp hlen)
      rw [hashLoop_of_lt_four h hnil (by omega), hashLoop_of_lt_four h hnil' (by omega)] at heq
      exact (UInt32.add_right_inj _).mp (mix_injective (.inr rfl) heq)
  | succ k ih =>
    -- they agree in the first word
    have htake : ∀ i < 4, data[i]? = data'[i]? := by
      intro i hi
      by_contra hdiff
      have := hword i hdiff
      omega
    have hfour : 4 ≤ data.length := by
      by_contra hshort
      refine hne (List.ext_getElem? fun i => ?_)
      by_cases hi : i < 4
      · exact htake i hi
      · rw [List.getElem?_eq_none (by omega), List.getElem?_eq_none (by omega)]
    have hfirst : decodeFixed32 data = decodeFixed32 data' := by
      simp only [decodeFixed32, List.getD_eq_getElem?_getD, htake 0 (by decide),
        htake 1 (by decide), htake 2 (by decide), htake 3 (by decide)]
    rw [hashLoop_of_four_le h hfour, hashLoop_of_four_le h (hlen ▸ hfour), hfirst]
    refine ih (by rw [List.length_drop, List.length_drop, hlen]) (fun hdrop => hne ?_)
      (fun i hi => ?_) _
    · exact eq_of_decodeFixed32_eq hlen hfirst hdrop
    · rw [List.getElem?_drop, List.getElem?_drop] at hi
      have := hword _ hi
      omega

/-! ### The hash -/

/-- Another seed gives another hash. -/
theorem hash_seed_injective (data : Bytes) : Function.Injective (hash data) := by
  intro seed seed' heq
  exact (UInt32.xor_left_inj _).mp (hashLoop_injective data heq)

/-- **One word.** Two strings of the same length that differ in one word only, from a multiple of
four on, have different hashes, for every seed. -/
theorem hash_ne_of_oneWord {data data' : Bytes} (hlen : data.length = data'.length)
    (hne : data ≠ data') {k : ℕ} (hword : ∀ i, data[i]? ≠ data'[i]? → i / 4 = k) (seed : UInt32) :
    hash data seed ≠ hash data' seed := by
  rw [hash, hash, hlen]
  exact hashLoop_ne hlen hne hword _

/-- Two keys of five bytes that differ in the last one. -/
theorem hash_ne_fiveBytes : hash [1, 2, 3, 4, 5] 0 ≠ hash [1, 2, 3, 4, 6] 0 := by
  obtain ⟨data, data', hdata, hdata'⟩ : ∃ data data' : Bytes,
      data = [1, 2, 3, 4, 5] ∧ data' = [1, 2, 3, 4, 6] := ⟨_, _, rfl, rfl⟩
  have hlen : data.length = data'.length := by rw [hdata, hdata']; rfl
  have hall : ∀ i < 5, data[i]? ≠ data'[i]? → i / 4 = 1 := by
    rw [hdata, hdata']
    decide
  rw [← hdata, ← hdata']
  refine hash_ne_of_oneWord (k := 1) hlen (by rw [hdata, hdata']; decide) (fun i hi => ?_) 0
  by_cases hlt : i < 5
  · exact hall i hlt hi
  · refine absurd ?_ hi
    rw [List.getElem?_eq_none (by rw [hdata]; exact Nat.le_of_not_lt hlt),
      List.getElem?_eq_none (by rw [hdata']; exact Nat.le_of_not_lt hlt)]

/-- Keys of one length up to four never collide. -/
theorem hash_injective_of_short {data data' : Bytes} (hlen : data.length = data'.length)
    (hshort : data.length ≤ 4) (seed : UInt32) :
    hash data seed = hash data' seed ↔ data = data' := by
  refine ⟨fun heq => ?_, fun heq => by rw [heq]⟩
  by_contra hne
  rw [hash, hash, hlen] at heq
  refine hashLoop_ne (k := 0) hlen hne (fun i hi => ?_) _ heq
  by_contra hfar
  refine hi ?_
  rw [List.getElem?_eq_none (by omega), List.getElem?_eq_none (by omega)]

end TinyLeveldb
