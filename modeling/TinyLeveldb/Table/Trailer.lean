import TinyLeveldb.Crc32c.Detection
import TinyLeveldb.Table.Builder

/-!
# The trailer of a block

`WriteBlock` extends the checksum of the contents by the first byte of the array `trailer`, before
anything is stored in the array. The byte is not written to the file: the checksum is stored over
it. Whoever reads the file can recompute the checksum if he knows the byte, and only then, since the
checksum shows which byte it was extended by (`Crc32c.extend_singleton_inj`). If he does, the
trailer tells him about every change of the contents that the checksum detects
(`WrittenIn.detects`).
-/

namespace TinyLeveldb

open Library

namespace TableBuilder

/-- The block is one that a completed `WriteBlock` wrote, having met the memory `m`. -/
def WrittenIn (m : Ambient) (b : WrittenBlock) : Prop :=
  ∃ (δ : Type) (writeToFile : δ → Bytes → Except Fault (Status × δ)) (r r' : TableBuilder δ)
    (block : BlockRef) (p : Pointer BlockHandle) (s : Status) (handle : BlockHandle),
    r.writeBlock writeToFile m block p = .ok (s, handle, r') ∧
      r'.history.blocks = r.history.blocks ++ [b]

/-- The checksum of the contents and of the block type `t`, wherever a reader has them in memory, is
the one in the trailer. -/
def Verifiable (t : UInt8) (b : WrittenBlock) : Prop :=
  ∀ address address', Crc32c.unmask (decodeFixed32 b.trailer) =
    Crc32c.extend address' (Crc32c.value address b.contents) [t]

variable {m m' : Ambient} {b b' : WrittenBlock}

/-- The checksum in the trailer. -/
def checksum (m : Ambient) (contents : Bytes) : UInt32 :=
  Crc32c.extend m.trailerAddress (Crc32c.value m.contentsAddress contents) [m.trailer]

theorem WrittenIn.trailer_eq (h : WrittenIn m b) :
    b.trailer = encodeFixed32 (Crc32c.mask (checksum m b.contents)) := by
  obtain ⟨δ, writeToFile, r, r', block, p, s, handle, hwrite, hblocks⟩ := h
  obtain ⟨-, contents, finished, file, -, -, -, rfl⟩ := writeBlock_eq_ok hwrite
  have hlast := List.append_cancel_left (hblocks.symm.trans (by cases block <;> rfl))
  obtain rfl := List.singleton_inj.mp hlast
  rfl

theorem WrittenIn.unmask_trailer (h : WrittenIn m b) :
    Crc32c.unmask (decodeFixed32 b.trailer) = checksum m b.contents := by
  rw [h.trailer_eq, ← List.append_nil (encodeFixed32 _), decodeFixed32_encodeFixed32_append,
    Crc32c.unmask_mask]

/-- The checksum of the contents does not depend on where they are. -/
theorem value_eq (address address' : ℕ) (contents : Bytes) :
    Crc32c.value address contents = Crc32c.value address' contents := by
  rw [Crc32c.value, Crc32c.value, Crc32c.extend_eq_plainExtend, Crc32c.extend_eq_plainExtend]

/-- **When a reader can verify a block.** He finds the checksum of the contents and of a block type
`t` in the trailer exactly when `t` is the byte that happened to be in the array `trailer`. And two
blocks with the same contents have the same trailer exactly when the same byte was in it. -/
theorem verifiable_iff (t : UInt8) (h : WrittenIn m b) (h' : WrittenIn m' b')
    (hcontents : b.contents = b'.contents) :
    (Verifiable t b ↔ m.trailer = t) ∧ (b.trailer = b'.trailer ↔ m.trailer = m'.trailer) := by
  constructor
  · have hiff (address address' : ℕ) : checksum m b.contents =
        Crc32c.extend address' (Crc32c.value address b.contents) [t] ↔ m.trailer = t := by
      rw [checksum, value_eq m.contentsAddress address, Crc32c.extend_singleton_inj]
    rw [Verifiable, h.unmask_trailer]
    exact ⟨fun hall => (hiff 0 0).mp (hall 0 0), fun ht address address' =>
      (hiff address address').mpr ht⟩
  · have hchecksum : checksum m b.contents = checksum m' b'.contents ↔ m.trailer = m'.trailer := by
      rw [checksum, checksum, hcontents, value_eq m.contentsAddress m'.contentsAddress,
        Crc32c.extend_singleton_inj]
    rw [← hchecksum]
    constructor
    · intro heq
      rw [← h.unmask_trailer, heq, h'.unmask_trailer]
    · intro heq
      rw [h.trailer_eq, h'.trailer_eq, heq]

/-! ### Two blocks with the same contents -/

/-- The block that a completed `WriteBlock` wrote. -/
theorem exists_writtenIn {δ : Type} {writeToFile : δ → Bytes → Except Fault (Status × δ)}
    {r : TableBuilder δ} {block : BlockRef} {p : Pointer BlockHandle}
    (h : (r.writeBlock writeToFile m block p).isOk = true) :
    ∃ b contents finished, WrittenIn m b ∧
      (r.block block).finish m.finishStack = .ok (contents, finished) ∧
      b.contents = contents.data := by
  obtain ⟨⟨s, handle, r'⟩, hwrite⟩ := exists_of_isOk h
  obtain ⟨-, contents, finished, file, -, hfinish, -, hr'⟩ := writeBlock_eq_ok hwrite
  obtain ⟨b, hblocks, hcontents⟩ : ∃ b, r'.history.blocks = r.history.blocks ++ [b] ∧
      b.contents = contents.data := by
    rw [hr']
    cases block <;> exact ⟨_, rfl, rfl⟩
  exact ⟨b, contents, finished, ⟨δ, writeToFile, r, r', block, p, s, handle, hwrite, hblocks⟩,
    hfinish, hcontents⟩

/-- Memory in which the array `trailer` holds the given byte. -/
def withTrailer (byte : UInt8) : Ambient := { Ambient.zeroed with trailer := byte }

/-- The builder on zeroed memory, with the pair `("a", "b")` in its data block. -/
def withPair : TableBuilder Bytes := zeroed.store .zeroed (.single 97) (.single 98)

theorem exists_pairBlock {byte : UInt8} (hbyte : byte ∈ ([0, 1] : List UInt8)) :
    ∃ b, WrittenIn (withTrailer byte) b ∧ b.contents = [1, 1, 97, 98, 1] := by
  have hok : ∀ byte ∈ ([0, 1] : List UInt8), (withPair.writeBlock WritableFile.writeAll
      (withTrailer byte) .dataBlock withPair.pendingHandle).isOk = true := by decide +kernel
  have hcontents : ((withPair.block .dataBlock).finish (withTrailer byte).finishStack).toOption.map
      (·.1.data) = some [1, 1, 97, 98, 1] := by
    change ((withPair.block .dataBlock).finish fun _ => []).toOption.map (·.1.data) = _
    decide +kernel
  obtain ⟨b, contents, finished, h, hfinish, hb⟩ := exists_writtenIn (hok byte hbyte)
  rw [hfinish] at hcontents
  exact ⟨b, h, hb.trans (Option.some.inj hcontents)⟩

theorem exists_sameContents :
    ∃ b b', WrittenIn (withTrailer 0) b ∧ WrittenIn (withTrailer 1) b' ∧
      b.contents = [1, 1, 97, 98, 1] ∧ b.contents = b'.contents := by
  obtain ⟨b, h, hb⟩ := exists_pairBlock (show (0 : UInt8) ∈ [0, 1] by simp)
  obtain ⟨b', h', hb'⟩ := exists_pairBlock (show (1 : UInt8) ∈ [0, 1] by simp)
  exact ⟨b, b', h, h', hb, hb.trans hb'.symm⟩

theorem verifiable_withTrailer :
    ∃ b b', WrittenIn (withTrailer 0) b ∧ WrittenIn (withTrailer 1) b' ∧
      b.contents = [1, 1, 97, 98, 1] ∧
      (Verifiable 0 b ↔ (0 : UInt8) = 0) ∧ (b.trailer = b'.trailer ↔ (0 : UInt8) = 1) := by
  obtain ⟨b, b', h, h', hb, hcontents⟩ := exists_sameContents
  exact ⟨b, b', h, h', hb, verifiable_iff 0 h h' hcontents⟩

/-- Two blocks with the same contents whose trailers differ: no block type fits both. -/
theorem not_verifiable_withTrailer :
    ∃ b b', WrittenIn (withTrailer 0) b ∧ WrittenIn (withTrailer 1) b' ∧
      b.contents = b'.contents ∧ b.trailer ≠ b'.trailer ∧
      ¬ ∃ t, Verifiable t b ∧ Verifiable t b' := by
  obtain ⟨b, b', h, h', -, hcontents⟩ := exists_sameContents
  have hne : checksum (withTrailer 0) b.contents ≠ checksum (withTrailer 1) b'.contents := by
    rw [hcontents, checksum, checksum, ne_eq]
    exact fun heq => absurd (Crc32c.extend_singleton_inj.mp heq) (by decide)
  refine ⟨b, b', h, h', hcontents, fun heq => hne ?_, ?_⟩
  · rw [← h.unmask_trailer, heq, h'.unmask_trailer]
  · rintro ⟨t, ht, ht'⟩
    apply hne
    rw [← h.unmask_trailer, ← h'.unmask_trailer, ht 0 0, ht' 0 0, hcontents]

/-! ### Changed blocks -/

/-- **A changed block does not fit its trailer.** Whoever knows the byte that was in the array
`trailer` accepts the contents that were written, and rejects contents of the same length that
differ from them within 32 consecutive bits, in an odd number of bits, or, in a block of fewer
than `2 ^ 28` bytes, in two bits. -/
theorem WrittenIn.detects (h : WrittenIn m b) (address address' : ℕ) :
    Crc32c.unmask (decodeFixed32 b.trailer) =
        Crc32c.extend address' (Crc32c.value address b.contents) [m.trailer] ∧
      ∀ contents, contents.length = b.contents.length → contents ≠ b.contents →
        ((∃ n, ∀ i, (Crc32c.errors b.contents contents)[i]? = some true → n ≤ i ∧ i < n + 32) ∨
          (Crc32c.errors b.contents contents).count true % 2 = 1 ∨
          (Crc32c.errors b.contents contents).count true = 2 ∧ b.contents.length < 2 ^ 28) →
        Crc32c.unmask (decodeFixed32 b.trailer) ≠
          Crc32c.extend address' (Crc32c.value address contents) [m.trailer] := by
  have htrailer : Crc32c.unmask (decodeFixed32 b.trailer) =
      Crc32c.extend address' (Crc32c.value address b.contents) [m.trailer] := by
    rw [h.unmask_trailer, checksum, value_eq m.contentsAddress address,
      Crc32c.extend_eq_plainExtend, Crc32c.extend_eq_plainExtend]
  refine ⟨htrailer, fun contents hlen hne hchanged hfits => ?_⟩
  have hdetected : Crc32c.Detected (Crc32c.errors b.contents contents) := by
    rcases hchanged with ⟨n, hburst⟩ | hflips
    · exact Crc32c.detected_burst hlen.symm hne.symm hburst
    · exact Crc32c.detected_flips hlen.symm hflips
  -- the block type after the contents changes nothing
  have hvalue := Crc32c.extend_left_injective address' address' (htrailer.symm.trans hfits)
  exact Crc32c.extend_ne_of_detected hlen.symm hdetected address address 0 hvalue

/-- A block of one pair, whose value has a bit flipped. -/
theorem detects_onePair :
    ∃ b, WrittenIn (withTrailer 0) b ∧ b.contents = [1, 1, 97, 98, 1] ∧
      Crc32c.unmask (decodeFixed32 b.trailer) ≠
        Crc32c.extend 0 (Crc32c.value 0 [1, 1, 97, 99, 1]) [0] := by
  obtain ⟨b, h, hb⟩ := exists_pairBlock (show (0 : UInt8) ∈ [0, 1] by simp)
  refine ⟨b, h, hb, (h.detects 0 0).2 _ (by rw [hb]; rfl) (by rw [hb]; decide) (.inr (.inl ?_))⟩
  rw [hb]
  decide +kernel

end TableBuilder

end TinyLeveldb
