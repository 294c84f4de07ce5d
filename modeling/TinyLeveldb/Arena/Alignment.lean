import TinyLeveldb.Arena
import Mathlib.Algebra.Order.BigOperators.Group.List
import Mathlib.Algebra.Order.Group.Nat

/-!
# Aligned allocation

`AllocateAligned` reserves the padding in front of the region it is asked for, but returns the
address of the padding. It returns an aligned address where the bump pointer happens to be aligned,
and where it takes a new block, which starts at an aligned address; everywhere else it does not
(`everyStep_reserves_iff`).

That what is returned is at least reserved for the caller is due to the invariant of the arena, as
long as the padded size is a `size_t`.
-/

namespace TinyLeveldb

open Library

/-- New blocks start at multiples of `sizeof(void*)`. -/
def Heap.Aligned (heap : Heap) : Prop :=
  ∀ {blocks n p}, heap.newChars blocks n = some p → 8 ∣ p.toNat

namespace Arena

variable {heap : Heap} {a a' : Arena} {given : List Region} {p need : UInt64}

/-- What a call should return: as many bytes as it asks for, for itself alone, and at an aligned
address if it asks for one. -/
structure Reserves (s : Client) (c : Call) (p : UInt64) (s' : Client) : Prop where
  within : ∃ b ∈ s'.arena.blocks, (regionAt p c.needSize.toNat).Within b
  apart : ∀ r ∈ s.given, r.Apart (regionAt p c.needSize.toNat)
  tail_apart : (regionAt p c.needSize.toNat).Apart s'.arena.tail
  aligned : ∀ needSize, c = .allocateAligned needSize → 8 ∣ p.toNat

/-- The bump pointer is aligned, or the padded size is a `size_t` for which the tail is too
small. -/
def Aligns (a : Arena) : Call → Prop
  | .allocate _ => True
  | .allocateAligned needSize =>
      8 ∣ a.allocPtr.toNat ∨ a.allocPtrRemain.toNat ≤ needSize.toNat + a.padding.toNat ∧
        needSize.toNat + a.padding.toNat < 2 ^ 64

/-- Where a reservation begins. -/
theorem reserve_start (h : a.reserve heap need = .ok (p, a')) :
    need < a.allocPtrRemain ∧ p = a.allocPtr ∨
      ¬ need < a.allocPtrRemain ∧ ∃ n, heap.newChars a.blocks n = some p := by
  have hnew {blockSize : UInt64} {q : UInt64} {a₁ : Arena}
      (hok : a.allocNewBlock heap blockSize = .ok (q, a₁)) :
      heap.newChars a.blocks blockSize = some q := by
    rw [allocNewBlock] at hok
    split at hok
    · cases hok
    · rename_i newBlock hnew
      simp only at hok
      split at hok <;> cases hok
      exact hnew
  rw [reserve] at h
  split at h
  · rename_i hfits
    cases h
    exact .inl ⟨hfits, rfl⟩
  · rename_i hfull
    refine .inr ⟨hfull, ?_⟩
    rw [allocFallbackBlock] at h
    split at h
    · exact ⟨_, hnew h⟩
    · obtain ⟨⟨result, a₁⟩, hblock, hok⟩ := bind_eq_ok.mp h
      cases hok
      exact ⟨_, hnew hblock⟩

/-- No block is as large as the address space. -/
theorem Inv.size_lt (h : Inv a given) {b : Region} (hb : b ∈ a.blocks) : b.size + 8 < 2 ^ 64 := by
  calc b.size + 8 ≤ a.blockBytes :=
        List.le_sum_of_mem (List.mem_map_of_mem hb)
    _ = a.usingBlock.toNat := h.usingBlock.symm
    _ < 2 ^ 64 := a.usingBlock.toNat_lt

/-- A call that meets the condition reserves no less than it was asked for. -/
theorem Aligns.needSize_le {c : Call} (h : Aligns a c) :
    c.needSize.toNat ≤ (c.reserved a).toNat := by
  rcases c with needSize | needSize
  · exact le_rfl
  · change needSize.toNat ≤ (needSize + a.padding).toNat
    have hsize := needSize.toNat_lt
    have hpadding := toNat_padding a
    rw [UInt64.toNat_add]
    rcases h with haligned | ⟨-, hlt⟩
    · have hzero : a.padding.toNat = 0 := by
        rw [hpadding]
        omega
      omega
    · omega

theorem reserves_iff (hheap : heap.Lawful) (haligned : heap.Aligned) {s s' : Client} {c : Call}
    (h : Inv s.arena s.given) (hstep : s.step heap c = .ok (p, s')) :
    Reserves s c p s' ↔ Aligns s.arena c := by
  obtain ⟨hreserve, hgiven⟩ := step_eq_ok hstep
  constructor
  · intro hreserves
    rcases c with needSize | needSize
    · trivial
    · -- a padded size that wraps has no room in a block
      obtain ⟨b, hb, hstart, hend⟩ := hreserves.within
      have hlt := (h.reserve hheap (Nat.zero_le _) hreserve).size_lt hb
      have hpadding := toNat_padding s.arena
      simp only [regionAt, Call.needSize] at hstart hend
      rcases reserve_start hreserve with ⟨hfits, hp⟩ | ⟨hfull, -⟩
      · left
        rw [← hp]
        exact hreserves.aligned needSize rfl
      · refine .inr ⟨?_, by omega⟩
        rw [UInt64.lt_iff_toNat_lt, Call.reserved, UInt64.toNat_add] at hfull
        omega
  · intro haligns
    have hinv := h.step hheap haligns.needSize_le hstep
    rw [hgiven] at hinv
    obtain ⟨-, -, hapart⟩ := List.pairwise_append.mp hinv.carved.used_apart
    refine ⟨hinv.carved.used_within _ (by simp), fun r hr => hapart r hr _ (by simp),
      hinv.carved.tail_apart _ (by simp), ?_⟩
    rintro needSize rfl
    rcases reserve_start hreserve with ⟨hfits, rfl⟩ | ⟨-, n, hnew⟩
    · rcases haligns with haligns | ⟨hle, hlt⟩
      · exact haligns
      · rw [UInt64.lt_iff_toNat_lt, Call.reserved, UInt64.toNat_add] at hfits
        omega
    · exact haligned hnew

/-- **When aligned allocation is aligned.** Every call of a sequence returns a region of the
requested size for itself alone, at an aligned address if it asks for one, exactly when every call
of `AllocateAligned` finds the bump pointer aligned, or a tail that is too small. -/
theorem everyStep_reserves_iff (hheap : heap.Lawful) (haligned : heap.Aligned) (allocPtr : UInt64)
    (calls : List Call) :
    EveryStep (Client.step heap) Reserves (Client.start allocPtr) calls ↔
      EveryStep (Client.step heap) (fun s c _ _ => Aligns s.arena c) (Client.start allocPtr)
        calls := by
  let P (s : Client) : Prop := Inv s.arena s.given
  have hiff : ∀ s c p s', P s → Client.step heap s c = .ok (p, s') →
      (Reserves s c p s' ↔ Aligns s.arena c) :=
    fun s c p s' h hstep => reserves_iff hheap haligned h hstep
  have hinv : ∀ s c p s', P s → Client.step heap s c = .ok (p, s') → Aligns s.arena c → P s' :=
    fun s c p s' h hstep haligns => h.step hheap haligns.needSize_le hstep
  exact everyStep_iff hiff hinv (inv_new allocPtr)

theorem aligned_bumpHeap : bumpHeap.Aligned := by
  intro blocks n p h
  obtain ⟨hfits, hp⟩ := Option.ite_none_right_eq_some.mp h
  obtain rfl := Option.some.inj hp
  rw [UInt64.toNat_ofNat_of_lt' (by change _ < 2 ^ 64; omega)]
  exact Nat.dvd_mul_left 8 _

/-- An aligned request at an aligned bump pointer, and one behind a request of one byte that takes
a new block. -/
theorem reserves_alignedThenFresh :
    EveryStep (Client.step bumpHeap) Reserves (Client.start 0)
      [.allocate 8, .allocateAligned 8, .allocate 1, .allocateAligned 4096] := by
  obtain ⟨s₁, s₂, s₃, s₄, h₁, h₂, h₃, h₄, haligned, hfresh⟩ : ∃ s₁ s₂ s₃ s₄,
      Client.step bumpHeap (Client.start 0) (.allocate 8) = .ok (8, s₁) ∧
      Client.step bumpHeap s₁ (.allocateAligned 8) = .ok (16, s₂) ∧
      Client.step bumpHeap s₂ (.allocate 1) = .ok (24, s₃) ∧
      Client.step bumpHeap s₃ (.allocateAligned 4096) = .ok (4104, s₄) ∧
      Aligns s₁.arena (.allocateAligned 8) ∧ Aligns s₃.arena (.allocateAligned 4096) :=
    ⟨_, _, _, _, rfl, rfl, rfl, rfl, .inl (by decide), .inr (by decide)⟩
  refine (everyStep_reserves_iff lawful_bumpHeap aligned_bumpHeap 0 _).mpr ?_
  rw [everyStep_cons h₁, everyStep_cons h₂, everyStep_cons h₃, everyStep_cons h₄]
  exact ⟨trivial, haligned, trivial, hfresh, trivial⟩

/-- An aligned request behind a request of one byte. -/
def unalignedThenAligned : List Call := [.allocate 1, .allocateAligned 8]

/-- The second request is given the address 9. -/
theorem not_reserves_unalignedThenAligned :
    bumpHeap.Lawful ∧ bumpHeap.Aligned ∧
      ¬ EveryStep (Client.step bumpHeap) Reserves (Client.start 0) unalignedThenAligned := by
  refine ⟨lawful_bumpHeap, aligned_bumpHeap, fun hreserves => ?_⟩
  obtain ⟨s, hs⟩ : ∃ s, Client.step bumpHeap (Client.start 0) (.allocate 1) = .ok (8, s) ∧
      ∃ s', Client.step bumpHeap s (.allocateAligned 8) = .ok (9, s') := ⟨_, rfl, _, rfl⟩
  obtain ⟨hs, s', hs'⟩ := hs
  obtain ⟨-, hrest⟩ := hreserves _ _ hs
  obtain ⟨hsecond, -⟩ := hrest _ _ hs'
  exact absurd (hsecond.aligned 8 rfl) (by decide)

end Arena

end TinyLeveldb
