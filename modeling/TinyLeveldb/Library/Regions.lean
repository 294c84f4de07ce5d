import Mathlib.Algebra.BigOperators.Group.List.Basic
import Mathlib.Algebra.Order.Ring.Nat
import Mathlib.Order.Interval.Finset.Nat

/-!
# Regions carved from blocks

A `Region` is a range of addresses. An allocator owns blocks, hands out regions of them and keeps
an unused tail, from which it cuts the next region. `Carved` is its invariant: every region that was
handed out lies in a block, and no two of them, nor one of them and the tail, overlap. There is one
rule for each thing an allocator can do: cut a region off the tail (`Carved.take`), hand out a part
of a new block (`Carved.addBlock`), take a new block for the tail (`Carved.replaceTail`).

What lies apart has room side by side (`sum_size_le`).
-/

namespace Library

/-- The `size` addresses from `start` on. -/
structure Region where
  start : ℕ
  size : ℕ
  deriving DecidableEq, Repr

namespace Region

def addresses (r : Region) : Finset ℕ := Finset.Ico r.start (r.start + r.size)

/-- No address lies in both regions. -/
def Apart (r s : Region) : Prop := Disjoint r.addresses s.addresses

/-- The region begins and ends inside the other. -/
def Within (r s : Region) : Prop := s.start ≤ r.start ∧ r.start + r.size ≤ s.start + s.size

/-- The first `n` addresses. -/
def front (r : Region) (n : ℕ) : Region := ⟨r.start, n⟩

/-- The addresses behind the first `n`. -/
def rest (r : Region) (n : ℕ) : Region := ⟨r.start + n, r.size - n⟩

variable {r r' s s' : Region} {n m : ℕ}

theorem Apart.symm (h : r.Apart s) : s.Apart r := Disjoint.symm h

theorem apart_of_size_eq_zero (h : s.size = 0) : r.Apart s := by
  rw [Apart, addresses, addresses, h, Nat.add_zero, Finset.Ico_self]
  exact Finset.disjoint_empty_right _

theorem apart_of_le (h : r.start + r.size ≤ s.start) : r.Apart s := by
  rw [Apart, addresses, addresses, Finset.disjoint_left]
  intro a hr hs
  rw [Finset.mem_Ico] at hr hs
  omega

theorem Within.trans (h : r.Within s) (h' : s.Within s') : r.Within s' :=
  ⟨h'.1.trans h.1, h.2.trans h'.2⟩

theorem Within.addresses_subset (h : r.Within s) : r.addresses ⊆ s.addresses :=
  Finset.Ico_subset_Ico h.1 h.2

/-- Parts of regions that lie apart lie apart. -/
theorem Apart.mono (h : r'.Apart s') (hr : r.Within r') (hs : s.Within s') : r.Apart s :=
  Disjoint.mono hr.addresses_subset hs.addresses_subset h

theorem Within.refl (r : Region) : r.Within r := ⟨le_rfl, le_rfl⟩

theorem front_within (h : n ≤ r.size) : (r.front n).Within r :=
  ⟨le_rfl, Nat.add_le_add_left h r.start⟩

theorem rest_within (h : n ≤ r.size) : (r.rest n).Within r := by
  refine ⟨Nat.le_add_right _ _, ?_⟩
  simp only [rest]
  omega

theorem front_apart_rest (h : n ≤ m) : (r.front n).Apart (r.rest m) := by
  rw [Apart, addresses, addresses, Finset.disjoint_left]
  intro a hfront hrest
  rw [Finset.mem_Ico] at hfront hrest
  simp only [front, rest] at hfront hrest
  omega

/-! ### Room -/

/-- The addresses of some of the regions. -/
def cover (l : List Region) : Finset ℕ := l.foldr (fun r addrs => r.addresses ∪ addrs) ∅

theorem mem_cover {l : List Region} {a : ℕ} : a ∈ cover l ↔ ∃ r ∈ l, a ∈ r.addresses := by
  induction l with
  | nil => simp [cover]
  | cons r l ih =>
    rw [cover, List.foldr_cons, Finset.mem_union, ← cover, ih]
    simp

theorem card_cover_le (l : List Region) : (cover l).card ≤ (l.map size).sum := by
  induction l with
  | nil => simp [cover]
  | cons r l ih =>
    have hunion := Finset.card_union_le r.addresses (cover l)
    have hr : r.addresses.card = r.size := by rw [addresses, Nat.card_Ico, Nat.add_sub_cancel_left]
    rw [List.map_cons, List.sum_cons]
    change (r.addresses ∪ cover l).card ≤ r.size + (l.map size).sum
    omega

/-- Regions that lie apart have as many addresses as their sizes say. -/
theorem card_cover {l : List Region} (h : l.Pairwise Apart) :
    (cover l).card = (l.map size).sum := by
  induction l with
  | nil => simp [cover]
  | cons r l ih =>
    obtain ⟨hr, hl⟩ := List.pairwise_cons.mp h
    have hdisjoint : Disjoint r.addresses (cover l) := by
      rw [Finset.disjoint_left]
      intro a ha hcover
      obtain ⟨s, hs, has⟩ := mem_cover.mp hcover
      exact Finset.disjoint_left.mp (hr s hs) ha has
    rw [List.map_cons, List.sum_cons, ← ih hl]
    change (r.addresses ∪ cover l).card = _
    rw [Finset.card_union_of_disjoint hdisjoint, addresses, Nat.card_Ico, Nat.add_sub_cancel_left]

/-- Regions that lie apart, each of them within a block, are no larger than the blocks. -/
theorem sum_size_le {used blocks : List Region} (hused : used.Pairwise Apart)
    (hwithin : ∀ r ∈ used, ∃ b ∈ blocks, r.Within b) :
    (used.map size).sum ≤ (blocks.map size).sum := by
  have hsubset : cover used ⊆ cover blocks := by
    intro a ha
    obtain ⟨r, hr, har⟩ := mem_cover.mp ha
    obtain ⟨b, hb, hrb⟩ := hwithin r hr
    exact mem_cover.mpr ⟨b, hb, hrb.addresses_subset har⟩
  calc (used.map size).sum = (cover used).card := (card_cover hused).symm
    _ ≤ (cover blocks).card := Finset.card_le_card hsubset
    _ ≤ (blocks.map size).sum := card_cover_le blocks

/-! ### The invariant of an allocator -/

/-- The regions `used` and the unused `tail` are parts of the blocks, and nothing overlaps. -/
structure Carved (blocks used : List Region) (tail : Region) : Prop where
  blocks_apart : blocks.Pairwise Apart
  used_within : ∀ r ∈ used, ∃ b ∈ blocks, r.Within b
  used_apart : used.Pairwise Apart
  tail_within : 0 < tail.size → ∃ b ∈ blocks, tail.Within b
  tail_apart : ∀ r ∈ used, r.Apart tail

section Carved

variable {blocks used : List Region} {tail b : Region}

theorem carved_nil (h : tail.size = 0) : Carved [] [] tail where
  blocks_apart := List.Pairwise.nil
  used_within := by simp
  used_apart := List.Pairwise.nil
  tail_within hpos := by omega
  tail_apart := by simp

theorem pairwise_concat {l : List Region} (h : l.Pairwise Apart) (hr : ∀ s ∈ l, s.Apart r) :
    (l ++ [r]).Pairwise Apart := by
  refine List.pairwise_append.mpr ⟨h, List.pairwise_singleton _ _, fun s hs t ht => ?_⟩
  rw [List.mem_singleton.mp ht]
  exact hr s hs

/-- What lies in a block is apart from a new one. -/
theorem Carved.used_apart_block (h : Carved blocks used tail) (hb : ∀ b' ∈ blocks, b'.Apart b)
    (hr : r ∈ used) : r.Apart b := by
  obtain ⟨b', hb', hrb⟩ := h.used_within r hr
  exact (hb b' hb').mono hrb (.refl b)

/-- So is the tail. -/
theorem Carved.tail_apart_block (h : Carved blocks used tail) (hb : ∀ b' ∈ blocks, b'.Apart b) :
    b.Apart tail := by
  rcases Nat.eq_zero_or_pos tail.size with hzero | hpos
  · exact apart_of_size_eq_zero hzero
  · obtain ⟨b', hb', htail⟩ := h.tail_within hpos
    exact (hb b' hb').symm.mono (.refl b) htail

/-- **Cutting a region off the tail**, and perhaps some padding behind it. -/
theorem Carved.take (h : Carved blocks used tail) (hn : n ≤ m) (hm : m ≤ tail.size)
    (hpos : 0 < tail.size) : Carved blocks (used ++ [tail.front n]) (tail.rest m) := by
  have hfront : (tail.front n).Within tail := front_within (hn.trans hm)
  have hrest : (tail.rest m).Within tail := rest_within hm
  obtain ⟨b, hb, htail⟩ := h.tail_within hpos
  refine ⟨h.blocks_apart, fun r hr => ?_, ?_, fun _ => ⟨b, hb, hrest.trans htail⟩, fun r hr => ?_⟩
  · rcases List.mem_append.mp hr with hr | hr
    · exact h.used_within r hr
    · rw [List.mem_singleton.mp hr]
      exact ⟨b, hb, hfront.trans htail⟩
  · exact pairwise_concat h.used_apart fun r hr => (h.tail_apart r hr).mono (.refl r) hfront
  · rcases List.mem_append.mp hr with hr | hr
    · exact (h.tail_apart r hr).mono (.refl r) hrest
    · rw [List.mem_singleton.mp hr]
      exact front_apart_rest hn

/-- **Handing out a part of a new block.** -/
theorem Carved.addBlock (h : Carved blocks used tail) (hb : ∀ b' ∈ blocks, b'.Apart b)
    (hn : n ≤ b.size) : Carved (blocks ++ [b]) (used ++ [b.front n]) tail := by
  have hfront : (b.front n).Within b := front_within hn
  refine ⟨pairwise_concat h.blocks_apart hb, fun r hr => ?_, ?_, fun hpos => ?_, fun r hr => ?_⟩
  · rcases List.mem_append.mp hr with hr | hr
    · obtain ⟨b', hb', hrb⟩ := h.used_within r hr
      exact ⟨b', List.mem_append_left _ hb', hrb⟩
    · rw [List.mem_singleton.mp hr]
      exact ⟨b, by simp, hfront⟩
  · exact pairwise_concat h.used_apart fun r hr =>
      (h.used_apart_block hb hr).mono (.refl r) hfront
  · obtain ⟨b', hb', htail⟩ := h.tail_within hpos
    exact ⟨b', List.mem_append_left _ hb', htail⟩
  · rcases List.mem_append.mp hr with hr | hr
    · exact h.tail_apart r hr
    · rw [List.mem_singleton.mp hr]
      exact (h.tail_apart_block hb).mono hfront (.refl tail)

/-- **Taking a new block for the tail.** What was left of the old tail is abandoned. -/
theorem Carved.replaceTail (h : Carved blocks used tail) (hb : ∀ b' ∈ blocks, b'.Apart b) :
    Carved (blocks ++ [b]) used b where
  blocks_apart := pairwise_concat h.blocks_apart hb
  used_within r hr := by
    obtain ⟨b', hb', hrb⟩ := h.used_within r hr
    exact ⟨b', List.mem_append_left _ hb', hrb⟩
  used_apart := h.used_apart
  tail_within _ := ⟨b, by simp, .refl b⟩
  tail_apart _ hr := h.used_apart_block hb hr

end Carved

end Region

end Library
