import TinyLeveldb.Library.Fallible
import TinyLeveldb.Library.Regions

/-!
# The arena

`class Arena`: small requests are cut off the unused tail of a block of 4096 bytes with a bump
pointer, which `Allocate` and `AllocateAligned` share; a request that does not fit the tail gets a
block of its own if it is large, and the beginning of a new 4096-byte block otherwise, whose rest is
the new tail.

Where `new char[]` and the vector `block_` put their bytes is up to the heap, which is a parameter
of the model. What is asked of it (`Heap.Lawful`) is that the objects of the arena do not overlap
and lie in the 64-bit address space.

`Inv` is the invariant: what was handed out is carved from the blocks, and `using_block` counts
them.
-/

namespace TinyLeveldb

open Library

/-- `static size_t maxSize`. -/
def maxSize : UInt64 := 4096

/-- `std::bad_alloc`, with which `new` and the vector may fail. -/
inductive BadAlloc
  | badAlloc
  deriving DecidableEq, Repr

/-- The heap the arena lives in. -/
structure Heap where
  /-- The address of `new char[n]`, beside the given blocks. -/
  newChars : List Region → UInt64 → Option UInt64
  /-- The address of the elements of `block_`, when they are the addresses of the given blocks. -/
  pushBack : List Region → Option UInt64

/-- The `size` bytes at an address. -/
def regionAt (p : UInt64) (size : ℕ) : Region := ⟨p.toNat, size⟩

/-- A region of the address space, without the null address. -/
def Addressable (r : Region) : Prop := 0 < r.start ∧ r.start + r.size ≤ 2 ^ 64

/-- Objects lie in the address space and do not overlap. -/
structure Heap.Lawful (heap : Heap) : Prop where
  newChars : ∀ {blocks n p}, heap.newChars blocks n = some p →
    Addressable (regionAt p n.toNat) ∧ ∀ b ∈ blocks, b.Apart (regionAt p n.toNat)
  pushBack : ∀ {blocks p}, heap.pushBack blocks = some p →
    Addressable (regionAt p (8 * blocks.length)) ∧
      ∀ b ∈ blocks, b.Apart (regionAt p (8 * blocks.length))

/-- `class Arena`. The blocks are kept with their sizes, which the source does not store. -/
structure Arena where
  blocks : List Region
  allocPtr : UInt64
  allocPtrRemain : UInt64
  usingBlock : UInt64

namespace Arena

/-- A new arena. The pointer is not initialised. -/
def new (allocPtr : UInt64) : Arena where
  blocks := []
  allocPtr := allocPtr
  allocPtrRemain := 0
  usingBlock := 0

/-- `MemoryUsage`. -/
def memoryUsage (a : Arena) : UInt64 := a.usingBlock

section Allocate

variable (heap : Heap)

/-- `alloc_new_block`. -/
def allocNewBlock (a : Arena) (blockSize : UInt64) : Except BadAlloc (UInt64 × Arena) :=
  match heap.newChars a.blocks blockSize with
  | none => .error .badAlloc
  | some newBlock =>
      let blocks := a.blocks ++ [regionAt newBlock blockSize.toNat]
      match heap.pushBack blocks with
      | none => .error .badAlloc
      | some _ => .ok (newBlock, { a with blocks, usingBlock := a.usingBlock + (blockSize + 8) })

/-- `alloc_fallback_block`. -/
def allocFallbackBlock (a : Arena) (needSize : UInt64) : Except BadAlloc (UInt64 × Arena) :=
  if needSize > maxSize / 4 then a.allocNewBlock heap needSize
  else do
    let (result, a) ← a.allocNewBlock heap maxSize
    .ok (result, { a with allocPtr := result + needSize, allocPtrRemain := maxSize - needSize })

/-- What `Allocate` and `AllocateAligned` do with the number of bytes they need. -/
def reserve (a : Arena) (need : UInt64) : Except BadAlloc (UInt64 × Arena) :=
  if need < a.allocPtrRemain then
    .ok (a.allocPtr,
      { a with allocPtr := a.allocPtr + need, allocPtrRemain := a.allocPtrRemain - need })
  else a.allocFallbackBlock heap need

/-- `Allocate`. -/
def allocate (a : Arena) (needSize : UInt64) : Except BadAlloc (UInt64 × Arena) :=
  a.reserve heap needSize

/-- The bytes up to the next multiple of `sizeof(void*)`. -/
def padding (a : Arena) : UInt64 :=
  let align := 8
  let mod := a.allocPtr &&& (align - 1)
  if mod = 0 then 0 else align - mod

/-- `AllocateAligned`. The padding is reserved, but what is returned is the pointer in front of
it. -/
def allocateAligned (a : Arena) (needSize : UInt64) : Except BadAlloc (UInt64 × Arena) :=
  a.reserve heap (needSize + a.padding)

/-! ### Calls -/

/-- A call of `Allocate` or `AllocateAligned`. -/
inductive Call
  | allocate (needSize : UInt64)
  | allocateAligned (needSize : UInt64)

/-- The number of bytes a call asks for. -/
def Call.needSize : Call → UInt64
  | .allocate needSize => needSize
  | .allocateAligned needSize => needSize

/-- An arena, and the regions that were requested of it. -/
structure Client where
  arena : Arena
  given : List Region

/-- A client of a new arena. -/
def Client.start (allocPtr : UInt64) : Client := { arena := Arena.new allocPtr, given := [] }

/-- One call: the pointer it returns, and the client afterwards. -/
def Client.step (s : Client) (c : Call) : Except BadAlloc (UInt64 × Client) := do
  let (p, arena) ← match c with
    | .allocate needSize => s.arena.allocate heap needSize
    | .allocateAligned needSize => s.arena.allocateAligned heap needSize
  .ok (p, { arena, given := s.given ++ [regionAt p c.needSize.toNat] })

end Allocate

/-- The unused part of the last 4096-byte block. -/
def tail (a : Arena) : Region := regionAt a.allocPtr a.allocPtrRemain.toNat

/-- What the blocks take, with the pointers to them. -/
def blockBytes (a : Arena) : ℕ := (a.blocks.map fun b => b.size + 8).sum

/-- **The invariant of an arena** that has handed out some regions. -/
structure Inv (a : Arena) (given : List Region) : Prop where
  carved : Region.Carved a.blocks given a.tail
  addressable : ∀ b ∈ a.blocks, Addressable b
  usingBlock : a.usingBlock.toNat = a.blockBytes

variable {heap : Heap} {a a' : Arena} {given : List Region} {p need : UInt64}

theorem blockBytes_eq (a : Arena) :
    a.blockBytes = (a.blocks.map Region.size).sum + 8 * a.blocks.length := by
  rw [blockBytes]
  induction a.blocks with
  | nil => rfl
  | cons b blocks ih =>
    simp only [List.map_cons, List.sum_cons, List.length_cons] at ih ⊢
    omega

theorem inv_new (allocPtr : UInt64) : Inv (new allocPtr) [] where
  carved := Region.carved_nil rfl
  addressable := by simp [new]
  usingBlock := rfl

/-- Blocks with their pointers have room in the address space. -/
theorem room {heap : Heap} (hheap : heap.Lawful) {blocks : List Region}
    (haddr : ∀ b ∈ blocks, Addressable b) (hapart : blocks.Pairwise Region.Apart)
    (hpush : heap.pushBack blocks = some p) :
    (blocks.map Region.size).sum + 8 * blocks.length < 2 ^ 64 := by
  obtain ⟨hvector, hblocks⟩ := hheap.pushBack hpush
  have hall : (blocks ++ [regionAt p (8 * blocks.length)]).Pairwise Region.Apart :=
    Region.pairwise_concat hapart hblocks
  have hwithin : ∀ r ∈ blocks ++ [regionAt p (8 * blocks.length)],
      ∃ b ∈ [(⟨1, 2 ^ 64 - 1⟩ : Region)], r.Within b := by
    intro r hr
    have haddr : Addressable r := by
      rcases List.mem_append.mp hr with hr | hr
      · exact haddr r hr
      · rw [List.mem_singleton.mp hr]
        exact hvector
    obtain ⟨hpos, hle⟩ := haddr
    exact ⟨_, List.mem_singleton_self _, hpos, by simpa using hle⟩
  have hsum := Region.sum_size_le hall hwithin
  simp only [List.map_append, List.sum_append, List.map_cons, List.map_nil, List.sum_cons,
    List.sum_nil, regionAt, Nat.add_zero] at hsum
  omega

/-- A new block lies apart from the others, and is counted. -/
theorem Inv.allocNewBlock (hheap : heap.Lawful) (h : Inv a given) {blockSize : UInt64}
    (hok : a.allocNewBlock heap blockSize = .ok (p, a')) :
    (∀ b ∈ a.blocks, b.Apart (regionAt p blockSize.toNat)) ∧
      a' = { a with
        blocks := a.blocks ++ [regionAt p blockSize.toNat]
        usingBlock := a.usingBlock + (blockSize + 8) } ∧
      (∀ b ∈ a'.blocks, Addressable b) ∧ a'.usingBlock.toNat = a'.blockBytes := by
  rw [Arena.allocNewBlock] at hok
  split at hok
  · cases hok
  · rename_i newBlock hnew
    simp only at hok
    split at hok
    · cases hok
    · rename_i vector hpush
      cases hok
      obtain ⟨haddr, hapart⟩ := hheap.newChars hnew
      have hall : ∀ b ∈ a.blocks ++ [regionAt p blockSize.toNat], Addressable b := by
        intro b hb
        rcases List.mem_append.mp hb with hb | hb
        · exact h.addressable b hb
        · rw [List.mem_singleton.mp hb]
          exact haddr
      refine ⟨hapart, rfl, hall, ?_⟩
      have hroom := room hheap hall (Region.pairwise_concat h.carved.blocks_apart hapart) hpush
      have husage := h.usingBlock
      rw [blockBytes_eq] at husage ⊢
      simp only [List.map_append, List.sum_append, List.map_cons, List.map_nil, List.sum_cons,
        List.sum_nil, List.length_append, List.length_singleton, regionAt] at hroom ⊢
      rw [UInt64.toNat_add, UInt64.toNat_add, husage, show (8 : UInt64).toNat = 8 from rfl]
      omega

/-- What is left behind the first bytes of a region. -/
theorem rest_regionAt {size : UInt64} (hle : need ≤ size)
    (hend : p.toNat + need.toNat < 2 ^ 64) :
    (regionAt p size.toNat).rest need.toNat = regionAt (p + need) (size - need).toNat := by
  have hptr : (p + need).toNat = p.toNat + need.toNat := by
    rw [UInt64.toNat_add]
    omega
  rw [regionAt, regionAt, hptr, UInt64.toNat_sub_of_le _ _ hle]
  rfl

/-- **What a reservation does**: all that was handed out, with the first `n` of the reserved bytes,
is still carved from the blocks. -/
theorem Inv.reserve (hheap : heap.Lawful) (h : Inv a given) {n : ℕ} (hn : n ≤ need.toNat)
    (hok : a.reserve heap need = .ok (p, a')) : Inv a' (given ++ [regionAt p n]) := by
  rw [Arena.reserve] at hok
  split at hok
  · -- off the tail
    rename_i hfits
    cases hok
    rw [UInt64.lt_iff_toNat_lt] at hfits
    have hpos : 0 < a.tail.size := Nat.zero_lt_of_lt hfits
    obtain ⟨b, hb, hstart, hend⟩ := h.carved.tail_within hpos
    obtain ⟨-, haddr⟩ := h.addressable b hb
    have hlt : a.allocPtr.toNat + need.toNat < 2 ^ 64 := by
      simp only [tail, regionAt] at hend
      omega
    have hcarved := h.carved.take hn hfits.le hpos
    rw [tail, rest_regionAt (UInt64.le_iff_toNat_le.mpr hfits.le) hlt] at hcarved
    exact ⟨hcarved, h.addressable, h.usingBlock⟩
  · rw [allocFallbackBlock] at hok
    split at hok
    · -- a block of its own
      obtain ⟨hapart, rfl, haddr, husage⟩ := h.allocNewBlock hheap hok
      have hcarved := h.carved.addBlock hapart (n := n) hn
      exact ⟨hcarved, haddr, husage⟩
    · -- the beginning of a new tail
      rename_i hsmall
      obtain ⟨⟨result, a₁⟩, hblock, hok⟩ := bind_eq_ok.mp hok
      cases hok
      obtain ⟨hapart, rfl, haddr, husage⟩ := h.allocNewBlock hheap hblock
      have hmax : maxSize.toNat = 4096 := rfl
      have hneed : need.toNat ≤ 1024 := by
        rw [gt_iff_lt, UInt64.lt_iff_toNat_lt, not_lt] at hsmall
        exact hsmall
      have hle : need ≤ maxSize := by
        rw [UInt64.le_iff_toNat_le, hmax]
        omega
      have hlt : p.toNat + need.toNat < 2 ^ 64 := by
        obtain ⟨-, hend⟩ := haddr (regionAt p maxSize.toNat) (by simp)
        simp only [regionAt, hmax] at hend
        omega
      have hpos : 0 < (regionAt p maxSize.toNat).size := by
        simp only [regionAt, hmax]
        omega
      have hcarved := (h.carved.replaceTail hapart).take hn (UInt64.le_iff_toNat_le.mp hle) hpos
      rw [rest_regionAt hle hlt] at hcarved
      exact ⟨hcarved, haddr, husage⟩

/-! ### Sequences of calls -/

theorem toNat_padding (a : Arena) : a.padding.toNat = (8 - a.allocPtr.toNat % 8) % 8 := by
  have hmod : (a.allocPtr &&& 7).toNat = a.allocPtr.toNat % 8 := by
    rw [UInt64.toNat_and]
    exact Nat.and_two_pow_sub_one_eq_mod _ 3
  rw [padding, show (8 - 1 : UInt64) = 7 from rfl]
  by_cases hzero : a.allocPtr &&& 7 = 0
  · have hzero' : a.allocPtr.toNat % 8 = 0 := by rw [← hmod, hzero]; rfl
    simp [hzero, hzero']
  · have hne : a.allocPtr.toNat % 8 ≠ 0 := by
      rw [← hmod]
      exact fun h => hzero (UInt64.toNat_inj.mp h)
    simp only [if_neg hzero]
    have hle : a.allocPtr &&& 7 ≤ 8 := by
      rw [UInt64.le_iff_toNat_le, hmod]
      exact (Nat.mod_lt _ (by decide)).le
    rw [UInt64.toNat_sub_of_le _ _ hle, hmod, show (8 : UInt64).toNat = 8 from rfl]
    omega

/-- The bytes a call reserves. -/
def Call.reserved (a : Arena) : Call → UInt64
  | .allocate needSize => needSize
  | .allocateAligned needSize => needSize + a.padding

theorem step_eq_ok {s s' : Client} {c : Call} (h : s.step heap c = .ok (p, s')) :
    s.arena.reserve heap (c.reserved s.arena) = .ok (p, s'.arena) ∧
      s'.given = s.given ++ [regionAt p c.needSize.toNat] := by
  rcases c with needSize | needSize
  all_goals
    obtain ⟨⟨q, arena⟩, hcall, hok⟩ := bind_eq_ok.mp h
    cases hok
    exact ⟨hcall, rfl⟩

/-- Where the padded size is no less than the size, a call keeps the invariant. -/
theorem Inv.step (hheap : heap.Lawful) {s s' : Client} {c : Call} (h : Inv s.arena s.given)
    (hle : c.needSize.toNat ≤ (c.reserved s.arena).toNat) (hstep : s.step heap c = .ok (p, s')) :
    Inv s'.arena s'.given := by
  obtain ⟨hreserve, hgiven⟩ := step_eq_ok hstep
  rw [hgiven]
  exact h.reserve hheap hle hreserve

theorem needSize_le_reserved {c : Call} (a : Arena) (hc : c.needSize.toNat < 2 ^ 63) :
    c.needSize.toNat ≤ (c.reserved a).toNat := by
  rcases c with needSize | needSize
  · exact le_rfl
  · change needSize.toNat ≤ (needSize + a.padding).toNat
    rw [Call.needSize] at hc
    rw [UInt64.toNat_add, toNat_padding]
    omega

/-- The calls of a client, without the pointers they return. -/
def Client.run (heap : Heap) (s : Client) (calls : List Call) : Except BadAlloc Client :=
  runAll (fun s c => do
    let (_, s) ← s.step heap c
    .ok s) s calls

/-- What the calls were given, and how it is accounted for. -/
structure Accounted (calls : List Call) (s : Client) : Prop where
  sizes : s.given.map Region.size = calls.map fun c => c.needSize.toNat
  within : ∀ r ∈ s.given, ∃ b ∈ s.arena.blocks, r.Within b
  apart : s.given.Pairwise Region.Apart
  tail_within : 0 < s.arena.allocPtrRemain → ∃ b ∈ s.arena.blocks, s.arena.tail.Within b
  tail_apart : ∀ r ∈ s.given, r.Apart s.arena.tail
  usage : s.arena.memoryUsage.toNat = (s.arena.blocks.map fun b => b.size + 8).sum
  requested_le : (calls.map fun c => c.needSize.toNat).sum ≤ s.arena.memoryUsage.toNat

theorem Inv.accounted {s : Client} {calls : List Call} (h : Inv s.arena s.given)
    (hsizes : s.given.map Region.size = calls.map fun c => c.needSize.toNat) :
    Accounted calls s where
  sizes := hsizes
  within := h.carved.used_within
  apart := h.carved.used_apart
  tail_within hpos := h.carved.tail_within (UInt64.lt_iff_toNat_lt.mp hpos)
  tail_apart := h.carved.tail_apart
  usage := h.usingBlock
  requested_le := by
    have hsum := Region.sum_size_le h.carved.used_apart h.carved.used_within
    have husage := h.usingBlock
    rw [blockBytes_eq] at husage
    rw [← hsizes, memoryUsage, husage]
    omega

/-- **Allocations are disjoint and accounted for**, on every heap. -/
theorem accounted_of_run (hheap : heap.Lawful) {allocPtr : UInt64} {calls : List Call}
    (hcalls : ∀ c ∈ calls, c.needSize.toNat < 2 ^ 63) {s : Client}
    (hrun : (Client.start allocPtr).run heap calls = .ok s) : Accounted calls s := by
  let P (pre : List Call) (s : Client) : Prop := (∀ c ∈ pre, c.needSize.toNat < 2 ^ 63) →
    Inv s.arena s.given ∧ s.given.map Region.size = pre.map fun c => c.needSize.toNat
  have hP : P calls s := by
    refine runAll_inv (fun pre c s s' ih hstep hpre => ?_) (fun _ => ⟨inv_new allocPtr, rfl⟩) hrun
    obtain ⟨⟨p, t⟩, hstep, hok⟩ := bind_eq_ok.mp hstep
    cases hok
    obtain ⟨hinv, hsizes⟩ := ih fun c hc => hpre c (List.mem_append_left _ hc)
    refine ⟨hinv.step hheap (needSize_le_reserved s.arena (hpre c (by simp))) hstep, ?_⟩
    rw [(step_eq_ok hstep).2, List.map_append, List.map_append, hsizes]
    rfl
  obtain ⟨hinv, hsizes⟩ := hP hcalls
  exact hinv.accounted hsizes

/-! ### A heap -/

/-- The end of the last block, rounded up to a multiple of 8. -/
def top (blocks : List Region) : ℕ :=
  (blocks.foldr (fun b t => max t (b.start + b.size)) 8 + 7) / 8 * 8

/-- Blocks are put behind each other in the lower half of the address space, and the elements of
`block_` at the beginning of the upper half. -/
def bumpHeap : Heap where
  newChars blocks n :=
    if top blocks + n.toNat ≤ 2 ^ 63 then some (UInt64.ofNat (top blocks)) else none
  pushBack blocks :=
    if top blocks ≤ 2 ^ 63 ∧ 8 * blocks.length ≤ 2 ^ 63 then some 0x8000000000000000 else none

theorem le_top {blocks : List Region} {b : Region} (hb : b ∈ blocks) :
    b.start + b.size ≤ top blocks := by
  have hle : b.start + b.size ≤ blocks.foldr (fun b t => max t (b.start + b.size)) 8 := by
    induction blocks with
    | nil => simp at hb
    | cons b' blocks ih =>
      rw [List.foldr_cons]
      rcases List.mem_cons.mp hb with rfl | hb
      · exact le_max_right _ _
      · exact (ih hb).trans (le_max_left _ _)
  rw [top]
  omega

theorem eight_le_top (blocks : List Region) : 8 ≤ top blocks := by
  have hle : 8 ≤ blocks.foldr (fun b t => max t (b.start + b.size)) 8 := by
    induction blocks with
    | nil => exact le_rfl
    | cons b blocks ih => exact ih.trans (le_max_left _ _)
  rw [top]
  omega

theorem lawful_bumpHeap : bumpHeap.Lawful where
  newChars {blocks n p} h := by
    obtain ⟨hfits, hp⟩ := Option.ite_none_right_eq_some.mp h
    obtain rfl := Option.some.inj hp
    have hp : (UInt64.ofNat (top blocks)).toNat = top blocks :=
      UInt64.toNat_ofNat_of_lt' (by change _ < 2 ^ 64; omega)
    have htop := eight_le_top blocks
    simp only [Addressable, regionAt, hp]
    exact ⟨⟨by omega, by omega⟩, fun b hb => Region.apart_of_le (le_top hb)⟩
  pushBack {blocks p} h := by
    obtain ⟨⟨htop, hlength⟩, hp⟩ := Option.ite_none_right_eq_some.mp h
    obtain rfl := Option.some.inj hp
    have hp : (0x8000000000000000 : UInt64).toNat = 2 ^ 63 := rfl
    simp only [Addressable, regionAt, hp]
    exact ⟨⟨by omega, by omega⟩, fun b hb => Region.apart_of_le ((le_top hb).trans htop)⟩

/-- A small and a large request, aligned and not. -/
def smallAndLarge : List Call :=
  [.allocate 1, .allocateAligned 8, .allocate 5000, .allocateAligned 1000]

theorem accounted_smallAndLarge :
    ∃ s, (Client.start 0).run bumpHeap smallAndLarge = .ok s ∧ Accounted smallAndLarge s := by
  obtain ⟨s, hs⟩ := exists_of_isOk
    (show ((Client.start 0).run bumpHeap smallAndLarge).isOk = true by decide)
  exact ⟨s, hs, accounted_of_run lawful_bumpHeap (by decide) hs⟩

end Arena

end TinyLeveldb
