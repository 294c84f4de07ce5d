import TinyLeveldb.Coding

/-!
# The hash function

`Hash` of the source, a variant of murmur hash in 32-bit arithmetic.
-/

namespace TinyLeveldb

/-- `h *= m; h ^= (h >> r);`, the last step of `Hash`. -/
def hashFinish (h : UInt32) : UInt32 :=
  let h := h * 0xc6a4a793
  h ^^^ (h >>> 24)

/-- The loop of `Hash` over four bytes at a time, and its `switch` on the rest, whose cases fall
through. -/
def hashLoop (h : UInt32) : Bytes → UInt32
  | b₀ :: b₁ :: b₂ :: b₃ :: data =>
      let h := (h + decodeFixed32 [b₀, b₁, b₂, b₃]) * 0xc6a4a793
      hashLoop (h ^^^ (h >>> 16)) data
  | [b₀, b₁, b₂] =>
      hashFinish (h + (b₂.toUInt32 <<< 16) + (b₁.toUInt32 <<< 8) + b₀.toUInt32)
  | [b₀, b₁] => hashFinish (h + (b₁.toUInt32 <<< 8) + b₀.toUInt32)
  | [b₀] => hashFinish (h + b₀.toUInt32)
  | [] => h

/-- `Hash`. The product `n * m` is a `size_t`, of which the seed's 32 bits keep the low half. -/
def hash (data : Bytes) (seed : UInt32) : UInt32 :=
  hashLoop (seed ^^^ UInt32.ofNat (data.length * 0xc6a4a793)) data

end TinyLeveldb
