import Mathlib.Algebra.Order.Ring.Int
import Mathlib.Data.List.Lex
import Mathlib.Data.UInt

/-!
# Bytes, slices, statuses and faults

The vocabulary every component shares. Memory is a list of bytes from a pointer on, and a
`slice` of the source is a pointer with a length: the model keeps the bytes the slice denotes
(`data`) and the bytes that follow them in memory (`after`), because parts of the source turn
a slice into a C string and so read past its end.

What the source leaves undefined or answers with an abort is a `Fault`: the functions of the
model return `Except Fault`, and a run stops at its first fault.
-/

namespace TinyLeveldb

/-- A byte string: the contents of a `std::string`, or memory from a pointer on. -/
abbrev Bytes := List UInt8

/-- Bytes compare as `unsigned char`, so byte strings compare as `std::string` does. -/
instance instLinearOrderUInt8 : LinearOrder UInt8 where
  le_refl := UInt8.le_refl
  le_trans _ _ _ := UInt8.le_trans
  lt_iff_le_not_ge a b := by
    simp only [UInt8.lt_iff_toNat_lt, UInt8.le_iff_toNat_le]
    omega
  le_antisymm _ _ := UInt8.le_antisymm
  le_total := UInt8.le_total
  toDecidableLE := inferInstance

/-- `enum Status`. -/
inductive Status
  | ok | notFound | corruption | notSupported | invalidArgument | ioError
  deriving DecidableEq, Repr

/-- Why an execution stops: the operations of the source that have no defined outcome, and
its failing assertions. -/
inductive Fault
  /-- A null pointer is dereferenced. -/
  | nullDeref
  /-- A pointer that was never initialised, or whose target was freed, is dereferenced. -/
  | badPointer
  /-- An array or a block is accessed outside its bounds. -/
  | outOfBounds
  /-- An `assert` fails. -/
  | assertFailed
  /-- A string of `2 ^ 31` bytes or more is made a slice, whose `int size()` cannot hold it. To
  stop there is a choice of the model: the source converts the length to an `int` and goes on. -/
  | sizeOverflow
  /-- A loop never ends. -/
  | diverged
  deriving DecidableEq, Repr

/-- `assert(c)`. -/
def assert (c : Bool) : Except Fault Unit :=
  if c then .ok () else .error .assertFailed

@[simp] theorem assert_true : assert true = .ok () := rfl

@[simp] theorem assert_false : assert false = .error .assertFailed := rfl

theorem of_assert {c : Bool} {u : Unit} (h : assert c = .ok u) : c = true := by
  rcases c with _ | _
  · cases h
  · rfl

theorem assert_of {p : Prop} [Decidable p] (h : p) : assert p = .ok () := by
  simp [h]

/-- A pointer: `none` is null, or holds no valid address. -/
abbrev Pointer (α : Type*) := Option α

/-- The C string at a pointer: the bytes before the first NUL. A memory without a NUL stands
for one whose next byte is a NUL. -/
def cString (memory : Bytes) : Bytes := memory.takeWhile (· ≠ 0)

/-- `class slice`: `size_` bytes at `data_`, and the memory behind them up to the next NUL.
`int size()` returns the length, so a slice of the model holds fewer than `2 ^ 31` bytes; that
longer ones, whose length the conversion to an `int` changes, are left out is a choice of the
model. -/
structure Slice where
  data : Bytes
  after : Bytes := []
  size_lt : data.length < 2 ^ 31

namespace Slice

/-- `slice::size`. -/
def size (s : Slice) : ℕ := s.data.length

/-- `string(s.data())`: the C string at the data pointer, whatever the slice's length. -/
def cString (s : Slice) : Bytes := TinyLeveldb.cString (s.data ++ s.after)

/-- `slice(std::string &str)`. The source makes slices of longer strings too; the model stops. -/
def ofString (str : Bytes) : Except Fault Slice :=
  if h : str.length < 2 ^ 31 then .ok { data := str, size_lt := h } else .error .sizeOverflow

/-- One byte, and the memory behind it. -/
def single (byte : UInt8) (after : Bytes := []) : Slice where
  data := [byte]
  after
  size_lt := by simp

theorem ofString_eq_ok {str : Bytes} {s : Slice} (h : ofString str = .ok s) : s.data = str := by
  unfold ofString at h
  split at h
  · cases h; rfl
  · cases h

theorem ofString_of_lt {str : Bytes} (h : str.length < 2 ^ 31) :
    ofString str = .ok { data := str, size_lt := h } := by
  rw [ofString, dif_pos h]

end Slice

end TinyLeveldb
