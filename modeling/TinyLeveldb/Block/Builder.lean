import TinyLeveldb.Coding
import TinyLeveldb.Library.Fallible

/-!
# Building a block

`class BlockBuilder`. Every header word, restart offset and count is written into a local
`char buf[4]` and appended with `buffer.append(buf)`, which takes `buf` as a C string: what
reaches the buffer are the bytes of the word before its first zero byte and, when it has none,
the bytes behind `buf` up to the next zero byte as well. Those bytes are not the program's to
choose; `stack i` stands for what the `i`-th append of a call finds there.
-/

namespace TinyLeveldb

open Library

/-- `groupSize`. -/
def groupSize : ℤ := 20

/-- `EncodeFixed32(buf, word); buffer.append(buf);`. -/
def appendWord (stack buffer : Bytes) (word : UInt32) : Bytes :=
  buffer ++ cString (encodeFixed32 word ++ stack)

/-- `class BlockBuilder`. The source declares its constructor without defining it. -/
structure BlockBuilder where
  lastKey : Bytes
  buffer : Bytes
  restarts : List UInt32
  counter : ℤ
  finished : Bool

namespace BlockBuilder

/-- The loop of `Add`: the number of leading bytes, at most `minLength`, that the key shares
with the last key. -/
def sharedLength : ℕ → Bytes → Bytes → ℕ
  | minLength + 1, k :: key, l :: lastKey =>
      if k ≠ l then 0 else sharedLength minLength key lastKey + 1
  | _, _, _ => 0

/-- The statements both branches of `Add` end with: a header of three words, the bytes of the
key that are not shared, and the value. -/
def appendEntry (stack : ℕ → Bytes) (buffer : Bytes) (shared nonShared valueSize : UInt32)
    (suffix value : Bytes) : Bytes :=
  let buffer := appendWord (stack 0) buffer shared
  let buffer := appendWord (stack 1) buffer nonShared
  let buffer := appendWord (stack 2) buffer valueSize
  buffer ++ suffix ++ value

/-- `shared`, and the bytes of the key behind the shared ones, as the branches of `Add` compute
them: the first entry of a group shares nothing. `min_length` is an `int` that is compared with the
`uint32_t` counter, so it counts modulo `2 ^ 32`. -/
def addedCode (b : BlockBuilder) (key : Bytes) : ℕ × Bytes :=
  if b.counter = 0 then (0, key)
  else
    let minLength := min b.lastKey.length key.length % 2 ^ 32
    let shared := sharedLength minLength key b.lastKey
    (shared, key.drop shared)

/-- What both branches of `Add` do to the buffer. -/
def addEntry (stack : ℕ → Bytes) (b : BlockBuilder) (key value : Bytes) : BlockBuilder :=
  let (shared, suffix) := b.addedCode key
  { b with
    buffer := appendEntry stack b.buffer (UInt32.ofNat shared) (UInt32.ofNat (key.length - shared))
      (UInt32.ofNat value.length) suffix value }

/-- The branch of `Add` for the first entry of a group. -/
def addRestart (stack : ℕ → Bytes) (b : BlockBuilder) (key value : Bytes) : BlockBuilder :=
  { b.addEntry stack key value with restarts := b.restarts ++ [UInt32.ofNat b.buffer.length] }

/-- `Add`. -/
def add (stack : ℕ → Bytes) (b : BlockBuilder) (key value : Bytes) : BlockBuilder :=
  let b := if b.counter = 0 then b.addRestart stack key value else b.addEntry stack key value
  let counter := b.counter + 1
  { b with lastKey := key, counter := if counter ≥ groupSize then 0 else counter }

/-- The loop of `Finish`; the restarts come with their indices. -/
def appendRestarts (stack : ℕ → Bytes) (buffer : Bytes) (restarts : List (UInt32 × ℕ)) : Bytes :=
  restarts.foldl (fun buffer restart => appendWord (stack restart.2) buffer restart.1) buffer

/-- `Finish` up to its `return`: append the restart offsets and their number. -/
def finishBuffer (stack : ℕ → Bytes) (b : BlockBuilder) : BlockBuilder :=
  let buffer := appendRestarts stack b.buffer b.restarts.zipIdx
  { b with
    buffer := appendWord (stack b.restarts.length) buffer (UInt32.ofNat b.restarts.length)
    finished := true }

/-- `Finish`: the slice it returns, and the builder afterwards. -/
def finish (stack : ℕ → Bytes) (b : BlockBuilder) : Except Fault (Slice × BlockBuilder) := do
  let b := b.finishBuffer stack
  let contents ← Slice.ofString b.buffer
  .ok (contents, b)

/-- `CurrentSizeEstimate`. -/
def currentSizeEstimate (b : BlockBuilder) : ℕ := b.buffer.length + b.restarts.length * 4 + 4

/-- The state `Reset` leaves. -/
def reset : BlockBuilder where
  lastKey := []
  buffer := []
  restarts := []
  counter := 0
  finished := false

/-- `Empty`. -/
def empty (b : BlockBuilder) : Bool := b.buffer.length = 0

@[simp]
theorem empty_reset : reset.empty = true := rfl

theorem finish_eq_ok {stack : ℕ → Bytes} {b b' : BlockBuilder} {contents : Slice}
    (h : b.finish stack = .ok (contents, b')) :
    contents.data = (b.finishBuffer stack).buffer ∧ b' = b.finishBuffer stack := by
  obtain ⟨s, hs, h⟩ := bind_eq_ok.mp h
  cases h
  exact ⟨Slice.ofString_eq_ok hs, rfl⟩

/-! ### What the buffer holds -/

/-- A word whose low byte is zero leaves no byte. -/
theorem cString_of_zero {word : UInt32} (h : word.toUInt8 = 0) (stack : Bytes) :
    cString (encodeFixed32 word ++ stack) = [] := by
  simp [cString, encodeFixed32, h]

/-- Any other word leaves its low byte first. -/
theorem cString_of_ne_zero {word : UInt32} (h : word.toUInt8 ≠ 0) (stack : Bytes) :
    ∃ rest, cString (encodeFixed32 word ++ stack) = word.toUInt8 :: rest := by
  simp [cString, encodeFixed32, h]

/-- `Add` appends the entry of what it computes. -/
theorem buffer_add_eq (stack : ℕ → Bytes) (b : BlockBuilder) (key value : Bytes) :
    (b.add stack key value).buffer =
      appendEntry stack b.buffer (UInt32.ofNat (b.addedCode key).1)
        (UInt32.ofNat (key.length - (b.addedCode key).1)) (UInt32.ofNat value.length)
        (b.addedCode key).2 value := by
  rw [add]
  split <;> rfl

theorem exists_buffer_add (stack : ℕ → Bytes) (b : BlockBuilder) (key value : Bytes) :
    ∃ tail, (b.add stack key value).buffer = b.buffer ++ tail := by
  simp [buffer_add_eq, appendEntry, appendWord, List.append_assoc]

/-- Behind an empty key nothing is shared. -/
theorem buffer_add_of_lastKey_nil (stack : ℕ → Bytes) {b : BlockBuilder} (hb : b.lastKey = [])
    (key value : Bytes) : (b.add stack key value).buffer = appendEntry stack b.buffer 0
      (UInt32.ofNat key.length) (UInt32.ofNat value.length) key value := by
  have hcode : b.addedCode key = (0, key) := by simp [addedCode, sharedLength, hb]
  rw [buffer_add_eq, hcode]
  rfl

theorem appendRestarts_eq (stack : ℕ → Bytes) (buffer : Bytes) (restarts : List (UInt32 × ℕ)) :
    appendRestarts stack buffer restarts =
      buffer ++ restarts.flatMap fun w => cString (encodeFixed32 w.1 ++ stack w.2) := by
  induction restarts generalizing buffer with
  | nil => simp [appendRestarts]
  | cons w restarts ih =>
    rw [appendRestarts, List.foldl_cons, ← appendRestarts, ih, appendWord, List.flatMap_cons,
      List.append_assoc]

theorem exists_finishBuffer (stack : ℕ → Bytes) (b : BlockBuilder) :
    ∃ tail, (b.finishBuffer stack).buffer = b.buffer ++ tail := by
  simp [finishBuffer, appendRestarts_eq, appendWord, List.append_assoc]

/-- `b` is what adding the entries in turn makes of `b₀`. -/
inductive Built (b₀ : BlockBuilder) : List (Bytes × Bytes) → BlockBuilder → Prop
  | start : Built b₀ [] b₀
  | add {entries : List (Bytes × Bytes)} {b : BlockBuilder} (stack : ℕ → Bytes)
      (key value : Bytes) : Built b₀ entries b →
        Built b₀ (entries ++ [(key, value)]) (b.add stack key value)

theorem exists_built (b₀ : BlockBuilder) (entries : List (Bytes × Bytes)) :
    ∃ b, Built b₀ entries b := by
  induction entries using List.reverseRecOn with
  | nil => exact ⟨b₀, .start⟩
  | append_singleton entries e ih =>
    obtain ⟨b, hb⟩ := ih
    exact ⟨_, hb.add (fun _ => []) e.1 e.2⟩

theorem Built.eq_of_nil {b₀ b : BlockBuilder} (h : Built b₀ [] b) : b = b₀ := by
  generalize hentries : ([] : List (Bytes × Bytes)) = entries at h
  cases h with
  | start => rfl
  | add => simp at hentries

/-- A builder that was empty and holds something now was added to. -/
theorem Built.ne_nil {b₀ b : BlockBuilder} {entries : List (Bytes × Bytes)}
    (h : Built b₀ entries b) (h₀ : b₀.empty = true) (hb : b.empty = false) : entries ≠ [] := by
  cases h with
  | start =>
    rw [h₀] at hb
    cases hb
  | add => simp

end BlockBuilder

end TinyLeveldb
