import TinyLeveldb.Coding

/-!
# The block format

What a block is meant to contain, independently of the code that builds and reads it: entries,
each a header of three words (the bytes shared with the key before, the bytes of the key that
are not, and the bytes of the value), the rest of the key, and the value; the offsets of the
restart entries; and their number.
-/

namespace TinyLeveldb

/-- The entry at the head of the bytes, after the given key, and the bytes behind it. -/
def decodeEntry (lastKey data : Bytes) : Option ((Bytes × Bytes) × Bytes) :=
  if data.length < 12 then none
  else
    let shared := (decodeFixed32 data).toNat
    let nonShared := (decodeFixed32 (data.drop 4)).toNat
    let valueSize := (decodeFixed32 (data.drop 8)).toNat
    let data := data.drop 12
    if shared ≤ lastKey.length ∧ nonShared + valueSize ≤ data.length then
      some ((lastKey.take shared ++ data.take nonShared, (data.drop nonShared).take valueSize),
        data.drop (nonShared + valueSize))
    else none

/-- The entries the bytes consist of. Every entry has bytes, so `data.length` rounds suffice. -/
def decodeEntries : ℕ → Bytes → Bytes → Option (List (Bytes × Bytes))
  | _, _, [] => some []
  | 0, _, _ :: _ => none
  | fuel + 1, lastKey, byte :: data => do
      let (entry, data) ← decodeEntry lastKey (byte :: data)
      let entries ← decodeEntries fuel entry.1 data
      some (entry :: entries)

/-- The entries of a block. -/
def decodeBlock (block : Bytes) : Option (List (Bytes × Bytes)) :=
  if block.length < 4 then none
  else
    let restartNum := (decodeFixed32 (block.drop (block.length - 4))).toNat
    if restartNum * 4 + 4 ≤ block.length then
      decodeEntries block.length [] (block.take (block.length - (restartNum * 4 + 4)))
    else none

/-- Two entries that share a byte of their keys, one restart. -/
example : decodeBlock ([0, 0, 0, 0, 2, 0, 0, 0, 1, 0, 0, 0, 97, 98, 49] ++
    [1, 0, 0, 0, 1, 0, 0, 0, 1, 0, 0, 0, 99, 50] ++ [0, 0, 0, 0] ++ [1, 0, 0, 0]) =
      some [([97, 98], [49]), ([97, 99], [50])] := by
  decide

/-- The first key of a block shares nothing, so no entry begins with a byte that is not zero. -/
theorem decodeEntry_cons {byte : UInt8} (h : byte ≠ 0) (rest : Bytes) :
    decodeEntry [] (byte :: rest) = none := by
  have hshared : (decodeFixed32 (byte :: rest)).toNat ≠ 0 := fun hzero =>
    decodeFixed32_cons_ne_zero h rest (UInt32.toNat_inj.mp hzero)
  unfold decodeEntry
  split
  · rfl
  · exact if_neg fun hle => hshared (Nat.le_zero.mp hle.1)

/-- A block whose first byte is not zero has no entry. -/
theorem decodeBlock_cons {byte : UInt8} (h : byte ≠ 0) {rest : Bytes}
    {entries : List (Bytes × Bytes)} (hdecode : decodeBlock (byte :: rest) = some entries) :
    entries = [] := by
  simp only [decodeBlock] at hdecode
  split at hdecode
  · cases hdecode
  split at hdecode
  · -- what precedes the restart array is empty or begins with the byte
    generalize (byte :: rest).length - (_ * 4 + 4) = n at hdecode
    cases n with
    | zero =>
      rw [List.take_zero, List.length_cons, decodeEntries] at hdecode
      exact (Option.some.inj hdecode).symm
    | succ n =>
      rw [List.take_succ_cons, List.length_cons, decodeEntries, decodeEntry_cons h] at hdecode
      cases hdecode
  · cases hdecode

end TinyLeveldb
