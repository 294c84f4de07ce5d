import Mathlib.Tactic.Ring
import TinyLeveldb.Block.Iter

/-!
# Block images

What a well-formed block is, apart from the code that builds it: entries whose keys share
prefixes with the keys before them, and the entries at which sharing starts anew. The entries
may be restarts at any spacing, regular or not, as long as the first one is. An iterator
*describes* an image when its members say where the image lies.
-/

namespace TinyLeveldb

open Library

/-- An entry of a block: its full key, and how much of it the entry takes from the key before. -/
structure Entry where
  shared : ℕ
  key : Bytes
  value : Bytes

namespace Entry

/-- The header of three words, the bytes of the key that are not shared, and the value. -/
def bytes (e : Entry) : Bytes :=
  encodeFixed32 (UInt32.ofNat e.shared) ++ encodeFixed32 (UInt32.ofNat (e.key.length - e.shared)) ++
    encodeFixed32 (UInt32.ofNat e.value.length) ++ e.key.drop e.shared ++ e.value

theorem length_bytes (e : Entry) :
    e.bytes.length = 12 + (e.key.length - e.shared) + e.value.length := by
  simp only [bytes, List.length_append, length_encodeFixed32, List.length_drop]

/-- `e'` can follow `e`: what it shares is a prefix of both keys. -/
def Precedes (e e' : Entry) : Prop :=
  e'.shared ≤ e.key.length ∧ e'.key.take e'.shared = e.key.take e'.shared

end Entry

/-- The entries of a block, and the indices of its restart entries. -/
structure Image where
  entries : List Entry
  restarts : List ℕ

namespace Image

/-- The bytes of the entries. -/
def entryBytes (img : Image) : Bytes := img.entries.flatMap Entry.bytes

/-- The offset of entry `i`, and of the restart array for the number of entries. -/
def offset (img : Image) (i : ℕ) : ℕ := ((img.entries.take i).flatMap Entry.bytes).length

/-- The restart array. -/
def restartWords (img : Image) : List UInt32 :=
  img.restarts.map fun r => UInt32.ofNat (img.offset r)

/-- The block. -/
def bytes (img : Image) : Bytes :=
  img.entryBytes ++ ((img.restartWords.map encodeFixed32).flatten ++
    encodeFixed32 (UInt32.ofNat img.restarts.length))

/-- A block in the 12-byte-header format. -/
structure WellFormed (img : Image) : Prop where
  length_lt : img.bytes.length < 2 ^ 32
  precedes : img.entries.IsChain Entry.Precedes
  first : img.entries ≠ [] → img.restarts.head? = some 0
  restarts_lt : ∀ r ∈ img.restarts, r < img.entries.length
  restarts_sorted : img.restarts.Pairwise (· < ·)
  shared_restart : ∀ r ∈ img.restarts, ∀ e, img.entries[r]? = some e → e.shared = 0

/-- The part of the format that speaks of the restarts, for a block of any length. -/
structure RestartsWellFormed (img : Image) : Prop where
  restarts_lt : ∀ r ∈ img.restarts, r < img.entries.length
  restarts_sorted : img.restarts.Pairwise (· < ·)
  shared_restart : ∀ r ∈ img.restarts, ∀ e, img.entries[r]? = some e → e.shared = 0

theorem WellFormed.restartsWellFormed {img : Image} (hw : img.WellFormed) :
    img.RestartsWellFormed :=
  ⟨hw.restarts_lt, hw.restarts_sorted, hw.shared_restart⟩

/-- The keys are strictly increasing. -/
def Sorted (img : Image) : Prop := img.entries.Pairwise fun e e' => e.key < e'.key

/-! ### Offsets -/

variable {img : Image} {i : ℕ} {e : Entry}

theorem offset_length (img : Image) : img.offset img.entries.length = img.entryBytes.length := by
  rw [offset, List.take_length, entryBytes]

theorem offset_succ (hi : img.entries[i]? = some e) :
    img.offset (i + 1) = img.offset i + e.bytes.length := by
  rw [offset, offset, List.take_add_one, hi, List.flatMap_append, List.length_append]
  simp

theorem offset_le_offset (img : Image) {i j : ℕ} (hij : i ≤ j) : img.offset i ≤ img.offset j := by
  have hprefix : img.entries.take i <+: img.entries.take j := List.take_prefix_take_left hij
  obtain ⟨rest, hrest⟩ := hprefix
  rw [offset, offset, ← hrest, List.flatMap_append, List.length_append]
  exact Nat.le_add_right _ _

theorem offset_le (img : Image) (i : ℕ) : img.offset i ≤ img.entryBytes.length := by
  rcases le_total i img.entries.length with hi | hi
  · exact (img.offset_le_offset hi).trans (le_of_eq img.offset_length)
  · rw [offset, entryBytes, List.take_of_length_le hi]

/-- The bytes from the offset of an entry on begin with the entry. -/
theorem exists_drop_offset (hi : img.entries[i]? = some e) :
    ∃ rest, img.bytes.drop (img.offset i) = e.bytes ++ rest := by
  obtain ⟨hlt, rfl⟩ := List.getElem?_eq_some_iff.mp hi
  have hsplit : img.entryBytes = (img.entries.take i).flatMap Entry.bytes ++
      (img.entries[i].bytes ++ (img.entries.drop (i + 1)).flatMap Entry.bytes) := by
    rw [entryBytes]
    conv_lhs => rw [← List.take_append_drop i img.entries, List.drop_eq_getElem_cons hlt]
    rw [List.flatMap_append, List.flatMap_cons]
  refine ⟨(img.entries.drop (i + 1)).flatMap Entry.bytes ++
    ((img.restartWords.map encodeFixed32).flatten ++
      encodeFixed32 (UInt32.ofNat img.restarts.length)), ?_⟩
  rw [bytes, hsplit, offset, List.append_assoc, List.drop_left, List.append_assoc]

theorem length_bytes (img : Image) :
    img.bytes.length = img.entryBytes.length + (4 * img.restarts.length + 4) := by
  rw [bytes, List.length_append, List.length_append, length_flatten_encodeFixed32,
    length_encodeFixed32, restartWords, List.length_map]

end Image

/-- The members of the iterator say where the image lies. -/
structure BlockIter.Describes (it : BlockIter) (img : Image) : Prop where
  data : it.data = img.bytes
  restarts : it.restarts.toNat = img.entryBytes.length
  restartsNum : it.restartsNum.toNat = img.restarts.length

/-! ### Reads -/

section Reads

variable {data : Bytes} {n : ℕ}

theorem drop_add_of_drop {a b : Bytes} (h : data.drop n = a ++ b) :
    data.drop (n + a.length) = b := by
  rw [← List.drop_drop, h, List.drop_left]

theorem readFixed32_of_drop {word : UInt32} {rest : Bytes}
    (h : data.drop n = encodeFixed32 word ++ rest) : readFixed32 data n = .ok word := by
  have hlength := congrArg List.length h
  rw [List.length_drop, List.length_append, length_encodeFixed32] at hlength
  rw [readFixed32, if_pos ⟨by omega, by omega⟩, Int.toNat_natCast, h,
    decodeFixed32_encodeFixed32_append]

theorem readString_of_drop {str rest : Bytes} (hn : n ≤ data.length)
    (h : data.drop n = str ++ rest) : readString data n str.length = .ok str := by
  have hlength := congrArg List.length h
  rw [List.length_drop, List.length_append] at hlength
  rw [readString, if_pos (by omega), h, List.take_left]

variable {img : Image} {i : ℕ} {e : Entry}

/-- What the reads of `parseNext` find at the offset of an entry. -/
theorem Image.read_entry (hi : img.entries[i]? = some e) :
    readFixed32 img.bytes (img.offset i : ℕ) = .ok (UInt32.ofNat e.shared) ∧
    readFixed32 img.bytes ((img.offset i : ℕ) + 4) =
      .ok (UInt32.ofNat (e.key.length - e.shared)) ∧
    readFixed32 img.bytes ((img.offset i : ℕ) + 8) = .ok (UInt32.ofNat e.value.length) ∧
    readString img.bytes (img.offset i + 12) (e.key.length - e.shared) =
      .ok (e.key.drop e.shared) ∧
    readString img.bytes (img.offset i + 12 + (e.key.length - e.shared)) e.value.length =
      .ok e.value := by
  obtain ⟨rest, hrest⟩ := img.exists_drop_offset hi
  have hlength : img.offset i + e.bytes.length ≤ img.bytes.length := by
    rw [← img.offset_succ hi, img.length_bytes]
    exact (img.offset_le (i + 1)).trans (Nat.le_add_right _ _)
  rw [e.length_bytes] at hlength
  simp only [Entry.bytes, List.append_assoc] at hrest
  have h4 := drop_add_of_drop hrest
  have h8 := drop_add_of_drop h4
  have h12 := drop_add_of_drop h8
  have hvalue := drop_add_of_drop h12
  simp only [length_encodeFixed32, List.length_drop, Nat.add_assoc, Nat.reduceAdd]
    at h4 h8 h12 hvalue
  refine ⟨readFixed32_of_drop hrest, readFixed32_of_drop h4, readFixed32_of_drop h8, ?_, ?_⟩
  · rw [← List.length_drop]
    exact readString_of_drop (by omega) h12
  · rw [Nat.add_assoc]
    exact readString_of_drop (by omega) hvalue

/-- Word `j` of the restart array. -/
theorem Image.read_restart {j r : ℕ} (hj : img.restarts[j]? = some r) :
    readFixed32 img.bytes ((img.entryBytes.length : ℕ) + (j : ℤ) * 4) =
      .ok (UInt32.ofNat (img.offset r)) := by
  obtain ⟨hlt, rfl⟩ := List.getElem?_eq_some_iff.mp hj
  have hwords : j < img.restartWords.length := by rwa [restartWords, List.length_map]
  have hdrop : img.bytes.drop (img.entryBytes.length + 4 * j) =
      ((img.restartWords.map encodeFixed32).flatten ++
        encodeFixed32 (UInt32.ofNat img.restarts.length)).drop (4 * j) := by
    rw [← List.drop_drop, bytes, List.drop_left]
  have hoffset : (img.entryBytes.length : ℤ) + (j : ℤ) * 4 =
      ((img.entryBytes.length + 4 * j : ℕ) : ℤ) := by
    push_cast
    ring
  rw [hoffset, readFixed32, if_pos ⟨by omega, by rw [img.length_bytes]; omega⟩,
    Int.toNat_natCast, hdrop, decodeFixed32_drop_words _ _ hwords]
  simp [restartWords, List.getD_eq_getElem?_getD, List.getElem?_map, List.getElem?_eq_getElem hlt]

end Reads

end TinyLeveldb
