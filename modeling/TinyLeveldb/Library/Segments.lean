import Mathlib.Data.List.GetD
import Mathlib.Order.Basic

/-!
# Concatenated segments and their offsets

A list of segments stored as one string, `segs.flatten`, with the offset at which each begins:
segment `i` is what lies between `startOf segs i` and `startOf segs (i + 1)`. Appending a
segment appends one offset, the length of the string so far.

When the string is strictly sorted and no segment is empty, the last elements of the segments
separate them: they are strictly sorted, and each segment lies above the last element of every
segment before it and up to its own.
-/

namespace Library

variable {α : Type*} {segs : List (List α)} {seg : List α} {i j : ℕ}

/-- The offset of segment `i`: the length of the segments before it. -/
def startOf (segs : List (List α)) (i : ℕ) : ℕ := (segs.take i).flatten.length

/-- The offsets of all segments. -/
def starts (segs : List (List α)) : List ℕ := (List.range segs.length).map (startOf segs)

@[simp]
theorem length_starts : (starts segs).length = segs.length := by simp [starts]

theorem startOf_of_length_le (h : segs.length ≤ i) : startOf segs i = segs.flatten.length := by
  rw [startOf, List.take_of_length_le h]

theorem startOf_succ (h : i < segs.length) :
    startOf segs (i + 1) = startOf segs i + segs[i].length := by
  rw [startOf, startOf, List.take_succ_eq_append_getElem h, List.flatten_append,
    List.length_append]
  simp

theorem startOf_mono (h : i ≤ j) : startOf segs i ≤ startOf segs j := by
  have hsplit := List.take_append_drop i (segs.take j)
  rw [List.take_take, Nat.min_eq_left h] at hsplit
  rw [startOf, startOf, ← hsplit, List.flatten_append, List.length_append]
  omega

theorem startOf_le (h : i ≤ segs.length) : startOf segs i ≤ segs.flatten.length :=
  startOf_of_length_le (Nat.le_refl segs.length) ▸ startOf_mono h

theorem startOf_concat (h : i ≤ segs.length) : startOf (segs ++ [seg]) i = startOf segs i := by
  rw [startOf, startOf, List.take_append_of_le_length h]

/-- **Appending a segment** appends the length of the string so far to the offsets. -/
theorem starts_concat : starts (segs ++ [seg]) = starts segs ++ [segs.flatten.length] := by
  rw [starts, List.length_append, List.length_singleton, List.range_succ, List.map_append,
    List.map_singleton, startOf_concat (Nat.le_refl _), startOf_of_length_le (Nat.le_refl _),
    starts]
  congr 1
  exact List.map_congr_left fun i hi => startOf_concat (Nat.le_of_lt (List.mem_range.mp hi))

theorem getD_starts (h : i < segs.length) : (starts segs).getD i 0 = startOf segs i := by
  simp [starts, List.getD_eq_getElem?_getD, h]

/-- The offsets and the total length: entry `i + 1` is where segment `i` ends. -/
theorem getD_starts_append (h : i ≤ segs.length) :
    (starts segs ++ [segs.flatten.length]).getD i 0 = startOf segs i := by
  rcases Nat.lt_or_eq_of_le h with hlt | rfl
  · rw [List.getD_append _ _ _ _ (by simpa using hlt), getD_starts hlt]
  · rw [List.getD_append_right _ _ _ _ (by simp), startOf_of_length_le (Nat.le_refl _)]
    simp

/-- **A segment is what lies between its offset and the next.** -/
theorem take_drop_flatten (h : i < segs.length) (rest : List α) :
    ((segs.flatten ++ rest).drop (startOf segs i)).take (startOf segs (i + 1) - startOf segs i) =
      segs[i] := by
  have hsplit : segs.flatten =
      (segs.take i).flatten ++ (segs[i] ++ (segs.drop (i + 1)).flatten) := by
    rw [← List.flatten_cons, List.getElem_cons_drop, ← List.flatten_append, List.take_append_drop]
  rw [startOf_succ h, Nat.add_sub_cancel_left, hsplit, startOf, List.append_assoc,
    List.drop_left, List.append_assoc, List.take_left]

/-! ### Sorted segments -/

theorem getLastD_mem {d : α} (hne : seg ≠ []) : seg.getLastD d ∈ seg := by
  rw [List.getLastD_eq_getLast?, List.getLast?_eq_some_getLast hne]
  exact List.getLast_mem hne

section Sorted

variable {κ : Type*} [Preorder κ] {parts : List (List κ)} {d : κ}

/-- Every element of a segment is below every element of the segments after it. -/
theorem lt_of_mem_segments (h : parts.flatten.Pairwise (· < ·)) {x y : κ} (hij : i < j)
    (hj : j < parts.length) (hx : x ∈ parts[i]) (hy : y ∈ parts[j]) : x < y := by
  have hparts := (List.pairwise_flatten.mp h).2
  exact List.pairwise_iff_getElem.mp hparts i j _ hj hij x hx y hy

/-- The last elements of the segments are strictly sorted. -/
theorem pairwise_getLastD (h : parts.flatten.Pairwise (· < ·)) (hne : ∀ part ∈ parts, part ≠ []) :
    (parts.map (·.getLastD d)).Pairwise (· < ·) := by
  rw [List.pairwise_map, List.pairwise_iff_getElem]
  intro i j hi hj hij
  exact lt_of_mem_segments h hij hj (getLastD_mem (hne _ (List.getElem_mem hi)))
    (getLastD_mem (hne _ (List.getElem_mem hj)))

/-- A segment lies above the last elements of the segments before it. -/
theorem getLastD_lt (h : parts.flatten.Pairwise (· < ·)) (hne : ∀ part ∈ parts, part ≠ [])
    {x : κ} (hij : i < j) (hj : j < parts.length) (hx : x ∈ parts[j]) :
    parts[i].getLastD d < x :=
  lt_of_mem_segments h hij hj (getLastD_mem (hne _ (List.getElem_mem (Nat.lt_trans hij hj)))) hx

/-- A segment lies up to its last element. -/
theorem le_getLastD (h : parts.flatten.Pairwise (· < ·)) {part : List κ} (hpart : part ∈ parts)
    {x : κ} (hx : x ∈ part) : x ≤ part.getLastD d := by
  have hsorted := (List.pairwise_flatten.mp h).1 part hpart
  rcases List.eq_nil_or_concat part with rfl | ⟨init, last, rfl⟩
  · cases hx
  · rw [List.concat_eq_append] at hx hsorted ⊢
    rw [List.getLastD_concat]
    rcases List.mem_append.mp hx with hx | hx
    · exact le_of_lt
        ((List.pairwise_append.mp hsorted).2.2 x hx last (List.mem_singleton_self last))
    · exact le_of_eq (List.mem_singleton.mp hx)

end Sorted

end Library
