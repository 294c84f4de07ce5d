import TinyLeveldb.Library.CommonPrefix

/-!
# Front coding

A list of words is front coded when each word is replaced by the number of letters it takes
from the word before it and the letters that remain. Some indices are starts, where nothing is
taken. Taking the longest common prefix everywhere else loses nothing (`rebuild_frontCode`), and
the words behind a start can be rebuilt without the ones before it (`rebuild_drop_frontCode`).
-/

namespace Library

variable {α : Type*}

/-- The words that a list of codes stands for behind the given word: each code is the number of
letters to take from the word before, and the letters to put behind them. -/
def rebuild : List α → List (ℕ × List α) → List (List α)
  | _, [] => []
  | last, (shared, suffix) :: codes =>
      (last.take shared ++ suffix) :: rebuild (last.take shared ++ suffix) codes

/-- The word can take its first `n` letters from the word before it. -/
def Shares (last word : List α) (n : ℕ) : Prop :=
  n ≤ word.length ∧ last.take n ++ word.drop n = word

section Code

variable [DecidableEq α]

theorem shares_iff_le {last word : List α} {n : ℕ} :
    Shares last word n ↔ n ≤ commonPrefixLength last word := by
  rw [le_commonPrefixLength_iff]
  constructor
  · rintro ⟨hword, heq⟩
    have hlength := congrArg List.length heq
    rw [List.length_append, List.length_take, List.length_drop] at hlength
    exact ⟨by omega, hword,
      List.append_cancel_right (heq.trans (List.take_append_drop n word).symm)⟩
  · rintro ⟨-, hword, htake⟩
    exact ⟨hword, by rw [htake, List.take_append_drop]⟩

/-- The code of a word behind another, at a start or elsewhere. -/
def codeWord (start : Prop) [Decidable start] (last word : List α) : ℕ × List α :=
  if start then (0, word)
  else (commonPrefixLength last word, word.drop (commonPrefixLength last word))

variable (starts : ℕ → Prop) [DecidablePred starts]

/-- The codes of the words from index `j` on, behind the given word. -/
def frontCode : ℕ → List α → List (List α) → List (ℕ × List α)
  | _, _, [] => []
  | j, last, word :: words => codeWord (starts j) last word :: frontCode (j + 1) word words

variable {starts} {j : ℕ} {last : List α} {words : List (List α)}

/-- What is taken is a common prefix, and the rest of the word is kept. -/
theorem shares_codeWord (start : Prop) [Decidable start] (last word : List α) :
    Shares last word (codeWord start last word).1 ∧
      (codeWord start last word).2 = word.drop (codeWord start last word).1 := by
  unfold codeWord
  split_ifs
  · exact ⟨⟨Nat.zero_le _, rfl⟩, rfl⟩
  · exact ⟨shares_iff_le.mpr (Nat.le_refl _), rfl⟩

/-- **Front coding is lossless.** -/
theorem rebuild_frontCode (j : ℕ) (last : List α) (words : List (List α)) :
    rebuild last (frontCode starts j last words) = words := by
  induction words generalizing j last with
  | nil => rfl
  | cons word words ih =>
    obtain ⟨⟨-, hword⟩, hsuffix⟩ := shares_codeWord (starts j) last word
    rw [frontCode, rebuild, hsuffix, hword, ih]

/-- At a start the word before does not matter. -/
theorem frontCode_of_start (hj : starts j) (last last' : List α) (words : List (List α)) :
    frontCode starts j last words = frontCode starts j last' words := by
  cases words with
  | nil => rfl
  | cons word words => rw [frontCode, frontCode, codeWord, codeWord, if_pos hj, if_pos hj]

/-- The codes from an index on are those of the words from there on. -/
theorem exists_drop_frontCode (starts : ℕ → Prop) [DecidablePred starts] (m j : ℕ)
    (last : List α) (words : List (List α)) :
    ∃ last', (frontCode starts j last words).drop m =
      frontCode starts (j + m) last' (words.drop m) := by
  induction m generalizing j last words with
  | zero => exact ⟨last, rfl⟩
  | succ m ih =>
    cases words with
    | nil => exact ⟨last, by simp [frontCode]⟩
    | cons word words =>
      obtain ⟨last', hdrop⟩ := ih (j + 1) word words
      refine ⟨last', ?_⟩
      rw [frontCode, List.drop_succ_cons, hdrop, List.drop_succ_cons, Nat.add_right_comm,
        Nat.add_assoc]

/-- **Rebuilding can begin at any start**, behind any word. -/
theorem rebuild_drop_frontCode {m : ℕ} (hstart : starts (j + m)) (last last' : List α)
    (words : List (List α)) :
    rebuild last' ((frontCode starts j last words).drop m) = words.drop m := by
  obtain ⟨last'', hdrop⟩ := exists_drop_frontCode starts m j last words
  rw [hdrop, frontCode_of_start hstart last'' last', rebuild_frontCode]

/-- The code at an index is that of its word behind the one before it. -/
theorem getElem?_frontCode {i : ℕ} {word before : List α} (hword : words[i]? = some word)
    (hbefore : (last :: words)[i]? = some before) :
    (frontCode starts j last words)[i]? = some (codeWord (starts (j + i)) before word) := by
  induction i generalizing j last words with
  | zero =>
    obtain ⟨words', rfl⟩ : ∃ words', words = word :: words' := by
      rwa [← List.head?_eq_getElem?, List.head?_eq_some_iff] at hword
    obtain rfl := Option.some.inj hbefore
    rfl
  | succ i ih =>
    cases words with
    | nil => simp at hword
    | cons first words =>
      rw [frontCode, List.getElem?_cons_succ, ih hword hbefore, Nat.add_assoc, Nat.add_comm 1]

end Code

end Library
