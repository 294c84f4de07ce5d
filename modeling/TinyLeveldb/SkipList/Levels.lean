import Mathlib.Data.List.Infix
import TinyLeveldb.SkipList.Structure

/-!
# The level of a skip list

`randomLevel` counts levels from one, while `level` is the highest index of a level from zero. So
an `insert` that draws `maxLevel` leaves `level = maxLevel`, and the next call reads
`head->forward[maxLevel]` of an array of `maxLevel` slots.

Only an `insert` that splices draws a level, and a run ends at its first null dereference: over
runs, the level stays below `maxLevel` and no access is out of bounds exactly when every such draw
is below `maxLevel` (`levelBound_iff`). The arrays have the slots of the source: `maxLevel` for the
`update` vector and for the head, its height for any other node.
-/

namespace TinyLeveldb

open Library

namespace SkipList

variable {Key κ : Type} [LinearOrder κ] (decodeKey : Key → κ)

/-- The run of the calls on a new list. -/
def runNew (maxLevel : ℕ) (hpos : 1 ≤ maxLevel) (nokey : Key) (calls : List (Call Key)) :
    Except Fault (SkipList Key) :=
  runAll (exec decodeKey 0) (new 0 maxLevel hpos nokey) calls

/-- The run made no access out of bounds, and the level it reached is below `maxLevel`. -/
def LevelFits (maxLevel : ℕ) (run : Except Fault (SkipList Key)) : Prop :=
  run ≠ .error .outOfBounds ∧ ∀ s, run = .ok s → s.level < maxLevel

/-- The level bound for one run from the constructed list: in every state it reaches. -/
def LevelBound (maxLevel : ℕ) (hpos : 1 ≤ maxLevel) (nokey : Key) (calls : List (Call Key)) :
    Prop :=
  ∀ pre, pre <+: calls → LevelFits maxLevel (runNew decodeKey maxLevel hpos nokey pre)

/-- The key of the call is above all keys inserted before it, or at most one of them that is not
the largest. -/
def DecidedCall (pre : List (Call Key)) (call : Call Key) : Prop :=
  Decided ((insertedKeys pre).map decodeKey) (decodeKey call.key)

/-- An `insert` of a key above all keys inserted before it draws a level below `maxLevel`. -/
def DrawsBelow (maxLevel : ℕ) (pre : List (Call Key)) : Call Key → Prop
  | .insert coins key => (∀ k ∈ (insertedKeys pre).map decodeKey, k < decodeKey key) →
      randomLevel maxLevel coins < maxLevel
  | .remove _ => True

variable {decodeKey} {maxLevel : ℕ} {hpos : 1 ≤ maxLevel} {nokey : Key}
  {calls : List (Call Key)} {call : Call Key} {s : SkipList Key}

theorem runNew_concat (calls : List (Call Key)) (call : Call Key) :
    runNew decodeKey maxLevel hpos nokey (calls ++ [call]) =
      runNew decodeKey maxLevel hpos nokey calls >>= fun s => exec decodeKey 0 s call :=
  runAll_concat ..

theorem levelBound_concat : LevelBound decodeKey maxLevel hpos nokey (calls ++ [call]) ↔
    LevelBound decodeKey maxLevel hpos nokey calls ∧
      LevelFits maxLevel (runNew decodeKey maxLevel hpos nokey (calls ++ [call])) := by
  constructor
  · intro h
    exact ⟨fun pre hpre => h pre (hpre.trans (List.prefix_append ..)), h _ (List.prefix_refl _)⟩
  · rintro ⟨h, hlast⟩ pre hpre
    rcases List.prefix_concat_iff.mp hpre with rfl | hpre
    · exact hlast
    · exact h pre hpre

/-- **Completed runs** keep the run invariant, and their calls were decided. -/
theorem runInv_of_runNew (h : runNew decodeKey maxLevel hpos nokey calls = .ok s) :
    (∃ ts, RunInv decodeKey 0 calls s ts) ∧ s.maxLevel = maxLevel ∧
      AllSteps (DecidedCall decodeKey) calls := by
  refine runAll_inv (P := fun calls s => (∃ ts, RunInv decodeKey 0 calls s ts) ∧
    s.maxLevel = maxLevel ∧ AllSteps (DecidedCall decodeKey) calls) ?_
    ⟨⟨[], runInv_new ..⟩, rfl, allSteps_nil _⟩ h
  rintro pre call s s' ⟨⟨ts, hinv⟩, hmax, hsteps⟩ hexec
  obtain ⟨hbound, hdec⟩ := hinv.of_exec_ok hexec
  obtain ⟨s'', hs'', hinv', hmax', -⟩ := hinv.exec_ok hbound hdec
  obtain rfl := Except.ok.inj (hexec.symm.trans hs'')
  exact ⟨hinv', hmax'.trans hmax, allSteps_concat.mpr ⟨hsteps, hdec⟩⟩

/-- Within the level bound a run of decided calls completes. -/
theorem exists_runNew (h : LevelBound decodeKey maxLevel hpos nokey calls)
    (hsteps : AllSteps (DecidedCall decodeKey) calls) :
    ∃ s, runNew decodeKey maxLevel hpos nokey calls = .ok s := by
  induction calls using List.reverseRecOn with
  | nil => exact ⟨_, rfl⟩
  | append_singleton calls call ih =>
    obtain ⟨hbefore, -⟩ := levelBound_concat.mp h
    obtain ⟨hsteps, hdec⟩ := allSteps_concat.mp hsteps
    obtain ⟨s, hs⟩ := ih hbefore hsteps
    obtain ⟨⟨ts, hinv⟩, hmax, -⟩ := runInv_of_runNew hs
    have hlevel := (hbefore calls (List.prefix_refl calls)).2 s hs
    obtain ⟨s', hs', -⟩ := hinv.exec_ok (hlevel.trans_eq hmax.symm) hdec
    exact ⟨s', by rw [runNew_concat, hs, ok_bind, hs']⟩

/-- **Step lemma.** From a state below the bound a call keeps the bound exactly when what it draws
is below it: it completes at the greater of the two levels, or dereferences a null pointer. -/
theorem levelFits_exec_iff {ts : List (Tower Key)} (hinv : RunInv decodeKey 0 calls s ts)
    (hmax : s.maxLevel = maxLevel) (hlevel : s.level < maxLevel) :
    LevelFits maxLevel (exec decodeKey 0 s call) ↔ DrawsBelow decodeKey maxLevel calls call := by
  have hbound : s.level < s.maxLevel + 0 := hlevel.trans_eq hmax.symm
  by_cases hdec : DecidedCall decodeKey calls call
  · obtain ⟨s', hs', -, -, hafter⟩ := hinv.exec_ok hbound hdec
    have hfits : LevelFits maxLevel (exec decodeKey 0 s call) ↔ s'.level < maxLevel := by
      rw [LevelFits, hs']
      simp
    rw [hfits, hafter]
    cases call with
    | insert coins key =>
      rw [Call.levelAfter, DrawsBelow, hmax]
      split_ifs with hall
      · rw [Nat.max_lt, and_iff_right hlevel]
        exact ⟨fun hlt _ => hlt, fun hlt => hlt hall⟩
      · exact iff_of_true hlevel fun h => absurd h hall
    | remove key => exact iff_of_true hlevel trivial
  · rw [LevelFits, hinv.exec_eq_nullDeref hbound hdec]
    refine iff_of_true (by simp) ?_
    cases call with
    | insert coins key => exact fun hall => absurd (Or.inl hall) hdec
    | remove key => trivial

/-- **The level bound over runs**, exactly: every `insert` of a key above all keys inserted before
it, in a run that has not ended in a null dereference, draws a level below `maxLevel`. -/
theorem levelBound_iff (decodeKey : Key → κ) (maxLevel : ℕ) (nokey : Key)
    (calls : List (Call Key)) :
    LevelBound decodeKey (maxLevel + 1) (Nat.le_add_left 1 maxLevel) nokey calls ↔
      AllSteps (fun pre call => AllSteps (DecidedCall decodeKey) pre →
        DrawsBelow decodeKey (maxLevel + 1) pre call) calls := by
  induction calls using List.reverseRecOn with
  | nil =>
    refine iff_of_true (fun pre hpre => ?_) (allSteps_nil _)
    rw [List.prefix_nil.mp hpre]
    refine ⟨by simp [runNew], fun s hs => ?_⟩
    obtain rfl := Except.ok.inj hs
    exact Nat.succ_pos maxLevel
  | append_singleton calls call ih =>
    rw [levelBound_concat, allSteps_concat, ← ih]
    refine and_congr_right fun hbefore => ?_
    have hfits := hbefore calls (List.prefix_refl calls)
    rw [runNew_concat]
    cases hrun : runNew decodeKey (maxLevel + 1) (Nat.le_add_left 1 maxLevel) nokey calls with
    | error e =>
      -- the run has ended before the call
      rw [hrun] at hfits
      refine iff_of_true hfits fun hsteps => ?_
      · obtain ⟨s, hs⟩ := exists_runNew hbefore hsteps
        cases hrun.symm.trans hs
    | ok s =>
      obtain ⟨⟨ts, hinv⟩, hmax, hsteps⟩ := runInv_of_runNew hrun
      rw [ok_bind, levelFits_exec_iff hinv hmax (hfits.2 s hrun)]
      exact ⟨fun hdraws _ => hdraws, fun hdraws => hdraws hsteps⟩

/-- With one level the first `insert` leaves `level = 1`, and the second one reads a slot that the
head does not have. -/
theorem not_levelBound_oneLevel :
    runNew (id : Bytes → Bytes) 1 (by decide) [] [.insert [] [97], .insert [] [98]] =
      .error .outOfBounds ∧
    ¬ LevelBound (id : Bytes → Bytes) 1 (by decide) [] [.insert [] [97], .insert [] [98]] := by
  have hrun : runNew (id : Bytes → Bytes) 1 (by decide) [] [.insert [] [97], .insert [] [98]] =
      .error .outOfBounds := rfl
  exact ⟨hrun, fun h => (h _ (List.prefix_refl _)).1 hrun⟩

end SkipList

end TinyLeveldb
