import TinyLeveldb.Block.Encoding
import TinyLeveldb.Table.Builder

/-!
# Block size bookkeeping

`CurrentSizeEstimate` counts four bytes for every word that `Finish` has yet to append, and
`Finish` appends fewer when the word has a zero byte: the first restart is zero, so the estimate is
never the length of the block (`length_finishBuffer_lt`).

`Empty` looks at the bytes of the buffer. An entry of an empty key behind empty keys, and an empty
value, has none: its three words are zero. So `Empty` is right exactly when no pair was added or
one of them has a byte (`buffer_eq_nil_iff`), and `Flush`, which relies on it, skips a block of
empty pairs.
-/

namespace TinyLeveldb

open Library

namespace BlockBuilder

/-- A call on a block builder, with the memory it meets. -/
inductive Op
  | add (stack : ℕ → Bytes) (key value : Bytes)
  | finish (stack : ℕ → Bytes)
  | reset

/-- One call. -/
def step (b : BlockBuilder) : Op → Except Fault BlockBuilder
  | .add stack key value => .ok (b.add stack key value)
  | .finish stack => do
      let (_, b) ← b.finish stack
      .ok b
  | .reset => .ok reset

/-- An `Add`: the memory it meets, and its pair. -/
abbrev AddCall := (ℕ → Bytes) × (Bytes × Bytes)

/-- The history that ends with a `Reset` and the given `Add`s. -/
def history (before : List Op) (adds : List AddCall) : List Op :=
  before ++ .reset :: adds.map fun a => .add a.1 a.2.1 a.2.2

/-- The estimate is the length of what `Finish` makes a slice of, whatever memory it meets. -/
def EstimateExact (b : BlockBuilder) : Prop :=
  ∀ stack, (b.finishBuffer stack).buffer.length = b.currentSizeEstimate

/-- `Empty` says that no pair was added. -/
def EmptyExact (b : BlockBuilder) (pairs : List (Bytes × Bytes)) : Prop :=
  b.empty = true ↔ pairs = []

/-- A `Flush` of a table over this data block that appends nothing to the file has no pending
entry. -/
def FlushExact (b : BlockBuilder) (pairs : List (Bytes × Bytes)) : Prop :=
  ∀ (δ : Type) (writeToFile : δ → Bytes → Except Fault (Status × δ)) (m : Ambient) (s : Status)
    (r r' : TableBuilder δ), r.dataBlock = b → r.flush writeToFile m = .ok (s, r') →
      r'.history.appended = r.history.appended → pairs = []

/-- There are no pairs, or one of them has a byte. -/
def SomeByte (pairs : List (Bytes × Bytes)) : Prop :=
  pairs = [] ∨ ∃ p ∈ pairs, p ≠ ([], [])

variable {b₀ b : BlockBuilder} {before : List Op} {adds : List AddCall}
  {pairs : List (Bytes × Bytes)}

/-- **Run lemma.** After the history the builder is what the pairs make of a reset one. -/
theorem built_of_run (hrun : runAll step b₀ (history before adds) = .ok b) :
    Built reset (adds.map Prod.snd) b := by
  induction adds using List.reverseRecOn generalizing b with
  | nil =>
    obtain ⟨b₁, -, hreset⟩ := bind_eq_ok.mp (runAll_append .. ▸ hrun)
    cases hreset
    exact .start
  | append_singleton adds a ih =>
    have hsplit : history before (adds ++ [a]) =
        history before adds ++ [.add a.1 a.2.1 a.2.2] := by
      simp [history]
    rw [hsplit, runAll_concat] at hrun
    obtain ⟨b₁, hfirst, hadd⟩ := bind_eq_ok.mp hrun
    cases hadd
    rw [List.map_append]
    exact (ih hfirst).add a.1 a.2.1 a.2.2

/-- **The buffer is empty exactly while every pair is.** -/
theorem buffer_eq_nil_iff (h : Built reset pairs b) :
    b.buffer = [] ↔ ∀ p ∈ pairs, p = ([], []) := by
  induction h with
  | start => simp [reset]
  | @add pairs b stack key value hbuilt ih =>
    have hlastKey : b.buffer = [] → b.lastKey = [] := by
      intro hbuffer
      have hmem : lastKeyOf [] pairs ∈ [] :: pairs.map Prod.fst := List.getLastD_mem_cons
      rw [hbuilt.inStep.lastKey_eq]
      rcases List.mem_cons.mp hmem with hnil | hmem
      · exact hnil
      · obtain ⟨p, hp, hlast⟩ := List.mem_map.mp hmem
        rw [← hlast, ih.mp hbuffer p hp]
    rw [List.forall_mem_append, ← ih, List.forall_mem_singleton]
    constructor
    · intro hnil
      obtain ⟨tail, htail⟩ := exists_buffer_add stack b key value
      have hbuffer : b.buffer = [] := (List.append_eq_nil_iff.mp (htail ▸ hnil)).1
      rw [buffer_add_of_lastKey_nil stack (hlastKey hbuffer), appendEntry] at hnil
      obtain ⟨hrest, hvalue⟩ := List.append_eq_nil_iff.mp hnil
      rw [(List.append_eq_nil_iff.mp hrest).2, hvalue]
      exact ⟨hbuffer, rfl⟩
    · rintro ⟨hbuffer, hpair⟩
      obtain ⟨rfl, rfl⟩ := Prod.mk.inj hpair
      -- the three words are zero
      rw [buffer_add_of_lastKey_nil stack (hlastKey hbuffer), appendEntry, hbuffer]
      simp only [appendWord, List.length_nil, List.append_nil, List.nil_append]
      rw [cString_of_zero rfl, cString_of_zero rfl, cString_of_zero rfl]
      rfl

theorem emptyExact_iff (h : Built reset pairs b) : b.EmptyExact pairs ↔ SomeByte pairs := by
  rw [EmptyExact, empty, decide_eq_true_iff, List.length_eq_zero_iff, buffer_eq_nil_iff h, SomeByte]
  constructor
  · intro hexact
    by_contra hcond
    push Not at hcond
    exact hcond.1 (hexact.mp hcond.2)
  · rintro (rfl | ⟨p, hp, hne⟩)
    · simp
    · exact ⟨fun hall => absurd (hall p hp) hne, fun hnil => by simp [hnil] at hp⟩

/-- A completed `Flush` that appends nothing found the data block empty. -/
theorem empty_of_flush {δ : Type} {writeToFile : δ → Bytes → Except Fault (Status × δ)}
    {m : Ambient} {s : Status} {r r' : TableBuilder δ} (h : r.flush writeToFile m = .ok (s, r'))
    (happended : r'.history.appended = r.history.appended) : r.dataBlock.empty = true := by
  rcases TableBuilder.flush_eq_ok h with ⟨hempty, -⟩ | ⟨contents, -, file, filter, -, -, -, rfl⟩
  · exact hempty
  · -- a written block has a trailer of four bytes
    have hlength := congrArg List.length happended
    simp only [TableBuilder.flushed, List.length_append, TableBuilder.length_trailer] at hlength
    omega

theorem flushExact_iff (h : Built reset pairs b) : b.FlushExact pairs ↔ SomeByte pairs := by
  rw [← emptyExact_iff h]
  constructor
  · intro hexact
    refine ⟨fun hempty => ?_, ?_⟩
    · refine hexact Bytes (fun f _ => .ok (.ok, f)) .zeroed .ok
        { TableBuilder.zeroed with dataBlock := b } _ rfl ?_ rfl
      exact if_pos hempty
    · rintro rfl
      rw [h.eq_of_nil]
      rfl
  · rintro hexact δ writeToFile m s r r' rfl hflush happended
    exact hexact.mp (empty_of_flush hflush happended)

/-- **The estimate is never exact**; `Empty` and `Flush` are right exactly when no pair was added
since the last `Reset` or one of them has a byte. -/
theorem bookkeeping_of_run (hrun : runAll step b₀ (history before adds) = .ok b) :
    ¬ b.EstimateExact ∧ (b.EmptyExact (adds.map Prod.snd) ↔ SomeByte (adds.map Prod.snd)) ∧
      (b.FlushExact (adds.map Prod.snd) ↔ SomeByte (adds.map Prod.snd)) := by
  have hbuilt := built_of_run hrun
  refine ⟨fun hexact => ?_, emptyExact_iff hbuilt, flushExact_iff hbuilt⟩
  exact absurd (hexact fun _ => []) (Nat.ne_of_lt (length_finishBuffer_lt hbuilt.inStep))

/-- A block is finished and reset, and two pairs are added, the first of them empty. -/
theorem bookkeeping_of_run_emptyFirst :
    ∃ b, runAll step reset (history [.reset, .add (fun _ => []) [97] [98], .finish fun _ => []]
        [(fun _ => [], ([], [])), (fun _ => [], ([], [99]))]) = .ok b ∧
      ¬ b.EstimateExact ∧ b.EmptyExact [([], []), ([], [99])] ∧
      b.FlushExact [([], []), ([], [99])] := by
  have hrun : ∃ b, runAll step reset
      (history [.reset, .add (fun _ => []) [97] [98], .finish fun _ => []]
        [(fun _ => [], ([], [])), (fun _ => [], ([], [99]))]) = .ok b := ⟨_, rfl⟩
  obtain ⟨b, hrun⟩ := hrun
  obtain ⟨hestimate, hempty, hflush⟩ := bookkeeping_of_run hrun
  have hbyte : SomeByte [([], []), ([], [99])] := .inr ⟨([], [99]), by decide, by decide⟩
  exact ⟨b, hrun, hestimate, hempty.mpr hbyte, hflush.mpr hbyte⟩

/-- After `Reset` and `Add("", "")` the estimate is eight, the block has one byte, `Empty` is true,
and `Flush` appends nothing. -/
theorem not_bookkeeping_emptyPair :
    ∃ b, runAll step reset (history [] [(fun _ => [], ([], []))]) = .ok b ∧
      b.currentSizeEstimate = 8 ∧ (b.finishBuffer fun _ => []).buffer = [1] ∧
      ¬ b.EstimateExact ∧ ¬ b.EmptyExact [([], [])] ∧ ¬ b.FlushExact [([], [])] := by
  refine ⟨_, rfl, rfl, by decide, fun hexact => ?_, fun hexact => ?_, fun hexact => ?_⟩
  · exact absurd (hexact fun _ => []) (by decide)
  · exact absurd (hexact.mp (by decide)) (by decide)
  · obtain ⟨r, hr⟩ : ∃ r : TableBuilder Bytes,
        r = { TableBuilder.zeroed with dataBlock := reset.add (fun _ => []) [] [] } := ⟨_, rfl⟩
    have hempty : r.dataBlock.empty = true := by
      rw [hr]
      decide
    exact absurd (hexact Bytes (fun f _ => .ok (.ok, f)) .zeroed .ok r r (by rw [hr])
      (TableBuilder.flush_of_empty hempty) rfl) (by decide)

end BlockBuilder

end TinyLeveldb
