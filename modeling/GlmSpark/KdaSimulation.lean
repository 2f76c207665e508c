import Mathlib.Algebra.Field.Rat
import Mathlib.Data.Fintype.Prod
import GlmSpark.KdaStash
import GlmSpark.Runs

/-!
# The stash simulates the stock state slots

Two memories are run side by side on the same launches, one by the stash kernel and
one by the stock kernel, each in any interleaving of its programs. Slot 0 of a
sequence always holds the stock state. The other slots of the last step hold the
stock states, or records from which the stock states follow one after another.

The parity of the records flips with every step that stores any. All blocks of a
head agree on it, so that no block replays the half of the side buffer that the
first block is writing.
-/

namespace GlmSpark.KdaSimulation

open Launch Program KdaStash Runs
open scoped BigOperators

variable {σ F : Type} [DecidableEq σ] [Field F] {shape : Shape}

section Tokens

/-- The state after some more tokens of a step. -/
def stateAfter (layer : Layer F shape) (head : Fin shape.HV) (block : Fin shape.NV)
    (tokens : List (Token F shape)) (state : Tile F shape) (t : Nat) : Tile F shape :=
  (tokens.take (t + 1)).foldl (fun state token => (layer.record token head block).apply state) state

/-- What the token loop leaves for one token. -/
structure Leaves (layer : Layer F shape) (slots : Nat → Int) (fullFlag newPar : Bool) (sequence : σ)
    (head : Fin shape.HV) (block : Fin shape.NV) (t : Nat) (token : Token F shape)
    (state : Tile F shape) (memory : Memory σ F shape) : Prop where
  out : ∀ row, memory (.out sequence t head block row) =
    .value (layer.output token head state row)
  full : t = 0 ∨ fullFlag = true → ∀ row col,
    memory (.state (slots t) head block row col) = .value (state row col)
  own : ¬ (t = 0 ∨ fullFlag = true) → markAt memory (slots t) head block = .mark newPar ∧
    (∀ row, memory (.state (slots t) head block (ownRow shape) (valueCol shape row)) =
      .value (token.v head block row)) ∧
    memory (.state (slots t) head block (ownRow shape) (betaCol shape)) =
      .value (layer.sigmoid (token.beta head))
  shared : ¬ (t = 0 ∨ fullFlag = true) → (block : Nat) = 0 → ∀ col,
    memory (.aux (slots t) head newPar .key col) =
        .value (layer.normalise (token.k (queryHead head)) col) ∧
      memory (.aux (slots t) head newPar .decay col) = .value (layer.decay token head col)

variable (layer : Layer F shape) (slots : Nat → Int) (fullFlag newPar : Bool) (sequence : σ)
  (head : Fin shape.HV) (block : Fin shape.NV)

omit [DecidableEq σ] in
/-- What a token leaves is only in the cells of the token. -/
theorem Leaves.congr {t : Nat} {token : Token F shape} {state : Tile F shape}
    {memory other : Memory σ F shape}
    (leaves : Leaves layer slots fullFlag newPar sequence head block t token state memory)
    (same : ∀ cell, TokenCell slots newPar sequence head block t cell → other cell = memory cell) :
    Leaves layer slots fullFlag newPar sequence head block t token state other where
  out row := (same _ (Or.inr (Or.inr ⟨row, rfl⟩))).trans (leaves.out row)
  full stored row col := (same _ (Or.inl ⟨row, col, rfl⟩)).trans (leaves.full stored row col)
  own record := by
    obtain ⟨mark, values, beta⟩ := leaves.own record
    refine ⟨(same _ (Or.inl ⟨_, _, rfl⟩)).trans mark, fun row => ?_, ?_⟩
    · exact (same _ (Or.inl ⟨_, _, rfl⟩)).trans (values row)
    · exact (same _ (Or.inl ⟨_, _, rfl⟩)).trans beta
  shared record first col := by
    have later : t ≠ 0 := fun zero => record (Or.inl zero)
    obtain ⟨key, decay⟩ := leaves.shared record first col
    exact ⟨(same _ (Or.inr (Or.inl ⟨first, later, _, _, rfl⟩))).trans key,
      (same _ (Or.inr (Or.inl ⟨first, later, _, _, rfl⟩))).trans decay⟩

omit [DecidableEq σ] [Field F] in
/-- The cells of different tokens are different. -/
theorem tokenCell_unique (injective : Function.Injective slots) {t other : Nat}
    {cell : Cell σ shape} (one : TokenCell slots newPar sequence head block t cell)
    (two : TokenCell slots newPar sequence head block other cell) : t = other := by
  rcases one with ⟨_, _, rfl⟩ | ⟨_, _, _, _, rfl⟩ | ⟨_, rfl⟩
  · rcases two with ⟨_, _, same⟩ | ⟨_, _, _, _, same⟩ | ⟨_, same⟩
    · injection same with slot
      exact injective slot
    · nomatch same
    · nomatch same
  · rcases two with ⟨_, _, same⟩ | ⟨_, _, _, _, same⟩ | ⟨_, same⟩
    · nomatch same
    · injection same with slot
      exact injective slot
    · nomatch same
  · rcases two with ⟨_, _, same⟩ | ⟨_, _, _, _, same⟩ | ⟨_, same⟩
    · nomatch same
    · nomatch same
    · injection same

omit [DecidableEq σ] [Field F] in
/-- A store in a block at one of its cells. -/
theorem run_storeBlock [Inhabited (Word F)] (slot : Int)
    (words : Fin shape.BV → Fin shape.K → Option (Word F)) (memory : Memory σ F shape)
    (row : Fin shape.BV) (col : Fin shape.K) :
    (run (storeBlock slot head block words) memory).2 (.state slot head block row col) =
      (words row col).getD (memory (.state slot head block row col)) := by
  simp [storeBlock, run, written]

omit [DecidableEq σ] in
/-- What a token leaves in its slot when the state is stored. -/
theorem storeSlot_full (positive : ∀ j, 0 < slots j) (t : Nat) (token : Token F shape)
    (state : Tile F shape) (memory : Memory σ F shape) (stored : t = 0 ∨ fullFlag = true)
    (row : Fin shape.BV) (col : Fin shape.K) :
    (run (storeSlot layer slots fullFlag newPar head block t token state) memory).2
      (.state (slots t) head block row col) = .value (state row col) := by
  rw [storeSlot, if_pos (positive t), if_pos stored, storeTile, run_storeBlock, Option.getD_some]

omit [DecidableEq σ] in
/-- What a token leaves in the row of its program when a record is stored. -/
theorem storeSlot_own (positive : ∀ j, 0 < slots j) (t : Nat) (token : Token F shape)
    (state : Tile F shape) (memory : Memory σ F shape) (record : ¬ (t = 0 ∨ fullFlag = true)) :
    let after := (run (storeSlot layer slots fullFlag newPar head block t token state) memory).2
    markAt after (slots t) head block = .mark newPar ∧
      (∀ row, after (.state (slots t) head block (ownRow shape) (valueCol shape row)) =
        .value (token.v head block row)) ∧
      after (.state (slots t) head block (ownRow shape) (betaCol shape)) =
        .value (layer.sigmoid (token.beta head)) := by
  intro after
  have betaMark : betaCol shape ≠ markCol shape := by simp [betaCol, markCol]
  have valueMark : ∀ row, valueCol shape row ≠ markCol shape := by
    intro row same
    have := row.isLt
    simp only [valueCol, markCol, Fin.mk.injEq] at same
    omega
  have valueBeta : ∀ row, valueCol shape row ≠ betaCol shape := by
    intro row same
    have := row.isLt
    simp only [valueCol, betaCol, Fin.mk.injEq] at same
    omega
  have unfolded : after = (run (do
      storeWord (slots t) head block (betaCol shape) (.value (layer.record token head block).beta)
      storeWord (slots t) head block (markCol shape) (.mark newPar))
      (run (storeValues (slots t) head block (layer.record token head block).value)
        (run (storeShared (slots t) head block newPar (layer.record token head block))
          memory).2).2).2 := by
    simp only [after, storeSlot, gt_iff_lt, positive t, if_true, record, if_false, run_bind]
  rw [unfolded]
  generalize (run (storeShared (slots t) head block newPar (layer.record token head block))
    memory).2 = shared
  refine ⟨?_, fun row => ?_, ?_⟩
  · rw [markAt, run_bind, storeWord, storeWord, run_storeBlock]
    simp
  · have inside : (valueCol shape row : Nat) < shape.BV := row.isLt
    rw [run_bind, storeWord, storeWord, run_storeBlock, run_storeBlock, storeValues, run_storeBlock]
    simp only [valueMark, valueBeta, and_false, if_false, Option.getD_none, if_true, inside,
      dif_pos, Option.getD_some]
    rfl
  · rw [run_bind, storeWord, storeWord, run_storeBlock, run_storeBlock]
    simp [betaMark, Layer.record]

omit [DecidableEq σ] in
/-- What the first block leaves in the side buffer when a record is stored. -/
theorem storeSlot_shared (positive : ∀ j, 0 < slots j) (t : Nat) (token : Token F shape)
    (state : Tile F shape) (memory : Memory σ F shape) (record : ¬ (t = 0 ∨ fullFlag = true))
    (first : (block : Nat) = 0) (col : Fin shape.K) :
    let after := (run (storeSlot layer slots fullFlag newPar head block t token state) memory).2
    after (.aux (slots t) head newPar .key col) =
        .value (layer.normalise (token.k (queryHead head)) col) ∧
      after (.aux (slots t) head newPar .decay col) = .value (layer.decay token head col) := by
  simp [storeSlot, positive t, record, storeShared, first, storeAux, storeValues, storeWord,
    storeBlock, run, written, Layer.record]

omit [DecidableEq σ] in
/-- Writing a slot's record leaves the outputs alone, which are in cells of their own. -/
theorem storeSlot_out (t : Nat) (token : Token F shape) (state : Tile F shape)
    (memory : Memory σ F shape) (other : σ) (number : Nat) (row : Fin shape.BV) :
    (run (storeSlot layer slots fullFlag newPar head block t token state) memory).2
      (.out other number head block row) = memory (.out other number head block row) := by
  rw [storeSlot]
  split
  · split
    · rfl
    · rw [storeShared]
      split <;> rfl
  · rfl

/-- The token loop leaves every token, with the state after it. -/
theorem stashTokens_leaves (positive : ∀ j, 0 < slots j) (injective : Function.Injective slots)
    (tokens : List (Token F shape)) (t : Nat) (state : Tile F shape) (memory : Memory σ F shape)
    (i : Nat) (token : Token F shape) (listed : tokens[i]? = some token) :
    Leaves layer slots fullFlag newPar sequence head block (t + i) token
      (stateAfter layer head block tokens state i)
      (run (stashTokens layer slots fullFlag newPar sequence head block tokens t state) memory).2 := by
  induction tokens generalizing t state memory i with
  | nil => exact absurd listed (by simp)
  | cons first rest ih =>
    rw [stashTokens]
    simp only [run_bind]
    cases i with
    | succ i =>
      have later := ih (t + 1) ((layer.record first head block).apply state)
        (run (storeSlot layer slots fullFlag newPar head block t first
            ((layer.record first head block).apply state))
          (run (storeOut sequence t head block (layer.output first head
            ((layer.record first head block).apply state))) memory).2).2 i (by simpa using listed)
      rw [Nat.add_assoc, Nat.add_comm 1 i] at later
      exact later
    | zero =>
      obtain rfl : first = token := by simpa using listed
      have here : stateAfter layer head block (first :: rest) state 0 =
          (layer.record first head block).apply state := by
        simp [stateAfter]
      rw [here, Nat.add_zero]
      generalize (layer.record first head block).apply state = updated
      -- The later rounds write other cells.
      have kept : ∀ cell, TokenCell slots newPar sequence head block t cell →
          (run (stashTokens layer slots fullFlag newPar sequence head block rest (t + 1) updated)
            (run (storeSlot layer slots fullFlag newPar head block t first updated)
              (run (storeOut sequence t head block (layer.output first head updated))
                memory).2).2).2 cell =
            (run (storeSlot layer slots fullFlag newPar head block t first updated)
              (run (storeOut sequence t head block (layer.output first head updated))
                memory).2).2 cell := by
        intro cell inside
        apply run_unwritten
        intro wrote
        obtain ⟨j, _, there⟩ := ((within_stashTokens slots head block layer fullFlag newPar sequence
          rest (t + 1) updated).bounds _ cell).2 wrote
        have same := tokenCell_unique slots newPar sequence head block injective inside there
        omega
      refine Leaves.congr layer slots fullFlag newPar sequence head block ?_ kept
      constructor
      · intro row
        rw [storeSlot_out]
        simp [storeOut, run, written]
      · exact fun stored row col => storeSlot_full layer slots fullFlag newPar head block positive t
          first updated _ stored row col
      · exact fun record => storeSlot_own layer slots fullFlag newPar head block positive t first
          updated _ record
      · exact fun record zero col => storeSlot_shared layer slots fullFlag newPar head block positive
          t first updated _ record zero col

end Tokens

section Launched

/-- The slots of all sequences: none is null and no two are the same. -/
structure SlotTable (σ : Type) where
  slot : σ → Nat → Int
  positive : ∀ sequence j, 0 < slot sequence j
  injective : ∀ one j other i, slot one j = slot other i → one = other ∧ j = i

/-- The index of a program in a launch: its sequence, head and block. -/
abbrev Index (σ : Type) (shape : Shape) := σ × Fin shape.HV × Fin shape.NV

variable (layer : Layer F shape) (table : SlotTable σ) (requests : σ → Request F shape)

/-- The launch of the stash kernel: one program for each sequence, head and block. -/
def stashPrograms (index : Index σ shape) : Kernel σ F shape Unit :=
  kdaVerifyStashKernel layer (table.slot index.1) (requests index.1) index.1 index.2.1 index.2.2

/-- The launch of the stock kernel over the same grid. -/
def stockPrograms (index : Index σ shape) : Kernel σ F shape Unit :=
  fusedRecurrentStrided layer (table.slot index.1) (requests index.1) index.1 index.2.1 index.2.2

/-- The parity a program reads from its own marker in slot 1. -/
def previousParity (memory : Memory σ F shape) (index : Index σ shape) : Bool :=
  parityOf (markAt memory (table.slot index.1 1) index.2.1 index.2.2)

/-- The cells a program may write: those of its own head and block, in the slots of its own
sequence. -/
def Belongs (index : Index σ shape) (cell : Cell σ shape) : Prop :=
  InBlock (table.slot index.1) index.2.1 index.2.2 cell ∨
    (∃ t row, cell = .out index.1 t index.2.1 index.2.2 row) ∨
    ((index.2.2 : Nat) = 0 ∧ ∃ half, InHalf (table.slot index.1) index.2.1 half cell)

omit [DecidableEq σ] [Field F] in
/-- The cells of a token belong to its program. -/
theorem belongs_of_tokenCell {newPar : Bool} {index : Index σ shape} {t : Nat} {cell : Cell σ shape}
    (inside : TokenCell (table.slot index.1) newPar index.1 index.2.1 index.2.2 t cell) :
    Belongs table index cell := by
  rcases inside with ⟨row, col, rfl⟩ | ⟨first, _, kind, col, rfl⟩ | ⟨row, rfl⟩
  · exact Or.inl ⟨t, row, col, rfl⟩
  · exact Or.inr (Or.inr ⟨first, newPar, t, kind, col, rfl⟩)
  · exact Or.inr (Or.inl ⟨t, row, rfl⟩)

omit [DecidableEq σ] [Field F] in
/-- A cell belongs to one program only. -/
theorem belongs_unique {one other : Index σ shape} {cell : Cell σ shape}
    (first : Belongs table one cell) (second : Belongs table other cell) : one = other := by
  rcases first with ⟨j, _, _, rfl⟩ | ⟨_, _, rfl⟩ | ⟨zero, half, j, _, _, rfl⟩
  · rcases second with ⟨i, _, _, same⟩ | ⟨_, _, same⟩ | ⟨_, _, i, _, _, same⟩
    · injection same with slot heads blocks
      exact Prod.ext (table.injective _ _ _ _ slot).1 (Prod.ext heads blocks)
    · nomatch same
    · nomatch same
  · rcases second with ⟨i, _, _, same⟩ | ⟨_, _, same⟩ | ⟨_, _, i, _, _, same⟩
    · nomatch same
    · injection same with sequences _ heads blocks
      exact Prod.ext sequences (Prod.ext heads blocks)
    · nomatch same
  · rcases second with ⟨i, _, _, same⟩ | ⟨_, _, same⟩ | ⟨otherZero, _, i, _, _, same⟩
    · nomatch same
    · nomatch same
    · injection same with slot heads
      have blocks : one.2.2 = other.2.2 := Fin.ext (zero.trans otherZero.symm)
      exact Prod.ext (table.injective _ _ _ _ slot).1 (Prod.ext heads blocks)

omit [DecidableEq σ] in
/-- The mark is read from the program's block. -/
theorem within_mark (index : Index σ shape) :
    Within (InBlock (table.slot index.1) index.2.1 index.2.2) (fun _ => False)
      (loadMark (σ := σ) (F := F) (table.slot index.1 1) index.2.1 index.2.2) :=
  within_loadBlock _ _ _ _ _ _ fun _ => id

/-- The state is rebuilt from one half and the tokens' cells are written. -/
theorem within_steps (index : Index σ shape) (full old new : Bool) :
    Within (fun cell => InBlock (table.slot index.1) index.2.1 index.2.2 cell ∨
        InHalf (table.slot index.1) index.2.1 old cell)
      (fun cell => ∃ t, t < (requests index.1).tokens.length ∧
        TokenCell (table.slot index.1) new index.1 index.2.1 index.2.2 (0 + t) cell)
      (rebuild (table.slot index.1) (requests index.1).numAccepted old index.2.1 index.2.2 >>=
        fun state => stashTokens layer (table.slot index.1) full new index.1 index.2.1 index.2.2
          (requests index.1).tokens 0 state) :=
  Within.bind
    ((within_rebuild (table.slot index.1) old index.2.1 index.2.2
      (requests index.1).numAccepted).mono (fun _ => id) fun _ => False.elim)
    fun state => (within_stashTokens (table.slot index.1) index.2.1 index.2.2 layer full new index.1
      (requests index.1).tokens 0 state).mono (fun _ => False.elim) fun _ => id

/-- What a program of the stash launch reads and writes. -/
theorem stash_bounds (index : Index σ shape) (memory : Memory σ F shape) (cell : Cell σ shape) :
    (Reads (stashPrograms layer table requests index) memory cell →
      InBlock (table.slot index.1) index.2.1 index.2.2 cell ∨
        InHalf (table.slot index.1) index.2.1 (previousParity table memory index) cell) ∧
    (Writes (stashPrograms layer table requests index) memory cell →
      ∃ t, t < (requests index.1).tokens.length ∧
        TokenCell (table.slot index.1) (!previousParity table memory index) index.1 index.2.1
          index.2.2 t cell) := by
  rw [stashPrograms, kdaVerifyStashKernel]
  split
  · exact ⟨False.elim, False.elim⟩
  split
  · exact ⟨False.elim, False.elim⟩
  have marker := within_mark (F := F) table index
  simp only [reads_bind, writes_bind, run_loadMark]
  have bounds := (within_steps layer table requests index (requests index.1).fullMode
    (previousParity table memory index) (!previousParity table memory index)).bounds memory cell
  simp only [reads_bind, writes_bind, Nat.zero_add] at bounds
  constructor
  · rintro (mark | later)
    · exact Or.inl ((marker.bounds memory cell).1 mark)
    · exact bounds.1 later
  · rintro (mark | later)
    · exact ((marker.bounds memory cell).2 mark).elim
    · exact bounds.2 later

/-- What a program of the stock launch reads and writes. -/
theorem stock_bounds (index : Index σ shape) (memory : Memory σ F shape) (cell : Cell σ shape) :
    (Reads (stockPrograms layer table requests index) memory cell →
      InBlock (table.slot index.1) index.2.1 index.2.2 cell) ∧
    (Writes (stockPrograms layer table requests index) memory cell →
      ∃ t, t < (requests index.1).tokens.length ∧
        TokenCell (table.slot index.1) true index.1 index.2.1 index.2.2 t cell) := by
  rw [stockPrograms, fusedRecurrentStrided]
  split
  · exact ⟨False.elim, False.elim⟩
  dsimp only
  split
  · exact ⟨False.elim, False.elim⟩
  simp only [stockTokens_eq _ _ _ _ true]
  have start : Within (InBlock (table.slot index.1) index.2.1 index.2.2)
      (fun cell => ∃ t, t < (requests index.1).tokens.length ∧
        TokenCell (table.slot index.1) true index.1 index.2.1 index.2.2 t cell)
      (loadBlock (σ := σ) (F := F) (table.slot index.1 ((requests index.1).numAccepted - 1)) index.2.1
        index.2.2 (fun _ _ => true) fun words row col => (words row col).number) :=
    within_loadBlock _ _ _ _ _ _ fun _ => id
  have all := start.bind fun state => (within_stashTokens (table.slot index.1) index.2.1 index.2.2
    layer true true index.1 (requests index.1).tokens 0 state).mono (fun _ => False.elim)
      (by simp only [Nat.zero_add]; exact fun _ => id)
  exact all.bounds memory cell

/-- A program that stores every state in full writes the same cells for both parities. -/
theorem full_writes (index : Index σ shape) (full : (requests index.1).fullMode = true) (half : Bool)
    (memory : Memory σ F shape) (cell : Cell σ shape)
    (wrote : Writes (stashPrograms layer table requests index) memory cell) :
    ∃ t, t < (requests index.1).tokens.length ∧
      TokenCell (table.slot index.1) half index.1 index.2.1 index.2.2 t cell := by
  rw [stashPrograms, kdaVerifyStashKernel] at wrote
  split at wrote
  · exact wrote.elim
  split at wrote
  · exact wrote.elim
  have marker := within_mark (F := F) table index
  have bounds := (within_steps layer table requests index true (previousParity table memory index)
    half).bounds memory cell
  simp only [full, reads_bind, writes_bind, run_loadMark, ← stockTokens_eq, Nat.zero_add] at bounds wrote
  rcases wrote with mark | later
  · exact ((marker.bounds memory cell).2 mark).elim
  · exact bounds.2 later

/-- All blocks of a head read the same parity. -/
def Uniform (memory : Memory σ F shape) : Prop :=
  ∀ sequence head block other, previousParity table memory (sequence, head, block) =
    previousParity table memory (sequence, head, other)

/-- The blocks of each head of one sequence read the same parity. -/
def UniformAt (memory : Memory σ F shape) (sequence : σ) : Prop :=
  ∀ head block other, previousParity table memory (sequence, head, block) =
    previousParity table memory (sequence, head, other)

/-- Every sequence that stores records starts from one parity a head. -/
def Settled (memory : Memory σ F shape) : Prop :=
  ∀ sequence, 1 < (requests sequence).tokens.length → (requests sequence).fullMode = false →
    UniformAt table memory sequence

/-- No program of a settled launch reads or writes a cell that another program writes. -/
theorem settled_raceFree (memory : Memory σ F shape) (settled : Settled table requests memory) :
    RaceFree (stashPrograms layer table requests) memory := by
  intro one other different cell touched wrote
  obtain ⟨t, inside, there⟩ := (stash_bounds layer table requests other memory cell).2 wrote
  have owned : Belongs table other cell := belongs_of_tokenCell table there
  rcases touched with read | wroteOne
  · rcases (stash_bounds layer table requests one memory cell).1 read with block | half
    · exact different (belongs_unique table (Or.inl block) owned)
    · -- The half that is read has the old parity, the half that is written the new one.
      obtain ⟨j, kind, col, rfl⟩ := half
      rcases there with ⟨_, _, same⟩ | ⟨_, later, _, _, same⟩ | ⟨_, same⟩
      · nomatch same
      · injection same with slot heads halves
        obtain ⟨sequences, _⟩ := table.injective _ _ _ _ slot
        obtain ⟨sequence, head, block⟩ := one
        obtain ⟨otherSequence, otherHead, otherBlock⟩ := other
        dsimp only at sequences heads halves inside
        subst sequences heads
        cases mode : (requests sequence).fullMode with
        | true =>
          -- A full step would write the half of either parity.
          obtain ⟨_, _, ⟨_, _, same⟩ | ⟨_, _, _, _, same⟩ | ⟨_, same⟩⟩ := full_writes layer table
            requests (sequence, head, otherBlock) mode
            (previousParity table memory (sequence, head, otherBlock)) memory _ wrote
          · nomatch same
          · injection same with _ _ halves'
            rw [halves] at halves'
            exact absurd halves' (by simp)
          · nomatch same
        | false =>
          rw [settled sequence (by omega) mode head block otherBlock] at halves
          exact absurd halves (by simp)
      · nomatch same
  · obtain ⟨i, _, here⟩ := (stash_bounds layer table requests one memory cell).2 wroteOne
    exact different (belongs_unique table (belongs_of_tokenCell table here) owned)

/-- No program of a stash launch reads or writes a cell that another program writes. -/
theorem stash_raceFree (memory : Memory σ F shape) (uniform : Uniform table memory) :
    RaceFree (stashPrograms layer table requests) memory :=
  settled_raceFree layer table requests memory fun sequence _ _ => uniform sequence

/-- No program of a stock launch reads or writes a cell that another program writes. -/
theorem stock_raceFree (memory : Memory σ F shape) :
    RaceFree (stockPrograms layer table requests) memory := by
  intro one other different cell touched wrote
  obtain ⟨t, _, there⟩ := (stock_bounds layer table requests other memory cell).2 wrote
  have owned : Belongs table other cell := belongs_of_tokenCell table there
  rcases touched with read | wroteOne
  · have block := (stock_bounds layer table requests one memory cell).1 read
    exact different (belongs_unique table (Or.inl block) owned)
  · obtain ⟨i, _, here⟩ := (stock_bounds layer table requests one memory cell).2 wroteOne
    exact different (belongs_unique table (belongs_of_tokenCell table here) owned)

/-- A settled launch leaves in the cells of a program what the program alone leaves. -/
theorem settled_alone {memory final : Memory σ F shape} (settled : Settled table requests memory)
    (launch : Launches (stashPrograms layer table requests) memory final) (index : Index σ shape)
    (cell : Cell σ shape) (owned : Belongs table index cell) :
    final cell = (run (stashPrograms layer table requests index) memory).2 cell := by
  apply launches_alone (settled_raceFree layer table requests memory settled) launch
  intro other different wrote
  obtain ⟨t, _, there⟩ := (stash_bounds layer table requests other memory cell).2 wrote
  exact different (belongs_unique table (belongs_of_tokenCell table there) owned)

/-- A stash launch leaves in the cells of a program what the program alone leaves. -/
theorem stash_alone {memory final : Memory σ F shape} (uniform : Uniform table memory)
    (launch : Launches (stashPrograms layer table requests) memory final) (index : Index σ shape)
    (cell : Cell σ shape) (owned : Belongs table index cell) :
    final cell = (run (stashPrograms layer table requests index) memory).2 cell :=
  settled_alone layer table requests (fun sequence _ _ => uniform sequence) launch index cell owned

/-- A stock launch leaves in the cells of a program what the program alone leaves. -/
theorem stock_alone {memory final : Memory σ F shape}
    (launch : Launches (stockPrograms layer table requests) memory final) (index : Index σ shape)
    (cell : Cell σ shape) (owned : Belongs table index cell) :
    final cell = (run (stockPrograms layer table requests index) memory).2 cell := by
  apply launches_alone (stock_raceFree layer table requests memory) launch
  intro other different wrote
  obtain ⟨t, _, there⟩ := (stock_bounds layer table requests other memory cell).2 wrote
  exact different (belongs_unique table (belongs_of_tokenCell table there) owned)

end Launched

section Simulation

variable (layer : Layer F shape) (table : SlotTable σ)

/-- The two memories and the number of tokens of every sequence's last step. -/
structure World (σ F : Type) (shape : Shape) where
  stash : Memory σ F shape
  stock : Memory σ F shape
  rows : σ → Nat

/-- A launch on the same requests, and the memories it ends with. -/
structure LaunchEvent (σ F : Type) (shape : Shape) where
  requests : σ → Request F shape
  stash : Memory σ F shape
  stock : Memory σ F shape

/-- Both kernels start from the same first states, and the blocks of a head from the same parity. -/
structure Start (F : Type) [Field F] (shape : Shape) (table : SlotTable σ) where
  stash : Memory σ F shape
  stock : Memory σ F shape
  same : ∀ sequence head block row col, stash (.state (table.slot sequence 0) head block row col) =
    .value (tileAt stock (table.slot sequence 0) head block row col)
  uniform : Uniform table stash

/-- The accepted counts fit the last step, and each memory is the end of some interleaving. -/
def allowed (world : World σ F shape) (launch : LaunchEvent σ F shape) : Prop :=
  (∀ sequence, (launch.requests sequence).tokens ≠ [] →
    1 ≤ (launch.requests sequence).numAccepted ∧
      (launch.requests sequence).numAccepted ≤ world.rows sequence) ∧
  Launches (stashPrograms layer table launch.requests) world.stash launch.stash ∧
  Launches (stockPrograms layer table launch.requests) world.stock launch.stock

/-- After a launch; a sequence without tokens keeps its last step. -/
def step (world : World σ F shape) (launch : LaunchEvent σ F shape) : World σ F shape where
  stash := launch.stash
  stock := launch.stock
  rows sequence :=
    if (launch.requests sequence).tokens = [] then world.rows sequence
    else (launch.requests sequence).tokens.length

/-- Verify steps from the first state on. -/
def verifySteps (start : Start F shape table) : System (World σ F shape) (LaunchEvent σ F shape)
    where
  initial := ⟨start.stash, start.stock, fun _ => 1⟩
  step := step
  allowed := allowed layer table

/-- The slots of the last step hold the stock states in full. -/
def HoldsStates (world : World σ F shape) (sequence : σ) : Prop :=
  ∀ j, 1 ≤ j → j < world.rows sequence → ∀ head block row col,
    world.stash (.state (table.slot sequence j) head block row col) =
      .value (tileAt world.stock (table.slot sequence j) head block row col)

/-- The slots of the last step hold marked records that lead from each stock state to the next. -/
def HoldsRecords (world : World σ F shape) (sequence : σ) : Prop :=
  ∀ j, 1 ≤ j → j < world.rows sequence → ∀ head block,
    (∃ parity, markAt world.stash (table.slot sequence j) head block = .mark parity) ∧
      tileAt world.stock (table.slot sequence j) head block =
        (recordAt world.stash (table.slot sequence j)
          (previousParity table world.stash (sequence, head, block)) head block).apply
            (tileAt world.stock (table.slot sequence (j - 1)) head block)

/-- How the stash memory stands for the stock memory. -/
structure Simulates (world : World σ F shape) : Prop where
  base : ∀ sequence head block row col,
    world.stash (.state (table.slot sequence 0) head block row col) =
      .value (tileAt world.stock (table.slot sequence 0) head block row col)
  rest : ∀ sequence, HoldsStates table world sequence ∨ HoldsRecords table world sequence
  uniform : Uniform table world.stash

variable {layer table} {world : World σ F shape}

omit [DecidableEq σ] in
/-- A block whose cells hold a state reads as that state. -/
theorem tileAt_eq {memory : Memory σ F shape} {slot : Int} {head : Fin shape.HV}
    {block : Fin shape.NV} {state : Tile F shape}
    (holds : ∀ row col, memory (.state slot head block row col) = .value (state row col)) :
    tileAt memory slot head block = state := by
  funext row col
  rw [tileAt, holds row col, Word.number]

omit [DecidableEq σ] in
/-- Replaying the first records leads to the stock state of the last one. -/
theorem replay_exact (sequence : σ) (records : HoldsRecords table world sequence)
    (head : Fin shape.HV) (block : Fin shape.NV) (count : Nat) (inside : count < world.rows sequence) :
    (List.range' 1 count).foldl (fun state j =>
        (recordAt world.stash (table.slot sequence j)
          (previousParity table world.stash (sequence, head, block)) head block).apply state)
      (tileAt world.stock (table.slot sequence 0) head block) =
        tileAt world.stock (table.slot sequence count) head block := by
  induction count with
  | zero => rfl
  | succ count ih =>
    have earlier := ih (Nat.lt_of_succ_lt inside)
    obtain ⟨_, next⟩ := records (count + 1) (Nat.le_add_left 1 count) inside head block
    rw [List.range'_1_concat, List.foldl_append, earlier, Nat.add_comm 1 count]
    exact next.symm

omit [DecidableEq σ] in
/-- The initial state a program rebuilds is the stock state of the last accepted token. -/
theorem rebuild_exact (simulates : Simulates table world) (sequence : σ) (head : Fin shape.HV)
    (block : Fin shape.NV) (numAccepted : Nat) (positive : 1 ≤ numAccepted)
    (inside : numAccepted ≤ world.rows sequence) :
    (run (rebuild (table.slot sequence) numAccepted
        (previousParity table world.stash (sequence, head, block)) head block) world.stash).1 =
      tileAt world.stock (table.slot sequence (numAccepted - 1)) head block := by
  have first : tileAt world.stash (table.slot sequence 0) head block =
      tileAt world.stock (table.slot sequence 0) head block :=
    tileAt_eq (simulates.base sequence head block)
  rw [rebuild]
  split
  next several =>
    rw [run_bind, run_loadMark]
    dsimp only
    rcases simulates.rest sequence with states | records
    · have holds := states (numAccepted - 1) (by omega) (by omega) head block
      rw [markAt, holds]
      dsimp only
      rw [run_loadTile]
      exact tileAt_eq holds
    · obtain ⟨⟨parity, marked⟩, _⟩ := records (numAccepted - 1) (by omega) (by omega) head block
      rw [marked]
      dsimp only
      rw [run_bind, run_loadTile, run_replay, first]
      exact replay_exact sequence records head block (numAccepted - 1) (by omega)
  next single =>
    have one : numAccepted - 1 = 0 := by omega
    rw [run_loadTile, one]
    exact first

/-- What a program of the stash launch leaves when it runs alone. -/
theorem run_stashProgram (layer : Layer F shape) (requests : σ → Request F shape)
    (index : Index σ shape) (memory : Memory σ F shape)
    (tokens : (requests index.1).tokens ≠ []) :
    (run (stashPrograms layer table requests index) memory).2 =
      (run (stashTokens layer (table.slot index.1) (requests index.1).fullMode
          (!previousParity table memory index) index.1 index.2.1 index.2.2
          (requests index.1).tokens 0
        (run (rebuild (table.slot index.1) (requests index.1).numAccepted
          (previousParity table memory index) index.2.1 index.2.2) memory).1) memory).2 := by
  have some : ¬ (requests index.1).tokens.length = 0 := by simpa using tokens
  have live : ¬ table.slot index.1 0 ≤ 0 := by
    have := table.positive index.1 0
    omega
  rw [stashPrograms, kdaVerifyStashKernel, if_neg some, if_neg live]
  simp only [run_bind, run_loadMark, run_rebuild]
  rfl

/-- What a program of the stock launch leaves when it runs alone. -/
theorem run_stockProgram (layer : Layer F shape) (requests : σ → Request F shape)
    (index : Index σ shape) (memory : Memory σ F shape)
    (tokens : (requests index.1).tokens ≠ []) :
    (run (stockPrograms layer table requests index) memory).2 =
      (run (stashTokens layer (table.slot index.1) true true index.1 index.2.1 index.2.2
          (requests index.1).tokens 0
        (tileAt memory (table.slot index.1 ((requests index.1).numAccepted - 1)) index.2.1
          index.2.2)) memory).2 := by
  have some : ¬ (requests index.1).tokens.length = 0 := by simpa using tokens
  have live : ¬ table.slot index.1 ((requests index.1).numAccepted - 1) ≤ 0 := by
    have := table.positive index.1 ((requests index.1).numAccepted - 1)
    omega
  rw [stockPrograms, fusedRecurrentStrided, if_neg some]
  dsimp only
  rw [if_neg live, run_bind, run_loadTile, stockTokens_eq _ _ _ _ true]

/-- A program of the stash launch that runs alone leaves every token, with the state after it. -/
theorem run_leaves (layer : Layer F shape) (requests : σ → Request F shape)
    (memory : Memory σ F shape) (sequence : σ) (head : Fin shape.HV) (block : Fin shape.NV) (t : Nat)
    (token : Token F shape) (listed : (requests sequence).tokens[t]? = some token) :
    Leaves layer (table.slot sequence) (requests sequence).fullMode
      (!previousParity table memory (sequence, head, block)) sequence head block t token
      (stateAfter layer head block (requests sequence).tokens
        (run (rebuild (table.slot sequence) (requests sequence).numAccepted
          (previousParity table memory (sequence, head, block)) head block) memory).1 t)
      (run (stashPrograms layer table requests (sequence, head, block)) memory).2 := by
  have tokens : (requests sequence).tokens ≠ [] := by
    intro none
    rw [none] at listed
    exact absurd listed (by simp)
  have injective : Function.Injective (table.slot sequence) := fun j i same =>
    (table.injective sequence j sequence i same).2
  have alone := stashTokens_leaves layer (table.slot sequence) (requests sequence).fullMode
    (!previousParity table memory (sequence, head, block)) sequence head block
    (table.positive sequence) injective (requests sequence).tokens 0
    (run (rebuild (table.slot sequence) (requests sequence).numAccepted
      (previousParity table memory (sequence, head, block)) head block) memory).1 memory t token
    listed
  rw [Nat.zero_add] at alone
  rwa [run_stashProgram layer requests (sequence, head, block) memory tokens]

/-- A settled stash launch leaves every token, with the state after it. -/
theorem stash_leaves (layer : Layer F shape) (requests : σ → Request F shape)
    {memory final : Memory σ F shape} (settled : Settled table requests memory)
    (launched : Launches (stashPrograms layer table requests) memory final) (sequence : σ)
    (head : Fin shape.HV) (block : Fin shape.NV) (t : Nat) (token : Token F shape)
    (listed : (requests sequence).tokens[t]? = some token) :
    Leaves layer (table.slot sequence) (requests sequence).fullMode
      (!previousParity table memory (sequence, head, block)) sequence head block t token
      (stateAfter layer head block (requests sequence).tokens
        (run (rebuild (table.slot sequence) (requests sequence).numAccepted
          (previousParity table memory (sequence, head, block)) head block) memory).1 t) final := by
  apply (run_leaves layer requests memory sequence head block t token listed).congr
  intro cell there
  exact settled_alone layer table requests settled launched (sequence, head, block) cell
    (belongs_of_tokenCell table there)

/-- The marker of one block in slot 1 after a settled launch: a new one, none, or the one before. -/
theorem settled_parity (layer : Layer F shape) (requests : σ → Request F shape)
    {memory final : Memory σ F shape} (settled : Settled table requests memory)
    (launched : Launches (stashPrograms layer table requests) memory final) (sequence : σ)
    (head : Fin shape.HV) (block : Fin shape.NV) :
    previousParity table final (sequence, head, block) =
      if 1 < (requests sequence).tokens.length then
        if (requests sequence).fullMode = true then true
        else !previousParity table memory (sequence, head, block)
      else previousParity table memory (sequence, head, block) := by
  have marked : markAt final (table.slot sequence 1) head block =
      final (.state (table.slot sequence 1) head block (ownRow shape) (markCol shape)) := rfl
  rw [previousParity, marked]
  split
  next several =>
    have leaves := stash_leaves layer requests settled launched sequence head block 1 _
      (List.getElem?_eq_getElem several)
    split
    next full => rw [leaves.full (Or.inr full), parityOf]
    next record =>
      have stored : ¬ (1 = 0 ∨ (requests sequence).fullMode = true) := by simpa using record
      rw [← marked, (leaves.own stored).1, parityOf]
  next few =>
    have kept : final (.state (table.slot sequence 1) head block (ownRow shape) (markCol shape)) =
        memory (.state (table.slot sequence 1) head block (ownRow shape) (markCol shape)) := by
      rw [settled_alone layer table requests settled launched (sequence, head, block) _
        (Or.inl ⟨1, _, _, rfl⟩)]
      apply run_unwritten
      intro wrote
      obtain ⟨t, inside, ⟨_, _, same⟩ | ⟨_, _, _, _, same⟩ | ⟨_, same⟩⟩ :=
        (stash_bounds layer table requests (sequence, head, block) _ _).2 wrote
      · injection same with slot
        have later := (table.injective _ _ _ _ slot).2
        dsimp only at inside
        omega
      · nomatch same
      · nomatch same
    rw [kept]
    rfl

variable {launch : LaunchEvent σ F shape}

/-- The stock state after some tokens of the launch. -/
def launchState (layer : Layer F shape) (table : SlotTable σ) (world : World σ F shape)
    (launch : LaunchEvent σ F shape) (sequence : σ) (head : Fin shape.HV) (block : Fin shape.NV)
    (t : Nat) : Tile F shape :=
  stateAfter layer head block (launch.requests sequence).tokens
    (tileAt world.stock (table.slot sequence ((launch.requests sequence).numAccepted - 1)) head
      block) t

/-- Both launches leave every token with the same state after it. -/
theorem launch_leaves (simulates : Simulates table world) (sent : allowed layer table world launch)
    (sequence : σ) (head : Fin shape.HV) (block : Fin shape.NV) (t : Nat) (token : Token F shape)
    (listed : (launch.requests sequence).tokens[t]? = some token) :
    Leaves layer (table.slot sequence) (launch.requests sequence).fullMode
        (!previousParity table world.stash (sequence, head, block)) sequence head block t token
        (launchState layer table world launch sequence head block t) launch.stash ∧
      Leaves layer (table.slot sequence) true true sequence head block t token
        (launchState layer table world launch sequence head block t) launch.stock := by
  obtain ⟨fits, stashed, stocked⟩ := sent
  have tokens : (launch.requests sequence).tokens ≠ [] := by
    intro none
    rw [none] at listed
    exact absurd listed (by simp)
  obtain ⟨positive, inside⟩ := fits sequence tokens
  have injective : Function.Injective (table.slot sequence) := fun j i same =>
    (table.injective sequence j sequence i same).2
  have rebuilt := rebuild_exact simulates sequence head block _ positive inside
  constructor
  · have leaves := stash_leaves layer launch.requests (fun other _ _ => simulates.uniform other)
      stashed sequence head block t token listed
    rwa [rebuilt] at leaves
  · have alone := stashTokens_leaves layer (table.slot sequence) true true sequence head block
      (table.positive sequence) injective (launch.requests sequence).tokens 0
      (tileAt world.stock (table.slot sequence ((launch.requests sequence).numAccepted - 1)) head
        block) world.stock t token listed
    rw [Nat.zero_add] at alone
    apply alone.congr
    intro cell there
    rw [stock_alone layer table launch.requests stocked (sequence, head, block) cell
      (belongs_of_tokenCell table there),
      run_stockProgram layer launch.requests (sequence, head, block) world.stock tokens]

/-- A launch changes no cell of a sequence without tokens. -/
theorem launch_idle (simulates : Simulates table world) (sent : allowed layer table world launch)
    (index : Index σ shape) (idle : (launch.requests index.1).tokens = []) (cell : Cell σ shape)
    (owned : Belongs table index cell) :
    launch.stash cell = world.stash cell ∧ launch.stock cell = world.stock cell := by
  obtain ⟨_, stashed, stocked⟩ := sent
  constructor
  · rw [stash_alone layer table launch.requests simulates.uniform stashed index cell owned]
    apply run_unwritten
    intro wrote
    obtain ⟨t, inside, _⟩ := (stash_bounds layer table launch.requests index _ cell).2 wrote
    rw [idle] at inside
    exact absurd inside (Nat.not_lt_zero t)
  · rw [stock_alone layer table launch.requests stocked index cell owned]
    apply run_unwritten
    intro wrote
    obtain ⟨t, inside, _⟩ := (stock_bounds layer table launch.requests index _ cell).2 wrote
    rw [idle] at inside
    exact absurd inside (Nat.not_lt_zero t)

omit [DecidableEq σ] in
/-- The state after one more token is the recurrence applied to the state before it. -/
theorem launchState_succ (sequence : σ) (head : Fin shape.HV) (block : Fin shape.NV) (t : Nat)
    (token : Token F shape) (listed : (launch.requests sequence).tokens[t + 1]? = some token) :
    launchState layer table world launch sequence head block (t + 1) =
      (layer.record token head block).apply
        (launchState layer table world launch sequence head block t) := by
  rw [launchState, launchState, stateAfter, stateAfter, List.take_add_one, listed]
  simp

/-- Where a sequence had tokens, the stock memory holds the state after each. -/
theorem stock_states (simulates : Simulates table world) (sent : allowed layer table world launch)
    (sequence : σ) (head : Fin shape.HV) (block : Fin shape.NV) (t : Nat)
    (inside : t < (launch.requests sequence).tokens.length) :
    tileAt launch.stock (table.slot sequence t) head block =
      launchState layer table world launch sequence head block t :=
  tileAt_eq ((launch_leaves simulates sent sequence head block t _
    (List.getElem?_eq_getElem inside)).2.full (Or.inr rfl))

/-- A launch keeps the first states equal. -/
theorem base_step (simulates : Simulates table world) (sent : allowed layer table world launch)
    (sequence : σ) (head : Fin shape.HV) (block : Fin shape.NV) (row : Fin shape.BV)
    (col : Fin shape.K) : launch.stash (.state (table.slot sequence 0) head block row col) =
      .value (tileAt launch.stock (table.slot sequence 0) head block row col) := by
  by_cases idle : (launch.requests sequence).tokens = []
  · obtain ⟨stash, stock⟩ := launch_idle simulates sent (sequence, head, block) idle
      (.state (table.slot sequence 0) head block row col) (Or.inl ⟨0, row, col, rfl⟩)
    rw [stash, simulates.base, tileAt, tileAt, stock]
  · have inside : 0 < (launch.requests sequence).tokens.length := List.length_pos_of_ne_nil idle
    rw [stock_states simulates sent sequence head block 0 inside]
    exact (launch_leaves simulates sent sequence head block 0 _
      (List.getElem?_eq_getElem inside)).1.full (Or.inl rfl) row col

/-- The markers of one block in slot 1 after a launch: new ones, none, or the ones before. -/
theorem parity_step (simulates : Simulates table world) (sent : allowed layer table world launch)
    (sequence : σ) (head : Fin shape.HV) (block : Fin shape.NV) :
    previousParity table launch.stash (sequence, head, block) =
      if 1 < (launch.requests sequence).tokens.length then
        if (launch.requests sequence).fullMode = true then true
        else !previousParity table world.stash (sequence, head, block)
      else previousParity table world.stash (sequence, head, block) :=
  settled_parity layer launch.requests (fun other _ _ => simulates.uniform other) sent.2.1 sequence
    head block

/-- A launch keeps the blocks of a head on one parity. -/
theorem uniform_step (simulates : Simulates table world) (sent : allowed layer table world launch) :
    Uniform table launch.stash := by
  intro sequence head block other
  rw [parity_step simulates sent, parity_step simulates sent,
    simulates.uniform sequence head block other]

/-- The record a launch stores for a token is what the recurrence consumed for it. -/
theorem record_step (simulates : Simulates table world) (sent : allowed layer table world launch)
    (sequence : σ) (head : Fin shape.HV) (block : Fin shape.NV) (t : Nat) (token : Token F shape)
    (listed : (launch.requests sequence).tokens[t]? = some token) (later : t ≠ 0)
    (stash : (launch.requests sequence).fullMode = false) :
    recordAt launch.stash (table.slot sequence t)
      (!previousParity table world.stash (sequence, head, block)) head block =
        layer.record token head block := by
  have record : ¬ (t = 0 ∨ (launch.requests sequence).fullMode = true) := by simp [later, stash]
  obtain ⟨_, values, beta⟩ :=
    (launch_leaves simulates sent sequence head block t token listed).1.own record
  -- The shared vectors were stored by the first block of the head.
  have shared := (launch_leaves simulates sent sequence head
    ⟨0, Nat.zero_lt_of_lt block.isLt⟩ t token listed).1.shared record rfl
  rw [simulates.uniform sequence head ⟨0, Nat.zero_lt_of_lt block.isLt⟩ block] at shared
  rw [recordAt, Layer.record, Record.mk.injEq]
  refine ⟨funext fun col => ?_, funext fun col => ?_, funext fun row => ?_, ?_⟩
  · rw [(shared col).1, Word.number]
  · rw [(shared col).2, Word.number]
  · rw [values row, Word.number]
  · rw [beta, Word.number]

/-- A launch leaves states or records in the slots of every sequence. -/
theorem rest_step (simulates : Simulates table world) (sent : allowed layer table world launch)
    (sequence : σ) : HoldsStates table (step world launch) sequence ∨
      HoldsRecords table (step world launch) sequence := by
  by_cases idle : (launch.requests sequence).tokens = []
  · have rows : (step world launch).rows sequence = world.rows sequence := by
      rw [step]
      exact if_pos idle
    have cells : ∀ head block (j : Nat) row col,
        launch.stash (.state (table.slot sequence j) head block row col) =
            world.stash (.state (table.slot sequence j) head block row col) ∧
          launch.stock (.state (table.slot sequence j) head block row col) =
            world.stock (.state (table.slot sequence j) head block row col) :=
      fun head block j row col => launch_idle simulates sent (sequence, head, block) idle _
        (Or.inl ⟨j, row, col, rfl⟩)
    have stock : ∀ head block (j : Nat), tileAt launch.stock (table.slot sequence j) head block =
        tileAt world.stock (table.slot sequence j) head block := by
      intro head block j
      funext row col
      rw [tileAt, tileAt, (cells head block j row col).2]
    rcases simulates.rest sequence with states | records
    · left
      intro j low high head block row col
      rw [rows] at high
      dsimp only [step]
      rw [(cells head block j row col).1, stock head block j]
      exact states j low high head block row col
    · right
      intro j low high head block
      rw [rows] at high
      obtain ⟨marked, next⟩ := records j low high head block
      have parity : previousParity table launch.stash (sequence, head, block) =
          previousParity table world.stash (sequence, head, block) := by
        rw [previousParity, previousParity, markAt, markAt, (cells head block 1 _ _).1]
      have aux : ∀ half kind col,
          launch.stash (.aux (table.slot sequence j) head half kind col) =
            world.stash (.aux (table.slot sequence j) head half kind col) :=
        fun half kind col => (launch_idle simulates sent
          (sequence, head, ⟨0, Nat.zero_lt_of_lt block.isLt⟩) idle _
          (Or.inr (Or.inr ⟨rfl, half, j, kind, col, rfl⟩))).1
      have record : ∀ half, recordAt launch.stash (table.slot sequence j) half head block =
          recordAt world.stash (table.slot sequence j) half head block := by
        intro half
        simp only [recordAt, aux, (cells head block j _ _).1]
      dsimp only [step]
      rw [markAt, (cells head block j _ _).1, parity, record, stock head block j,
        stock head block (j - 1)]
      exact ⟨marked, next⟩
  · have rows : (step world launch).rows sequence = (launch.requests sequence).tokens.length := by
      rw [step]
      exact if_neg idle
    cases mode : (launch.requests sequence).fullMode with
    | true =>
      left
      intro j low high head block row col
      rw [rows] at high
      dsimp only [step]
      rw [stock_states simulates sent sequence head block j high]
      exact (launch_leaves simulates sent sequence head block j _
        (List.getElem?_eq_getElem high)).1.full (Or.inr mode) row col
    | false =>
      right
      intro j low high head block
      rw [rows] at high
      dsimp only [step]
      have listed := List.getElem?_eq_getElem high
      have record : ¬ (j = 0 ∨ (launch.requests sequence).fullMode = true) := by
        rw [mode]
        simp only [Bool.false_eq_true, or_false]
        omega
      have several : 1 < (launch.requests sequence).tokens.length := by omega
      have parity : previousParity table launch.stash (sequence, head, block) =
          !previousParity table world.stash (sequence, head, block) := by
        rw [parity_step simulates sent, if_pos several, mode]
        rfl
      refine ⟨⟨_, ((launch_leaves simulates sent sequence head block j _ listed).1.own record).1⟩, ?_⟩
      rw [parity, record_step simulates sent sequence head block j _ listed (by omega) mode,
        stock_states simulates sent sequence head block j high,
        stock_states simulates sent sequence head block (j - 1) (by omega)]
      obtain ⟨before, rfl⟩ : ∃ before, j = before + 1 := ⟨j - 1, by omega⟩
      exact launchState_succ sequence head block before _ listed

/-- In every reachable state the stash memory simulates the stock memory. -/
theorem simulates_reachable (start : Start F shape table)
    (reachable : Reachable (verifySteps layer table start) world) : Simulates table world := by
  apply reachable.invariant
  · refine ⟨start.same, fun sequence => Or.inl ?_, start.uniform⟩
    intro j low high
    exact absurd high (Nat.not_lt.mpr low)
  · intro state launch simulates sent
    exact ⟨base_step simulates sent, rest_step simulates sent, uniform_step simulates sent⟩

/-- At every step of every run, in every interleaving of the programs: each program rebuilds the
stock state of the last accepted token, both kernels leave the same outputs and the same first
states, and no program of the launch reads or writes a cell that another one writes. -/
theorem stash_simulates (layer : Layer F shape) (table : SlotTable σ) (start : Start F shape table)
    {world : World σ F shape} (reachable : Reachable (verifySteps layer table start) world)
    (launch : LaunchEvent σ F shape) (sent : allowed layer table world launch) :
    (∀ sequence head block, (launch.requests sequence).tokens ≠ [] →
      (run (rebuild (table.slot sequence) (launch.requests sequence).numAccepted
          (previousParity table world.stash (sequence, head, block)) head block) world.stash).1 =
        tileAt world.stock
          (table.slot sequence ((launch.requests sequence).numAccepted - 1)) head block) ∧
    (∀ sequence head block t row, t < (launch.requests sequence).tokens.length →
      launch.stash (.out sequence t head block row) =
        launch.stock (.out sequence t head block row)) ∧
    (∀ sequence head block row col,
      launch.stash (.state (table.slot sequence 0) head block row col) =
        .value (tileAt launch.stock (table.slot sequence 0) head block row col)) ∧
    RaceFree (stashPrograms layer table launch.requests) world.stash := by
  have simulates := simulates_reachable start reachable
  refine ⟨?_, ?_, base_step simulates sent,
    stash_raceFree layer table launch.requests world.stash simulates.uniform⟩
  · intro sequence head block tokens
    obtain ⟨positive, inside⟩ := sent.1 sequence tokens
    exact rebuild_exact simulates sequence head block _ positive inside
  · intro sequence head block t row inside
    obtain ⟨stash, stock⟩ := launch_leaves simulates sent sequence head block t _
      (List.getElem?_eq_getElem inside)
    rw [stash.out row, stock.out row]

end Simulation

section Replayed

/-- One head with two blocks of one row. -/
def twoBlocks : Shape :=
  ⟨1, 1, 3, 2, 1, by decide, by decide⟩

/-- A layer with trivial functions. -/
def plainLayer : Layer ℚ twoBlocks :=
  ⟨id, id, id, fun _ => 0, fun _ _ => 0, 1, 1, 1⟩

/-- One sequence whose slots are numbered from one. -/
def oneSequence : SlotTable Unit where
  slot _ j := (j : Int) + 1
  positive _ j := by omega
  injective _ j _ i same := ⟨rfl, by omega⟩

/-- Both memories are zero. -/
def zeroStart : Start ℚ twoBlocks oneSequence :=
  ⟨fun _ => .value 0, fun _ => .value 0, fun _ _ _ _ _ => rfl, fun _ _ _ _ => rfl⟩

/-- Some equal tokens, stored as records. -/
def equalTokens (count numAccepted : Nat) : Request ℚ twoBlocks :=
  ⟨List.replicate count ⟨fun _ _ => 1, fun _ _ => 1, fun _ _ _ => 1, fun _ _ => 1, fun _ => 1⟩,
    numAccepted, false⟩

/-- A launch of these requests exists in every state. -/
theorem exists_event (world : World Unit ℚ twoBlocks) (request : Request ℚ twoBlocks)
    (positive : 1 ≤ request.numAccepted) (inside : request.numAccepted ≤ world.rows ()) :
    ∃ launch : LaunchEvent Unit ℚ twoBlocks, launch.requests = (fun _ => request) ∧
      allowed plainLayer oneSequence world launch := by
  obtain ⟨stash, stashed⟩ :=
    exists_launch (stashPrograms plainLayer oneSequence fun _ => request) world.stash
  obtain ⟨stock, stocked⟩ :=
    exists_launch (stockPrograms plainLayer oneSequence fun _ => request) world.stock
  exact ⟨⟨fun _ => request, stash, stock⟩, rfl, fun _ _ => ⟨positive, inside⟩, stashed, stocked⟩

/-- After a step of three tokens of which all are accepted, each block replays two records. -/
theorem stash_simulates_replayed : ∃ (world : World Unit ℚ twoBlocks)
    (launch : LaunchEvent Unit ℚ twoBlocks),
    Reachable (verifySteps plainLayer oneSequence zeroStart) world ∧
      allowed plainLayer oneSequence world launch ∧ world.rows () = 3 ∧
      (launch.requests ()).numAccepted = 3 ∧ ∀ head block,
        (run (rebuild (oneSequence.slot ()) (launch.requests ()).numAccepted
            (previousParity oneSequence world.stash ((), head, block)) head block) world.stash).1 =
          tileAt world.stock (oneSequence.slot () ((launch.requests ()).numAccepted - 1)) head
            block := by
  obtain ⟨first, requested, firstSent⟩ := exists_event
    (verifySteps plainLayer oneSequence zeroStart).initial (equalTokens 3 1) (Nat.le_refl 1)
    (Nat.le_refl 1)
  have reachable : Reachable (verifySteps plainLayer oneSequence zeroStart)
      (step (verifySteps plainLayer oneSequence zeroStart).initial first) :=
    Reachable.initial.step firstSent
  have rows : (step (verifySteps plainLayer oneSequence zeroStart).initial first).rows () = 3 := by
    rw [step, requested]
    rfl
  obtain ⟨second, replayed, secondSent⟩ := exists_event
    (step (verifySteps plainLayer oneSequence zeroStart).initial first) (equalTokens 1 3)
    (by decide) (Nat.le_of_eq rows.symm)
  refine ⟨_, second, reachable, secondSent, rows, by rw [replayed]; rfl, fun head block => ?_⟩
  exact (stash_simulates plainLayer oneSequence zeroStart reachable second secondSent).1 () head block
    (by rw [replayed]; simp [equalTokens])

end Replayed

end GlmSpark.KdaSimulation
