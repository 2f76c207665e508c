import Mathlib.Algebra.BigOperators.Group.Finset.Basic
import Mathlib.Algebra.Field.Defs
import GlmSpark.Launch

/-!
# The verify recurrence with a replay stash

A verify step of a linear-attention layer updates one state per head for every token.
The stock kernel stores the state after every token, so that the next step can start
from the last accepted one. The stash kernel stores only the first state; for the
other tokens it stores a record of what the recurrence consumed, marked by a word no
state contains, and the next step replays the accepted records.

Both kernels are translated as programs over one memory of cells. A launch runs one
program for every sequence, value head and block of state rows. What a program reads
and writes, and what it leaves when it runs alone, is stated once for each.
-/

namespace GlmSpark.KdaStash

open Launch Program
open scoped BigOperators

section Layout

/-- Sizes of a layer: query heads, value heads, key channels, blocks of state rows, and rows of a
block. A record fits in one row. -/
structure Shape where
  H : Nat
  HV : Nat
  K : Nat
  NV : Nat
  BV : Nat
  someRow : 0 < BV
  recordFits : BV + 2 ≤ K

/-- Which of the two shared vectors an auxiliary cell belongs to. -/
inductive AuxKind
  | key
  | decay
  deriving DecidableEq

/-- The cells of the device: states by slot, head, block and row; the side buffer with two halves
for every slot and head; and the outputs. -/
inductive Cell (σ : Type) (shape : Shape)
  | state (slot : Int) (head : Fin shape.HV) (block : Fin shape.NV) (row : Fin shape.BV)
    (col : Fin shape.K)
  | aux (slot : Int) (head : Fin shape.HV) (half : Bool) (kind : AuxKind) (col : Fin shape.K)
  | out (sequence : σ) (token : Nat) (head : Fin shape.HV) (block : Fin shape.NV)
    (row : Fin shape.BV)

/-- A word is a number or the marker with its parity; no number is the marker. -/
inductive Word (F : Type)
  | value (number : F)
  | mark (parity : Bool)

/-- A word read as a number; the marker is not one, and zero stands for what it reads as. -/
def Word.number {F : Type} [Zero F] : Word F → F
  | .value number => number
  | .mark _ => 0

/-- What a cell that was never written reads as in the model; no theorem depends on it. -/
instance {F : Type} [Zero F] : Inhabited (Word F) :=
  ⟨.value 0⟩

variable (shape : Shape)

/-- The row of a block that holds its record. -/
def ownRow : Fin shape.BV :=
  ⟨shape.BV - 1, Nat.sub_lt shape.someRow Nat.one_pos⟩

/-- The column of a value in the record. -/
def valueCol (row : Fin shape.BV) : Fin shape.K :=
  ⟨row, by
    have := row.isLt
    have := shape.recordFits
    omega⟩

/-- The column of beta in the record. -/
def betaCol : Fin shape.K :=
  ⟨shape.BV, by
    have := shape.recordFits
    omega⟩

/-- The column of the marker. -/
def markCol : Fin shape.K :=
  ⟨shape.BV + 1, by
    have := shape.recordFits
    omega⟩

end Layout

section Recurrence

variable {F : Type} [Field F] {shape : Shape}

/-- A block of state rows, the part of a head's state that one program works on. -/
abbrev Tile (F : Type) (shape : Shape) := Fin shape.BV → Fin shape.K → F

/-- The functions and constants of a layer. -/
structure Layer (F : Type) (shape : Shape) where
  sqrt : F → F
  exp : F → F
  sigmoid : F → F
  aLog : Nat → F
  gBias : Nat → Fin shape.K → F
  scale : F
  lowerBound : F
  epsilon : F

/-- The inputs of one token, for all heads and blocks. -/
structure Token (F : Type) (shape : Shape) where
  q : Nat → Fin shape.K → F
  k : Nat → Fin shape.K → F
  v : Fin shape.HV → Fin shape.NV → Fin shape.BV → F
  g : Fin shape.HV → Fin shape.K → F
  beta : Fin shape.HV → F

/-- What the recurrence consumes for one token. -/
structure Record (F : Type) (shape : Shape) where
  key : Fin shape.K → F
  decay : Fin shape.K → F
  value : Fin shape.BV → F
  beta : F

/-- The query head of a value head. -/
def queryHead (head : Fin shape.HV) : Nat :=
  head / (shape.HV / shape.H)

/-- `b / sqrt(sum(b * b) + 1e-6)`. -/
def Layer.normalise (layer : Layer F shape) (vector : Fin shape.K → F) : Fin shape.K → F :=
  fun col => vector col / layer.sqrt ((∑ other, vector other * vector other) + layer.epsilon)

/-- The decay of a token, from its gate. -/
def Layer.decay (layer : Layer F shape) (token : Token F shape) (head : Fin shape.HV) :
    Fin shape.K → F :=
  fun col =>
    let amplitude := layer.exp (layer.aLog (queryHead head))
    let gate := token.g head col + layer.gBias (queryHead head) col
    layer.exp (layer.lowerBound / (1 + layer.exp (-(amplitude * gate))))

/-- The numbers the recurrence consumes for a token in one block. -/
def Layer.record (layer : Layer F shape) (token : Token F shape) (head : Fin shape.HV)
    (block : Fin shape.NV) : Record F shape where
  key := layer.normalise (token.k (queryHead head))
  decay := layer.decay token head
  value := token.v head block
  beta := layer.sigmoid (token.beta head)

/-- The update all three loops share: decay the state, then add the scaled prediction error along
the key. -/
def Record.apply (record : Record F shape) (state : Tile F shape) : Tile F shape :=
  let decayed : Tile F shape := fun row col => state row col * record.decay col
  let correction : Fin shape.BV → F := fun row =>
    (record.value row - ∑ col, decayed row col * record.key col) * record.beta
  fun row col => decayed row col + correction row * record.key col

/-- The output of a token. -/
def Layer.output (layer : Layer F shape) (token : Token F shape) (head : Fin shape.HV)
    (state : Tile F shape) : Fin shape.BV → F :=
  fun row => ∑ col, state row col * (layer.normalise (token.q (queryHead head)) col * layer.scale)

end Recurrence

section Kernels

variable {σ F : Type} [DecidableEq σ] [Field F] {shape : Shape}

/-- A program of the launch. -/
abbrev Kernel (σ F : Type) (shape : Shape) (α : Type) := Program (Cell σ shape) (Word F) α

/-- Load some words of a block of a slot. -/
def loadBlock {α : Type} (slot : Int) (head : Fin shape.HV) (block : Fin shape.NV)
    (part : Fin shape.BV → Fin shape.K → Bool)
    (read : (Fin shape.BV → Fin shape.K → Word F) → α) : Kernel σ F shape α :=
  .load (fun
    | .state slot' head' block' row col =>
      slot' = slot ∧ head' = head ∧ block' = block ∧ part row col
    | _ => false)
    fun memory => pure (read fun row col => memory (.state slot head block row col))

/-- Load a block of a slot. -/
def loadTile (slot : Int) (head : Fin shape.HV) (block : Fin shape.NV) :
    Kernel σ F shape (Tile F shape) :=
  loadBlock slot head block (fun _ _ => true) fun words row col => (words row col).number

/-- Load the marker word of a block. -/
def loadMark (slot : Int) (head : Fin shape.HV) (block : Fin shape.NV) :
    Kernel σ F shape (Word F) :=
  loadBlock slot head block (fun row col => row = ownRow shape ∧ col = markCol shape) fun words =>
    words (ownRow shape) (markCol shape)

/-- Load the values of a record. -/
def loadValues (slot : Int) (head : Fin shape.HV) (block : Fin shape.NV) :
    Kernel σ F shape (Fin shape.BV → F) :=
  loadBlock slot head block (fun row col => row = ownRow shape ∧ (col : Nat) < shape.BV)
    fun words row => (words (ownRow shape) (valueCol shape row)).number

/-- Load the beta of a record. -/
def loadBeta (slot : Int) (head : Fin shape.HV) (block : Fin shape.NV) : Kernel σ F shape F :=
  loadBlock slot head block (fun row col => row = ownRow shape ∧ col = betaCol shape) fun words =>
    (words (ownRow shape) (betaCol shape)).number

/-- Load one shared vector of a record. -/
def loadAux (slot : Int) (head : Fin shape.HV) (half : Bool) (kind : AuxKind) :
    Kernel σ F shape (Fin shape.K → F) :=
  .load (fun
    | .aux slot' head' half' kind' _ => slot' = slot ∧ head' = head ∧ half' = half ∧ kind' = kind
    | _ => false)
    fun memory => pure fun col => (memory (.aux slot head half kind col)).number

/-- Store some words of a block of a slot. -/
def storeBlock (slot : Int) (head : Fin shape.HV) (block : Fin shape.NV)
    (words : Fin shape.BV → Fin shape.K → Option (Word F)) : Kernel σ F shape Unit :=
  .store (fun
    | .state slot' head' block' row col =>
      if slot' = slot ∧ head' = head ∧ block' = block then words row col else none
    | _ => none) (pure ())

/-- Store a block of a slot. -/
def storeTile (slot : Int) (head : Fin shape.HV) (block : Fin shape.NV) (state : Tile F shape) :
    Kernel σ F shape Unit :=
  storeBlock slot head block fun row col => some (.value (state row col))

/-- Store the values of a record. -/
def storeValues (slot : Int) (head : Fin shape.HV) (block : Fin shape.NV)
    (values : Fin shape.BV → F) : Kernel σ F shape Unit :=
  storeBlock slot head block fun row col =>
    if row = ownRow shape then
      if inside : (col : Nat) < shape.BV then some (.value (values ⟨col, inside⟩)) else none
    else none

/-- Store one word of the record row. -/
def storeWord (slot : Int) (head : Fin shape.HV) (block : Fin shape.NV) (column : Fin shape.K)
    (word : Word F) : Kernel σ F shape Unit :=
  storeBlock slot head block fun row col =>
    if row = ownRow shape ∧ col = column then some word else none

/-- Store one shared vector of a record. -/
def storeAux (slot : Int) (head : Fin shape.HV) (half : Bool) (kind : AuxKind)
    (vector : Fin shape.K → F) : Kernel σ F shape Unit :=
  .store (fun
    | .aux slot' head' half' kind' col =>
      if slot' = slot ∧ head' = head ∧ half' = half ∧ kind' = kind then some (.value (vector col))
      else none
    | _ => none) (pure ())

/-- Store the output of a token. -/
def storeOut (sequence : σ) (token : Nat) (head : Fin shape.HV) (block : Fin shape.NV)
    (output : Fin shape.BV → F) : Kernel σ F shape Unit :=
  .store (fun
    | .out sequence' token' head' block' row =>
      if sequence' = sequence ∧ token' = token ∧ head' = head ∧ block' = block then
        some (.value (output row))
      else none
    | _ => none) (pure ())

/-- What one launch is given for a sequence: its tokens, how many tokens of the step before were
accepted, and whether every state is stored in full. -/
structure Request (F : Type) (shape : Shape) where
  tokens : List (Token F shape)
  numAccepted : Nat
  fullMode : Bool

/-- The parity of the previous step's records. -/
def parityOf : Word F → Bool
  | .mark parity => parity
  | .value _ => true

/-- Replay the records of some tokens: each one is loaded and applied to the state. -/
def replay (slots : Nat → Int) (prevPar : Bool) (head : Fin shape.HV) (block : Fin shape.NV) :
    List Nat → Tile F shape → Kernel σ F shape (Tile F shape)
  | [], state => pure state
  | j :: rest, state => do
    let key ← loadAux (slots j) head prevPar .key
    let decay ← loadAux (slots j) head prevPar .decay
    let value ← loadValues (slots j) head block
    let beta ← loadBeta (slots j) head block
    replay slots prevPar head block rest (Record.apply ⟨key, decay, value, beta⟩ state)

/-- The initial state of a step: slot 0 with the accepted records, or a full slot. -/
def rebuild (slots : Nat → Int) (numAccepted : Nat) (prevPar : Bool) (head : Fin shape.HV)
    (block : Fin shape.NV) : Kernel σ F shape (Tile F shape) :=
  if 1 < numAccepted then do
    let mark ← loadMark (slots (numAccepted - 1)) head block
    match mark with
    | .mark _ => do
      let state ← loadTile (slots 0) head block
      replay slots prevPar head block (List.range' 1 (numAccepted - 1)) state
    | .value _ => loadTile (slots (numAccepted - 1)) head block
  else loadTile (slots 0) head block

/-- Store the shared vectors of a record; only the block with number zero does. -/
def storeShared (slot : Int) (head : Fin shape.HV) (block : Fin shape.NV) (newPar : Bool)
    (record : Record F shape) : Kernel σ F shape Unit :=
  if (block : Nat) = 0 then do
    storeAux slot head newPar .key record.key
    storeAux slot head newPar .decay record.decay
  else pure ()

/-- Store what a token leaves in its slot: the state, or a record. -/
def storeSlot (layer : Layer F shape) (slots : Nat → Int) (fullFlag newPar : Bool)
    (head : Fin shape.HV) (block : Fin shape.NV) (t : Nat) (token : Token F shape)
    (state : Tile F shape) : Kernel σ F shape Unit :=
  let record := layer.record token head block
  if slots t > 0 then
    if t = 0 ∨ fullFlag = true then storeTile (slots t) head block state
    else do
      storeShared (slots t) head block newPar record
      storeValues (slots t) head block record.value
      storeWord (slots t) head block (betaCol shape) (.value record.beta)
      storeWord (slots t) head block (markCol shape) (.mark newPar)
  else pure ()

/-- The token loop of the stash kernel. -/
def stashTokens (layer : Layer F shape) (slots : Nat → Int) (fullFlag newPar : Bool) (sequence : σ)
    (head : Fin shape.HV) (block : Fin shape.NV) :
    List (Token F shape) → Nat → Tile F shape → Kernel σ F shape Unit
  | [], _, _ => pure ()
  | token :: rest, t, state => do
    let state := (layer.record token head block).apply state
    storeOut sequence t head block (layer.output token head state)
    storeSlot layer slots fullFlag newPar head block t token state
    stashTokens layer slots fullFlag newPar sequence head block rest (t + 1) state

/-- `kda_verify_stash_kernel`: reads the marker, replays the accepted records or loads the full
slot, runs the new tokens and stores them as records or as states. -/
def kdaVerifyStashKernel (layer : Layer F shape) (slots : Nat → Int) (request : Request F shape)
    (sequence : σ) (head : Fin shape.HV) (block : Fin shape.NV) : Kernel σ F shape Unit :=
  if request.tokens.length = 0 then pure ()
  else if slots 0 ≤ 0 then pure ()
  else do
    let mark ← loadMark (slots 1) head block
    let prevPar := parityOf mark
    let newPar := !prevPar
    let state ← rebuild slots request.numAccepted prevPar head block
    stashTokens layer slots request.fullMode newPar sequence head block request.tokens 0 state

/-- Store the state of a token in its slot, unless the slot is null. -/
def storeFinal (slot : Int) (head : Fin shape.HV) (block : Fin shape.NV) (state : Tile F shape) :
    Kernel σ F shape Unit :=
  if slot > 0 then storeTile slot head block state else pure ()

/-- The token loop of the stock kernel. -/
def stockTokens (layer : Layer F shape) (slots : Nat → Int) (sequence : σ) (head : Fin shape.HV)
    (block : Fin shape.NV) : List (Token F shape) → Nat → Tile F shape → Kernel σ F shape Unit
  | [], _, _ => pure ()
  | token :: rest, t, state => do
    let state := (layer.record token head block).apply state
    storeOut sequence t head block (layer.output token head state)
    storeFinal (slots t) head block state
    stockTokens layer slots sequence head block rest (t + 1) state

/-- `fused_recurrent_gated_delta_rule_fwd_kernel_strided` on the verify path: loads the state of the
accepted token, runs the new tokens and stores a state for each. -/
def fusedRecurrentStrided (layer : Layer F shape) (slots : Nat → Int) (request : Request F shape)
    (sequence : σ) (head : Fin shape.HV) (block : Fin shape.NV) : Kernel σ F shape Unit :=
  if request.tokens.length = 0 then pure ()
  else
    let stateIdx := slots (request.numAccepted - 1)
    if stateIdx ≤ 0 then pure ()
    else do
      let state ← loadTile stateIdx head block
      stockTokens layer slots sequence head block request.tokens 0 state

end Kernels

section Views

variable {σ F : Type} [DecidableEq σ] [Field F] {shape : Shape}

/-- A memory of the device. -/
abbrev Memory (σ F : Type) (shape : Shape) := Cell σ shape → Word F

/-- A block of a slot, read as numbers. -/
def tileAt (memory : Memory σ F shape) (slot : Int) (head : Fin shape.HV) (block : Fin shape.NV) :
    Tile F shape :=
  fun row col => (memory (.state slot head block row col)).number

/-- The marker word of a block. -/
def markAt (memory : Memory σ F shape) (slot : Int) (head : Fin shape.HV) (block : Fin shape.NV) :
    Word F :=
  memory (.state slot head block (ownRow shape) (markCol shape))

/-- The record of a block, with the shared vectors of one half. -/
def recordAt (memory : Memory σ F shape) (slot : Int) (half : Bool) (head : Fin shape.HV)
    (block : Fin shape.NV) : Record F shape where
  key := fun col => (memory (.aux slot head half .key col)).number
  decay := fun col => (memory (.aux slot head half .decay col)).number
  value := fun row => (memory (.state slot head block (ownRow shape) (valueCol shape row))).number
  beta := (memory (.state slot head block (ownRow shape) (betaCol shape))).number

variable (memory : Memory σ F shape) (slot : Int) (slots : Nat → Int) (half : Bool)
  (head : Fin shape.HV) (block : Fin shape.NV)

omit [DecidableEq σ] in
/-- Loading a tile gives the tile that memory holds and leaves memory alone. -/
@[simp] theorem run_loadTile : run (loadTile slot head block) memory =
    (tileAt memory slot head block, memory) := by
  simp only [loadTile, loadBlock, run, visible, run_pure, and_self, decide_true, if_true]
  rfl

omit [DecidableEq σ] in
/-- Loading a marker gives the marker of the slot and block. -/
@[simp] theorem run_loadMark : run (loadMark slot head block) memory =
    (markAt memory slot head block, memory) := by
  simp [loadMark, loadBlock, run, visible, markAt]

omit [DecidableEq σ] in
/-- Loading an auxiliary row gives its numbers, column by column. -/
@[simp] theorem run_loadAux (kind : AuxKind) : run (loadAux slot head half kind) memory =
    (fun col => (memory (.aux slot head half kind col)).number, memory) := by
  simp [loadAux, run, visible]

omit [DecidableEq σ] in
/-- Loading values gives those of the record in that half of the slot. -/
@[simp] theorem run_loadValues : run (loadValues slot head block) memory =
    ((recordAt memory slot half head block).value, memory) := by
  simp [loadValues, loadBlock, run, visible, recordAt, valueCol]

omit [DecidableEq σ] in
/-- Loading the gates gives those of the same record. -/
@[simp] theorem run_loadBeta : run (loadBeta slot head block) memory =
    ((recordAt memory slot half head block).beta, memory) := by
  simp [loadBeta, loadBlock, run, visible, recordAt]

omit [DecidableEq σ] in
/-- The records of some tokens applied one after another. -/
theorem run_replay (js : List Nat) (state : Tile F shape) :
    run (replay slots half head block js state) memory =
      (js.foldl (fun state j => (recordAt memory (slots j) half head block).apply state) state,
        memory) := by
  induction js generalizing state with
  | nil => rfl
  | cons j rest ih =>
    simp only [replay, run_bind, run_loadAux, run_loadValues memory _ half,
      run_loadBeta memory _ half, ih, List.foldl_cons]
    rfl

omit [DecidableEq σ] in
/-- Rebuilding the initial state changes no cell. -/
theorem run_rebuild (numAccepted : Nat) :
    (run (rebuild slots numAccepted half head block) memory).2 = memory := by
  rw [rebuild]
  split
  · rw [run_bind, run_loadMark]
    dsimp only
    split
    · rw [run_bind, run_loadTile, run_replay]
    · rw [run_loadTile]
  · rw [run_loadTile]

end Views

section Footprints

variable {σ F : Type} [DecidableEq σ] [Field F] {shape : Shape}

/-- A block of the slots of a sequence. -/
def InBlock (slots : Nat → Int) (head : Fin shape.HV) (block : Fin shape.NV)
    (cell : Cell σ shape) : Prop :=
  ∃ j row col, cell = .state (slots j) head block row col

/-- One half of the side buffer for the slots of a sequence. -/
def InHalf (slots : Nat → Int) (head : Fin shape.HV) (half : Bool) (cell : Cell σ shape) : Prop :=
  ∃ j kind col, cell = .aux (slots j) head half kind col

/-- What the token loop may write for one token: its slot, the shared vectors of a record, and its
output. -/
def TokenCell (slots : Nat → Int) (newPar : Bool) (sequence : σ) (head : Fin shape.HV)
    (block : Fin shape.NV) (t : Nat) (cell : Cell σ shape) : Prop :=
  (∃ row col, cell = .state (slots t) head block row col) ∨
    ((block : Nat) = 0 ∧ t ≠ 0 ∧ ∃ kind col, cell = .aux (slots t) head newPar kind col) ∨
    ∃ row, cell = .out sequence t head block row

variable (slot : Int) (slots : Nat → Int) (half : Bool) (head : Fin shape.HV)
  (block : Fin shape.NV) {reads writes : Cell σ shape → Prop}

omit [DecidableEq σ] [Field F] in
/-- A load of some words of a block reads that block. -/
theorem within_loadBlock [Inhabited (Word F)] {α : Type} (j : Nat)
    (part : Fin shape.BV → Fin shape.K → Bool)
    (read : (Fin shape.BV → Fin shape.K → Word F) → α)
    (readable : ∀ cell, InBlock slots head block cell → reads cell) :
    Within reads writes (loadBlock (slots j) head block part read) := by
  refine ⟨fun cell inside => readable cell ?_, fun _ => trivial⟩
  cases cell with
  | state slot' head' block' row col =>
    obtain ⟨rfl, rfl, rfl, _⟩ : slot' = slots j ∧ head' = head ∧ block' = block ∧
        part row col = true := by simpa using inside
    exact ⟨j, row, col, rfl⟩
  | aux => exact absurd inside Bool.false_ne_true
  | out => exact absurd inside Bool.false_ne_true

omit [DecidableEq σ] in
/-- A load of a shared vector reads the given half. -/
theorem within_loadAux (j : Nat) (kind : AuxKind)
    (readable : ∀ cell, InHalf slots head half cell → reads cell) :
    Within reads writes (loadAux (F := F) (slots j) head half kind) := by
  refine ⟨fun cell inside => readable cell ?_, fun _ => trivial⟩
  cases cell with
  | aux slot' head' half' kind' col =>
    obtain ⟨rfl, rfl, rfl, rfl⟩ : slot' = slots j ∧ head' = head ∧ half' = half ∧ kind' = kind := by
      simpa using inside
    exact ⟨j, kind', col, rfl⟩
  | state => exact absurd inside Bool.false_ne_true
  | out => exact absurd inside Bool.false_ne_true

omit [DecidableEq σ] in
/-- Rebuilding reads the block of the program in the slots of the sequence and the given half of the
side buffer, and writes nothing. -/
theorem within_rebuild (numAccepted : Nat) :
    Within (fun cell : Cell σ shape => InBlock slots head block cell ∨ InHalf slots head half cell)
      (fun _ => False) (rebuild (F := F) slots numAccepted half head block) := by
  have replays : ∀ (js : List Nat) (state : Tile F shape),
      Within (fun cell : Cell σ shape => InBlock slots head block cell ∨ InHalf slots head half cell)
        (fun _ => False) (replay slots half head block js state) := by
    intro js
    induction js with
    | nil => exact fun _ => trivial
    | cons j rest ih =>
      intro state
      refine (within_loadAux slots half head j .key fun _ => Or.inr).bind fun key => ?_
      refine (within_loadAux slots half head j .decay fun _ => Or.inr).bind fun decay => ?_
      refine (within_loadBlock slots head block j _ _ fun _ => Or.inl).bind fun value => ?_
      refine (within_loadBlock slots head block j _ _ fun _ => Or.inl).bind fun beta => ?_
      exact ih _
  rw [rebuild]
  split
  · refine (within_loadBlock slots head block _ _ _ fun _ => Or.inl).bind fun mark => ?_
    cases mark with
    | mark parity =>
      refine (within_loadBlock slots head block 0 _ _ fun _ => Or.inl).bind fun state => ?_
      exact replays _ state
    | value number => exact within_loadBlock slots head block _ _ _ fun _ => Or.inl
  · exact within_loadBlock slots head block 0 _ _ fun _ => Or.inl

omit [Field F] in
/-- A store of a token's output stays in the cells of the token. -/
theorem within_storeOut (newPar : Bool) (sequence : σ) (t : Nat) (output : Fin shape.BV → F) :
    Within reads (TokenCell slots newPar sequence head block t)
      (storeOut sequence t head block output) := by
  refine ⟨fun cell inside => ?_, trivial⟩
  cases cell with
  | out sequence' token' head' block' row =>
    dsimp only at inside
    split at inside
    next same =>
      obtain ⟨rfl, rfl, rfl, rfl⟩ := same
      exact Or.inr (Or.inr ⟨row, rfl⟩)
    next => exact absurd inside Bool.false_ne_true
  | state => exact absurd inside Bool.false_ne_true
  | aux => exact absurd inside Bool.false_ne_true

omit [DecidableEq σ] [Field F] in
/-- A store in the slot of a token stays in the cells of the token. -/
theorem within_storeBlock (newPar : Bool) (sequence : σ) (t : Nat)
    (words : Fin shape.BV → Fin shape.K → Option (Word F)) :
    Within reads (TokenCell slots newPar sequence head block t)
      (storeBlock (slots t) head block words) := by
  refine ⟨fun cell inside => ?_, trivial⟩
  cases cell with
  | state slot' head' block' row col =>
    dsimp only at inside
    split at inside
    next same =>
      obtain ⟨rfl, rfl, rfl⟩ := same
      exact Or.inl ⟨row, col, rfl⟩
    next => exact absurd inside Bool.false_ne_true
  | aux => exact absurd inside Bool.false_ne_true
  | out => exact absurd inside Bool.false_ne_true

omit [DecidableEq σ] [Field F] in
/-- The shared vectors are stored by the first block, never for the first token. -/
theorem within_storeAux (newPar : Bool) (sequence : σ) (t : Nat) (kind : AuxKind)
    (vector : Fin shape.K → F) (first : (block : Nat) = 0) (later : t ≠ 0) :
    Within reads (TokenCell slots newPar sequence head block t)
      (storeAux (slots t) head newPar kind vector) := by
  refine ⟨fun cell inside => ?_, trivial⟩
  cases cell with
  | aux slot' head' half' kind' col =>
    dsimp only at inside
    split at inside
    next same =>
      obtain ⟨rfl, rfl, rfl, rfl⟩ := same
      exact Or.inr (Or.inl ⟨first, later, kind', col, rfl⟩)
    next => exact absurd inside Bool.false_ne_true
  | state => exact absurd inside Bool.false_ne_true
  | out => exact absurd inside Bool.false_ne_true

omit [DecidableEq σ] in
/-- What a token leaves in its slot stays in the cells of the token. -/
theorem within_storeSlot (layer : Layer F shape) (fullFlag newPar : Bool) (sequence : σ) (t : Nat)
    (token : Token F shape) (state : Tile F shape) :
    Within reads (TokenCell slots newPar sequence head block t)
      (storeSlot layer slots fullFlag newPar head block t token state) := by
  have part : ∀ words, Within reads (TokenCell slots newPar sequence head block t)
      (storeBlock (F := F) (slots t) head block words) :=
    within_storeBlock slots head block newPar sequence t
  rw [storeSlot]
  split
  · split
    · exact part _
    next record =>
      have later : t ≠ 0 := fun first => record (Or.inl first)
      have shared : Within reads (TokenCell slots newPar sequence head block t)
          (storeShared (slots t) head block newPar (layer.record token head block)) := by
        rw [storeShared]
        split
        next first =>
          refine (within_storeAux slots head block newPar sequence t _ _ first later).bind
            fun _ => ?_
          exact within_storeAux slots head block newPar sequence t _ _ first later
        next => trivial
      refine shared.bind fun _ => (part _).bind fun _ => (part _).bind fun _ => part _
  · trivial

omit [DecidableEq σ] in
/-- The cells of later tokens, counted from the next one. -/
theorem tokenCell_shift (newPar : Bool) (sequence : σ) (t count : Nat) (cell : Cell σ shape)
    (there : ∃ i, i < count ∧ TokenCell slots newPar sequence head block (t + 1 + i) cell) :
    ∃ i, i < count + 1 ∧ TokenCell slots newPar sequence head block (t + i) cell := by
  obtain ⟨i, inside, at_⟩ := there
  exact ⟨i + 1, Nat.succ_lt_succ inside, by rwa [Nat.add_assoc, Nat.add_comm 1 i] at at_⟩

/-- The token loop of the stash kernel only writes, in the cells of its tokens. -/
theorem within_stashTokens (layer : Layer F shape) (fullFlag newPar : Bool) (sequence : σ)
    (tokens : List (Token F shape)) (t : Nat) (state : Tile F shape) :
    Within (fun _ => False) (fun cell => ∃ i, i < tokens.length ∧
        TokenCell slots newPar sequence head block (t + i) cell)
      (stashTokens layer slots fullFlag newPar sequence head block tokens t state) := by
  induction tokens generalizing t state with
  | nil => trivial
  | cons token rest ih =>
    have here : ∀ cell, TokenCell slots newPar sequence head block t cell →
        ∃ i, i < rest.length + 1 ∧ TokenCell slots newPar sequence head block (t + i) cell :=
      fun cell inside => ⟨0, Nat.zero_lt_succ _, inside⟩
    have nothing : ∀ cell : Cell σ shape, False → False := fun _ => id
    have output := fun state => (within_storeOut slots head block newPar sequence t
      (layer.output token head state)).mono nothing here
    have slot := fun state => (within_storeSlot slots head block layer fullFlag newPar sequence t
      token state).mono nothing here
    have later := fun state => (ih (t + 1) state).mono (fun _ => id)
      (tokenCell_shift slots head block newPar sequence t rest.length)
    exact (output _).bind fun _ => (slot _).bind fun _ => later _

/-- The stock loop is the stash loop that stores every state in full. -/
theorem stockTokens_eq (layer : Layer F shape) (newPar : Bool) (sequence : σ)
    (tokens : List (Token F shape)) (t : Nat) (state : Tile F shape) :
    stockTokens layer slots sequence head block tokens t state =
      stashTokens layer slots true newPar sequence head block tokens t state := by
  induction tokens generalizing t state with
  | nil => rfl
  | cons token rest ih =>
    rw [stockTokens, stashTokens]
    simp only [ih, storeSlot, storeFinal, or_true, if_true]

end Footprints

end GlmSpark.KdaStash
