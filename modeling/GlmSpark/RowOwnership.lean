import GlmSpark.Blocks
import GlmSpark.Ragged
import Mathlib.Algebra.BigOperators.Fin
import Mathlib.Data.List.Basic

/-!
# Row ownership of a sharded prefill

Each rank owns a block of the rows of a chunk. The class `Ownership` of
`glm_prefill_shard.py` keeps a rank's rows of a full tensor, gathers owned rows to full
ones and reduces partial sums to owned ones. A tensor is the list of its rows; the
tensors of all ranks are a function of the rank, and a collective is an operation on it.

A check that raises fails the operation. A padding row holds what `fill` says: the source
writes zeros, and the rows that matter are shown not to depend on it.
-/

namespace GlmSpark.RowOwnership

open Blocks (cdiv)

universe u
variable {V : Type u}

/-- `GLM_PREFILL_SHARD`: owned rows, or full rows with the collectives split. -/
inductive Mode
  | shard
  | comm
  deriving DecidableEq

/-- `Ownership`. -/
structure Ownership (V : Type u) where
  world : ℕ
  rows : ℕ
  mode : Mode
  exact : Bool
  fill : V
  /-- There is a rank. -/
  world_pos : 0 < world

/-- `Ownership.__init__`: without padding the rows must divide evenly. -/
def Ownership.init (world rows : ℕ) (mode : Mode) (exact pad : Bool) (fill : V)
    (world_pos : 0 < world) : Option (Ownership V) :=
  if rows % world ≠ 0 ∧ pad = false then none
  else some ⟨world, rows, mode, exact && mode == .shard, fill, world_pos⟩

/-- One value at every rank, when every rank has one. -/
def everyRank {world : ℕ} {α : Type u} (value : Fin world → Option α) :
    Option (Fin world → α) :=
  if present : ∀ rank, (value rank).isSome then some fun rank => (value rank).get (present rank)
  else none

/-- The rows of all ranks added up, for tensors of `count` rows. -/
def sumRows {world : ℕ} [AddCommMonoid V] (count : ℕ) (tensors : Fin world → List V) : List V :=
  (List.range count).map fun i => ∑ rank, (tensors rank).getD i 0

namespace Ownership

variable (own : Ownership V)

/-- Owned rows of a rank. -/
def q : ℕ := cdiv own.rows own.world

/-- Rows of all ranks. -/
def padded : ℕ := own.q * own.world

/-- Rows appended at the end. -/
def pad : ℕ := own.padded - own.rows

/-- First row of a rank. -/
def lo (rank : Fin own.world) : ℕ := rank * own.q

/-- Real rows among a rank's owned rows. -/
def real (rank : Fin own.world) : ℕ := min own.q (own.rows - own.lo rank)

/-- `_pad_to`: fill rows are appended up to the padded number. -/
def padTo (t : List V) : List V :=
  if own.pad = 0 then t else t ++ List.replicate own.pad own.fill

/-- `_full`: padded full rows without the padding. -/
def full (t : List V) : List V := if own.pad = 0 then t else t.take own.rows

/-- `local`: a full tensor's rows of one rank. -/
def localRows (rank : Fin own.world) (t : List V) : Option (List V) :=
  match own.mode with
  | .comm => some t
  | .shard =>
    if t.length ≠ own.rows then none
    else if own.real rank = own.q then some ((t.drop (own.lo rank)).take own.q)
    else some ((t.drop (min (own.lo rank) own.rows)).take (own.real rank) ++
      List.replicate (own.q - own.real rank) own.fill)

/-- `all_gather` along the rows: the tensors of the ranks in order. -/
def allGather (tensors : Fin own.world → List V) : List V := (List.ofFn tensors).flatten

/-- `all_reduce`. -/
def allReduce [AddCommMonoid V] (tensors : Fin own.world → List V) : List V :=
  sumRows own.rows tensors

/-- `reduce_scatter` along the rows of padded tensors. -/
def reduceScatter [AddCommMonoid V] (tensors : Fin own.world → List V) (rank : Fin own.world) : List V :=
  ((sumRows own.padded tensors).drop (own.lo rank)).take own.q

/-- `gather`: owned rows to full rows, at every rank. -/
def gather (tensors : Fin own.world → List V) : Option (Fin own.world → List V) :=
  match own.mode with
  | .comm => some tensors
  | .shard =>
    if ∀ rank, (tensors rank).length = own.q then
      some fun _ => own.full (own.allGather tensors)
    else none

/-- `reduce`: partial sums of full rows to reduced rows, owned or full. -/
def reduce [AddCommMonoid V] (partials : Fin own.world → List V) :
    Option (Fin own.world → List V) :=
  if ∀ rank, (partials rank).length = own.rows then
    let padded : Fin own.world → List V := fun rank => own.padTo (partials rank)
    match own.mode with
    | .comm => some fun _ => own.full (own.allGather (own.reduceScatter padded))
    | .shard =>
      if own.exact then
        everyRank fun rank => own.localRows rank (own.allReduce partials)
      else some (own.reduceScatter padded)
  else none

/-- Every rank holds the full tensor. -/
structure Full {α : Type u} (tensors : Fin own.world → List α) (t : List α) : Prop where
  rows : t.length = own.rows
  same : ∀ rank, tensors rank = t

/-- Every rank holds its rows of the tensor; in comm mode these are all rows. Padding rows
may hold anything. -/
structure Owned {α : Type u} (tensors : Fin own.world → List α) (t : List α) : Prop where
  rows : t.length = own.rows
  comm : own.mode = .comm → ∀ rank, tensors rank = t
  length : own.mode = .shard → ∀ rank, (tensors rank).length = own.q
  row : own.mode = .shard → ∀ rank, ∀ j < own.q, own.lo rank + j < own.rows →
    (tensors rank)[j]? = t[own.lo rank + j]?

end Ownership

section Lists

/-- When every rank has a value, these are the values. -/
theorem everyRank_some {world : ℕ} {α : Type u} (value : Fin world → α) :
    everyRank (fun rank => some (value rank)) = some value := by
  have present : ∀ rank, (some (value rank)).isSome = true := fun _ => rfl
  rw [everyRank, dif_pos present]
  rfl

end Lists

namespace Ownership

variable (own : Ownership V)

/-- The owned rows of all ranks cover the tensor. -/
theorem rows_le_padded : own.rows ≤ own.padded := by
  have covers := Blocks.lt_cdiv own.rows own.world own.q own.world_pos
  exact Nat.not_lt.mp (mt covers.mpr (lt_irrefl _))

/-- Every row has an owner, the rank whose range it lies in. -/
theorem owner (i : ℕ) (inside : i < own.rows) :
    ∃ rank : Fin own.world, ∃ j < own.q, i = own.lo rank + j := by
  have below : i < own.q * own.world := lt_of_lt_of_le inside own.rows_le_padded
  have nonempty : 0 < own.q := Nat.pos_of_mul_pos_right (Nat.zero_lt_of_lt below)
  refine ⟨⟨i / own.q, Nat.div_lt_of_lt_mul below⟩, i % own.q, Nat.mod_lt i nonempty, ?_⟩
  exact (Nat.div_add_mod' i own.q).symm

/-- The gathered rows are the owned rows. -/
theorem allGather_row (tensors : Fin own.world → List V)
    (owned : ∀ rank, (tensors rank).length = own.q) (rank : Fin own.world) (j : ℕ)
    (inside : j < own.q) : (own.allGather tensors)[own.lo rank + j]? = (tensors rank)[j]? := by
  have uniform : ∀ list ∈ List.ofFn tensors, list.length = own.q := by
    intro list listed
    obtain ⟨rank, rfl⟩ := (List.mem_ofFn' _ _).mp listed
    exact owned rank
  rw [allGather, lo, Ragged.flatten_uniform own.q _ uniform rank j inside]
  simp

/-- Gathering the owned rows of all ranks gives all padded rows. -/
theorem allGather_length (tensors : Fin own.world → List V)
    (owned : ∀ rank, (tensors rank).length = own.q) :
    (own.allGather tensors).length = own.padded := by
  rw [allGather, List.length_flatten, List.map_ofFn, padded]
  have same : (List.length ∘ tensors) = fun _ => own.q := funext owned
  rw [same]
  simp [Nat.mul_comm]

/-- Without its padding a padded tensor has the chunk's rows. -/
theorem full_row (t : List V) (i : ℕ) (inside : i < own.rows) : (own.full t)[i]? = t[i]? := by
  unfold full
  split
  · rfl
  · exact List.getElem?_take_of_lt inside

/-- Gathering drops the padding, so the rows are those of the tensor again. -/
theorem full_length (t : List V) (long : t.length = own.padded) :
    (own.full t).length = own.rows := by
  have covers := own.rows_le_padded
  unfold full
  split
  next none =>
    unfold pad at none
    omega
  next => rw [List.length_take]; omega

/-- What the gathered rows are, once the owned rows are those of a tensor. -/
theorem full_allGather (tensors : Fin own.world → List V) (t : List V)
    (rows : t.length = own.rows) (length : ∀ rank, (tensors rank).length = own.q)
    (row : ∀ rank, ∀ j < own.q, own.lo rank + j < own.rows →
      (tensors rank)[j]? = t[own.lo rank + j]?) :
    own.full (own.allGather tensors) = t := by
  have gathered := own.allGather_length tensors length
  apply List.ext_getElem?
  intro i
  by_cases inside : i < own.rows
  · obtain ⟨rank, j, below, rfl⟩ := own.owner i inside
    rw [own.full_row _ _ inside, own.allGather_row tensors length rank j below,
      row rank j below inside]
  · have same := own.full_length _ gathered
    rw [List.getElem?_eq_none (by omega), List.getElem?_eq_none (by omega)]

/-- Gathering owned rows gives every rank the full tensor. -/
theorem gather_owned {tensors : Fin own.world → List V} {t : List V}
    (owned : own.Owned tensors t) :
    ∃ gathered, own.gather tensors = some gathered ∧ own.Full gathered t := by
  cases mode : own.mode with
  | comm => exact ⟨tensors, by rw [gather, mode], owned.rows, owned.comm mode⟩
  | shard =>
    refine ⟨fun _ => t, ?_, owned.rows, fun _ => rfl⟩
    have same := own.full_allGather tensors t owned.rows (owned.length mode) (owned.row mode)
    rw [gather, mode]
    dsimp only
    rw [if_pos (owned.length mode), same]

/-- The rows one rank keeps of a full tensor. -/
theorem localRows_eq (mode : own.mode = .shard) (rank : Fin own.world) (t : List V)
    (rows : t.length = own.rows) :
    ∃ kept, own.localRows rank t = some kept ∧ kept.length = own.q ∧
      ∀ j < own.q, own.lo rank + j < own.rows → kept[j]? = t[own.lo rank + j]? := by
  unfold localRows
  rw [mode]
  dsimp only
  rw [if_neg (not_not.mpr rows)]
  split
  next whole =>
    refine ⟨_, rfl, ?_, fun j below real => ?_⟩
    · rw [List.length_take, List.length_drop]
      unfold real at whole
      omega
    · rw [List.getElem?_take_of_lt below, List.getElem?_drop]
  next short =>
    have fewer : own.real rank < own.q := by unfold real at short ⊢; omega
    refine ⟨_, rfl, ?_, fun j below real => ?_⟩
    · rw [List.length_append, List.length_take, List.length_drop, List.length_replicate]
      unfold Ownership.real at *
      omega
    · have start : min (own.lo rank) own.rows = own.lo rank := by omega
      have among : j < own.real rank := by unfold Ownership.real; omega
      have there : j < ((t.drop (own.lo rank)).take (own.real rank)).length := by
        rw [List.length_take, List.length_drop]; omega
      rw [start, List.getElem?_append_left there, List.getElem?_take_of_lt among,
        List.getElem?_drop]

/-- Keeping the own rows of a full tensor. -/
theorem localRows_full {tensors : Fin own.world → List V} {t : List V}
    (held : own.Full tensors t) :
    ∃ kept, everyRank (fun rank => own.localRows rank (tensors rank)) = some kept ∧
      own.Owned kept t := by
  cases mode : own.mode with
  | comm =>
    have all : (fun rank => own.localRows rank (tensors rank)) =
        fun rank => some (tensors rank) := by
      funext rank
      rw [localRows, mode]
    refine ⟨tensors, by rw [all, everyRank_some], held.rows, fun _ => held.same, ?_, ?_⟩
    · exact fun other => nomatch mode.symm.trans other
    · exact fun other => nomatch mode.symm.trans other
  | shard =>
    choose kept eq length row using
      fun rank => own.localRows_eq mode rank (tensors rank) (by rw [held.same, held.rows])
    have all : (fun rank => own.localRows rank (tensors rank)) = fun rank => some (kept rank) :=
      funext eq
    refine ⟨kept, by rw [all, everyRank_some], held.rows, ?_, fun _ => length, ?_⟩
    · exact fun other => nomatch mode.symm.trans other
    · intro _ rank j below real
      rw [row rank j below real, held.same]

/-- An operation on every row keeps the ownership. -/
theorem Owned.map {own : Ownership V} {α β : Type u} {tensors : Fin own.world → List α}
    {t : List α} (owned : own.Owned tensors t) (op : α → β) :
    own.Owned (fun rank => (tensors rank).map op) (t.map op) where
  rows := (List.length_map op).trans owned.rows
  comm mode rank := congrArg (List.map op) (owned.comm mode rank)
  length mode rank := (List.length_map op).trans (owned.length mode rank)
  row mode rank j inside real := by
    rw [List.getElem?_map, List.getElem?_map, owned.row mode rank j inside real]

/-- Two tensors matched up row by row are owned alike. -/
theorem Owned.zip {own : Ownership V} {α β : Type u} {tensors : Fin own.world → List α}
    {others : Fin own.world → List β} {t : List α} {u : List β} (owned : own.Owned tensors t)
    (owned' : own.Owned others u) :
    own.Owned (fun rank => (tensors rank).zip (others rank)) (t.zip u) where
  rows := by rw [List.length_zip, owned.rows, owned'.rows, min_self]
  comm mode rank := by rw [owned.comm mode rank, owned'.comm mode rank]
  length mode rank := by
    rw [List.length_zip, owned.length mode rank, owned'.length mode rank, min_self]
  row mode rank j inside real := by
    simp only [List.zip, List.getElem?_zipWith, owned.row mode rank j inside real,
      owned'.row mode rank j inside real]

/-- An operation on every row of full tensors. -/
theorem Full.map {own : Ownership V} {α β : Type u} {tensors : Fin own.world → List α}
    {t : List α} (held : own.Full tensors t) (op : α → β) :
    own.Full (fun rank => (tensors rank).map op) (t.map op) where
  rows := (List.length_map op).trans held.rows
  same rank := congrArg (List.map op) (held.same rank)

variable [AddCommMonoid V]

omit [AddCommMonoid V] in
/-- Padding appends rows behind the chunk's own, which stay where they are. -/
theorem padTo_row (t : List V) (rows : t.length = own.rows) (i : ℕ) (inside : i < own.rows) :
    (own.padTo t)[i]? = t[i]? := by
  unfold padTo
  split
  · rfl
  · exact List.getElem?_append_left (by omega)

omit [AddCommMonoid V] in
/-- A padded tensor has a whole number of rows for every rank. -/
theorem padTo_length (t : List V) (rows : t.length = own.rows) :
    (own.padTo t).length = own.padded := by
  have covers := own.rows_le_padded
  unfold padTo
  split
  next none => unfold pad at none; omega
  next => rw [List.length_append, List.length_replicate, pad]; omega

/-- The rows of all ranks added up, row by row. -/
theorem sumRows_row {world : ℕ} (count : ℕ) (tensors : Fin world → List V) (i : ℕ)
    (inside : i < count) :
    (sumRows count tensors)[i]? = some (∑ rank, (tensors rank)[i]?.getD 0) := by
  rw [sumRows, List.getElem?_map, List.getElem?_range inside, Option.map_some]
  simp only [List.getD_eq_getElem?_getD]

/-- A rank is left with as many rows as it owns. -/
theorem reduceScatter_length (tensors : Fin own.world → List V) (rank : Fin own.world) :
    (own.reduceScatter tensors rank).length = own.q := by
  have block : own.lo rank + own.q ≤ own.padded := by
    have next : (rank + 1) * own.q ≤ own.world * own.q := Nat.mul_le_mul_right _ rank.isLt
    rw [Nat.add_mul, Nat.one_mul] at next
    rw [lo, padded, Nat.mul_comm own.q]
    exact next
  rw [reduceScatter, List.length_take, List.length_drop, sumRows, List.length_map,
    List.length_range]
  omega

/-- A row of the padded reduce-scatter is a row of the sum. -/
theorem reduceScatter_row (partials : Fin own.world → List V)
    (rows : ∀ rank, (partials rank).length = own.rows) (rank : Fin own.world) (j : ℕ)
    (inside : j < own.q) (real : own.lo rank + j < own.rows) :
    (own.reduceScatter (fun rank => own.padTo (partials rank)) rank)[j]? =
      (own.allReduce partials)[own.lo rank + j]? := by
  have covers := own.rows_le_padded
  rw [reduceScatter, List.getElem?_take_of_lt inside, List.getElem?_drop,
    sumRows_row _ _ _ (by omega), allReduce, sumRows_row _ _ _ real]
  congr 2
  funext rank
  rw [own.padTo_row _ (rows rank) _ real]

/-- The sum of the ranks has the chunk's rows. -/
theorem allReduce_length (partials : Fin own.world → List V) :
    (own.allReduce partials).length = own.rows := by
  rw [allReduce, sumRows, List.length_map, List.length_range]

/-- Reducing partial sums gives every rank its rows of their sum. -/
theorem reduce_owned (partials : Fin own.world → List V)
    (rows : ∀ rank, (partials rank).length = own.rows) :
    ∃ reduced, own.reduce partials = some reduced ∧
      own.Owned reduced (own.allReduce partials) := by
  have scattered := own.reduceScatter_row partials rows
  have length := own.reduceScatter_length (fun rank => own.padTo (partials rank))
  have total := own.allReduce_length partials
  unfold reduce
  rw [if_pos rows]
  dsimp only
  cases mode : own.mode with
  | comm =>
    have same := own.full_allGather _ _ total length scattered
    refine ⟨_, rfl, total, fun _ _ => same, ?_, ?_⟩
    · exact fun other => nomatch mode.symm.trans other
    · exact fun other => nomatch mode.symm.trans other
  | shard =>
    dsimp only
    split
    · exact own.localRows_full ⟨total, fun _ => rfl⟩
    · exact ⟨_, rfl, total, fun other => (nomatch mode.symm.trans other), fun _ => length,
        fun _ => scattered⟩

end Ownership

end GlmSpark.RowOwnership
