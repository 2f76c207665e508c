import GlmSpark.RowOwnership
import Mathlib.Data.List.FinRange

/-!
# The algebra of row ownership

A rank's slice of a full tensor is its block of the padded tensor. From that the
slices of all ranks are seen to gather to the tensor, and an all-reduce followed by
slicing to be the reduce-scatter of the padded partial sums, padding rows included.
Ranks past the last row own padding only; nothing below treats them apart.
-/

namespace GlmSpark.OwnershipAlgebra

open RowOwnership

universe u
variable {V : Type u} (own : Ownership V)

section Blocks

/-- A rank's real rows are its block of all rows. -/
theorem real_block (rank : Fin own.world) :
    List.range' (own.lo rank) (own.real rank) =
      Ragged.chunk own.q (List.range own.rows) rank := by
  have block : own.lo rank = rank * own.q := rfl
  rw [Ragged.chunk, ← block, List.range_eq_range', List.drop_range', Ownership.real,
    Nat.mul_one, Nat.zero_add]
  rcases Nat.le_total own.q (own.rows - own.lo rank) with whole | short
  · rw [Nat.min_eq_left whole, List.take_range'_of_length_ge whole]
  · rw [Nat.min_eq_right short, List.take_range'_of_length_le short]

/-- The real rows of the ranks, in order, are all rows. -/
theorem real_partition :
    ((List.finRange own.world).map fun rank => List.range' (own.lo rank) (own.real rank)).flatten =
      List.range own.rows := by
  have covered : (List.range own.rows).length ≤ own.world * own.q := by
    rw [List.length_range, Nat.mul_comm]
    exact own.rows_le_padded
  have blocks : ((List.finRange own.world).map fun rank =>
      List.range' (own.lo rank) (own.real rank)) =
      (List.range own.world).map (Ragged.chunk own.q (List.range own.rows)) := by
    rw [← List.map_coe_finRange_eq_range (n := own.world), List.map_map]
    exact List.map_congr_left fun rank _ => real_block own rank
  rw [blocks, Ragged.chunks_whole _ _ _ covered]

end Blocks

section Slices

/-- `_pad_to` appends the padding, also where there is none. -/
theorem padTo_eq (t : List V) : own.padTo t = t ++ List.replicate own.pad own.fill := by
  rw [Ownership.padTo]
  split
  next none => rw [none, List.replicate_zero, List.append_nil]
  next => rfl

/-- A rank's owned rows are rows of the padded tensor. -/
theorem owned_le (rank : Fin own.world) : own.lo rank + own.q ≤ own.rows + own.pad := by
  have covers := own.rows_le_padded
  have next : (rank + 1) * own.q ≤ own.world * own.q := Nat.mul_le_mul_right _ rank.isLt
  rw [Nat.add_mul, Nat.one_mul] at next
  have padded : own.padded = own.world * own.q := Nat.mul_comm _ _
  rw [Ownership.pad, Ownership.lo]
  omega

/-- In shard mode a rank's slice is its block of the padded tensor. -/
theorem localRows_padded (mode : own.mode = .shard) (rank : Fin own.world) (t : List V)
    (rows : t.length = own.rows) :
    own.localRows rank t = some (((own.padTo t).drop (own.lo rank)).take own.q) := by
  have inside := owned_le own rank
  rw [Ownership.localRows, mode]
  dsimp only
  rw [if_neg (not_not.mpr rows), padTo_eq, List.drop_append, List.take_append, rows,
    List.drop_replicate, List.take_replicate, List.length_drop, rows]
  split
  next whole =>
    -- Nothing is taken from the padding.
    have none : own.q - (own.rows - own.lo rank) = 0 := by
      rw [Ownership.real] at whole
      omega
    rw [none, Nat.zero_min, List.replicate_zero, List.append_nil]
  next short =>
    have padding : min (own.q - (own.rows - own.lo rank))
        (own.pad - (own.lo rank - own.rows)) = own.q - own.real rank := by
      rw [Ownership.real] at short ⊢
      omega
    rw [padding]
    congr 2
    rcases Nat.le_total (own.lo rank) own.rows with before | after
    · have taken : own.real rank = own.rows - own.lo rank := by
        rw [Ownership.real] at short ⊢
        omega
      have length : (t.drop (own.lo rank)).length = own.rows - own.lo rank := by
        rw [List.length_drop, rows]
      rw [Nat.min_eq_left before, taken, ← length, List.take_length,
        List.take_of_length_le]
      rw [length, ← taken, Ownership.real]
      exact Nat.min_le_left _ _
    · -- The rank owns no real row.
      rw [Nat.min_eq_right after, ← rows, List.drop_length, List.drop_of_length_le (rows ▸ after),
        List.take_nil, List.take_nil]

end Slices

section Collectives

variable [AddCommMonoid V]

/-- The sum of padded partial sums is the padded sum: zero rows add up to zero rows. -/
theorem sumRows_padTo (zero : own.fill = 0) (partials : Fin own.world → List V)
    (rows : ∀ rank, (partials rank).length = own.rows) :
    sumRows own.padded (fun rank => own.padTo (partials rank)) =
      own.padTo (own.allReduce partials) := by
  have total := own.allReduce_length partials
  have size : own.padded = own.rows + own.pad := by
    have covers := own.rows_le_padded
    rw [Ownership.pad]
    omega
  apply List.ext_getElem?
  intro i
  by_cases inside : i < own.padded
  · rw [Ownership.sumRows_row _ _ _ inside]
    by_cases real : i < own.rows
    · rw [own.padTo_row _ total i real, Ownership.allReduce, Ownership.sumRows_row _ _ _ real]
      congr 2
      funext rank
      rw [own.padTo_row _ (rows rank) i real]
    · have padding : ∀ t : List V, t.length = own.rows → (own.padTo t)[i]? = some 0 := by
        intro t length
        rw [padTo_eq, List.getElem?_append_right (by omega), List.getElem?_replicate,
          if_pos (by omega), zero]
      rw [padding _ total]
      congr 1
      refine Finset.sum_eq_zero fun rank _ => ?_
      rw [padding _ (rows rank), Option.getD_some]
  · have long := own.padTo_length _ total
    rw [List.getElem?_eq_none, List.getElem?_eq_none (by omega)]
    rw [sumRows, List.length_map, List.length_range]
    omega

/-- Slicing the all-reduce is scattering the padded partial sums. -/
theorem localRows_allReduce (zero : own.fill = 0) (mode : own.mode = .shard)
    (partials : Fin own.world → List V) (rows : ∀ rank, (partials rank).length = own.rows)
    (rank : Fin own.world) :
    own.localRows rank (own.allReduce partials) =
      some (own.reduceScatter (fun other => own.padTo (partials other)) rank) := by
  rw [localRows_padded own mode rank _ (own.allReduce_length partials), Ownership.reduceScatter,
    sumRows_padTo own zero partials rows]

/-- In shard mode `reduce` scatters, also where the exact variant reduces first. -/
theorem reduce_shard (zero : own.fill = 0) (mode : own.mode = .shard)
    (partials : Fin own.world → List V) (rows : ∀ rank, (partials rank).length = own.rows) :
    own.reduce partials = some (own.reduceScatter fun rank => own.padTo (partials rank)) := by
  rw [Ownership.reduce, if_pos rows]
  dsimp only
  rw [mode]
  dsimp only
  split
  next =>
    have slices : (fun rank => own.localRows rank (own.allReduce partials)) =
        fun rank => some (own.reduceScatter (fun other => own.padTo (partials other)) rank) :=
      funext fun rank => localRows_allReduce own zero mode partials rows rank
    rw [slices, everyRank_some]
  next => rfl

/-- In comm mode `reduce` is the all-reduce. -/
theorem reduce_comm (mode : own.mode = .comm) (partials : Fin own.world → List V)
    (rows : ∀ rank, (partials rank).length = own.rows) :
    own.reduce partials = some fun _ => own.allReduce partials := by
  obtain ⟨reduced, done, owned⟩ := own.reduce_owned partials rows
  rw [done]
  exact congrArg some (funext (owned.comm mode))

end Collectives

/-- The slices that all ranks keep of a tensor gather to the tensor at every rank. -/
theorem gather_localRows (t : List V) (rows : t.length = own.rows) :
    ∃ slices, everyRank (fun rank => own.localRows rank t) = some slices ∧
      own.gather slices = some fun _ => t := by
  obtain ⟨slices, kept, owned⟩ := own.localRows_full ⟨rows, fun _ => rfl⟩
  obtain ⟨gathered, done, full⟩ := own.gather_owned owned
  refine ⟨slices, kept, ?_⟩
  rw [done]
  exact congrArg some (funext full.same)

/-- Whatever rows, ranks and padding `__init__` accepts: the real rows of the ranks are all rows in
order; slices gather to the tensor; in shard mode every rank's slice of the all-reduce is its part
of the padded reduce-scatter, which `reduce` returns exact or not; in comm mode `reduce` is the
all-reduce. -/
theorem ownership_algebra [AddCommMonoid V] {world rows : ℕ} {mode : Mode} {exact pad : Bool}
    {world_pos : 0 < world} {own : Ownership V}
    (built : Ownership.init world rows mode exact pad (0 : V) world_pos = some own) :
    own.world = world ∧ own.rows = rows ∧
    ((List.finRange own.world).map fun rank => List.range' (own.lo rank) (own.real rank)).flatten =
      List.range rows ∧
    (∀ t : List V, t.length = rows → ∃ slices,
      everyRank (fun rank => own.localRows rank t) = some slices ∧
      own.gather slices = some fun _ => t) ∧
    ∀ partials : Fin own.world → List V, (∀ rank, (partials rank).length = rows) →
      (mode = .shard →
        (∀ rank, own.localRows rank (own.allReduce partials) =
          some (own.reduceScatter (fun other => own.padTo (partials other)) rank)) ∧
        own.reduce partials = some (own.reduceScatter fun rank => own.padTo (partials rank))) ∧
      (mode = .comm → own.reduce partials = some fun _ => own.allReduce partials) := by
  rw [Ownership.init] at built
  split at built
  · exact nomatch built
  obtain rfl := Option.some.inj built
  refine ⟨rfl, rfl, real_partition _, fun t length => gather_localRows _ t length,
    fun partials lengths => ⟨?_, ?_⟩⟩
  · intro shard
    exact ⟨localRows_allReduce _ rfl shard partials lengths,
      reduce_shard _ rfl shard partials lengths⟩
  · intro comm
    exact reduce_comm _ comm partials lengths

/-- Five rows over four ranks: the third rank owns one real row and the last none. -/
def fiveOverFour : Ownership ℤ := ⟨4, 5, .shard, true, 0, by decide⟩

/-- Slices of five rows gather to the five rows. -/
theorem ownership_algebra_ragged :
    (List.finRange 4).map fiveOverFour.real = [2, 2, 1, 0] ∧
    fiveOverFour.localRows (Fin.last 3) [5, 6, 7, 8, 9] = some [0, 0] ∧
    ∃ slices, everyRank (fun rank => fiveOverFour.localRows rank [5, 6, 7, 8, 9]) = some slices ∧
      fiveOverFour.gather slices = some fun _ => [5, 6, 7, 8, 9] := by
  have built : Ownership.init 4 5 .shard true true (0 : ℤ) (by decide) = some fiveOverFour := rfl
  exact ⟨by decide, by decide, (ownership_algebra built).2.2.2.1 [5, 6, 7, 8, 9] rfl⟩

end GlmSpark.OwnershipAlgebra
