import GlmSpark.Blocks
import GlmSpark.FirstMaximum
import GlmSpark.Ragged

/-!
# Local argmax and the vocab-parallel pair reduction

Every rank finds the greatest value of its own vocabulary range and the first
index that reaches it, either in one pass or tile by tile, and the ranks exchange
one pair of value and global id for each row. The rank with the greatest value
wins, the lowest rank on ties. Since the ranges are contiguous and in rank order,
a tie resolves to the lowest token id.

A row of logits is a list of values in a linear order with a least element, the
value of a masked lane. A NaN has no place in this order.
-/

namespace GlmSpark.VocabArgmax

open Blocks FirstMaximum Ragged

universe u
variable {V : Type u} [LinearOrder V] [OrderBot V]

/-- `local_argmax_torch`, one row: the first maximal index and the value there. -/
def localArgmaxTorch (logits : List V) : V × Nat :=
  let idx := argmax logits
  (logits.getD idx ⊥, idx)

/-- The lanes a program loads; a lane past the vocabulary loads the least value. -/
def tileLanes (blockSize : Nat) (logits : List V) (blk : Nat) : List V :=
  let loaded := chunk blockSize logits blk
  loaded ++ List.replicate (blockSize - loaded.length) ⊥

/-- `_block_argmax_kernel`: a tile's greatest value and its leftmost lane, the
stored id clamped into the vocabulary. -/
def blockArgmax (blockSize : Nat) (logits : List V) (blk : Nat) : V × Nat :=
  let lanes := tileLanes blockSize logits blk
  (maxValue lanes, min (blk * blockSize + argmax lanes) (logits.length - 1))

/-- The width of a tile. -/
def block : Nat := 8192

/-- `local_argmax` on the device, one row: the first tile with a greatest value. -/
def localArgmax (logits : List V) : V × Nat :=
  let tiles := (List.range (cdiv logits.length block)).map (blockArgmax block logits)
  tiles.getD (argmax (tiles.map Prod.fst)) (⊥, 0)

/-- What a rank sends for one row: the value and the global id in one fp32 column
each, and a status column. -/
structure Pair (V : Type u) where
  value : V
  id : Nat
  status : Nat
deriving DecidableEq, Repr

/-- The fp32 nearest to a natural number, ties to the even significand. -/
def toFloat32 (n : Nat) : Nat :=
  if n < 2 ^ 24 then n
  else
    let ulp := 2 ^ (n.log2 - 23)
    let below := n / ulp
    let remainder := n % ulp
    if 2 * remainder < ulp ∨ 2 * remainder = ulp ∧ below % 2 = 0 then below * ulp
    else (below + 1) * ulp

/-- `pack_pairs`, one row. -/
def packPair (local_ : V × Nat) (status : Nat) : Pair V :=
  { value := local_.1, id := toFloat32 local_.2, status := status }

/-- `reduce_pairs`, one row: the id sent by the first rank with a greatest
value. -/
def reducePairs (gathered : List (Pair V)) : Nat :=
  ((gathered[argmax (gathered.map Pair.value)]?).map Pair.id).getD 0

section Local

omit [LinearOrder V] [OrderBot V] in
/-- The ids of a row's entries are its positions. -/
theorem zipIdx_id_lt (logits : List V) (entry : V × Nat) (member : entry ∈ logits.zipIdx) :
    entry.2 < logits.length := by
  obtain ⟨_, bounded, _⟩ := List.mem_zipIdx member
  simpa using bounded

/-- The first maximal index holds the first maximum of a row. -/
theorem argmax_isFirst {logits : List V} (nonempty : logits ≠ []) :
    IsFirst logits.zipIdx (maxValue logits, argmax logits) := by
  obtain ⟨inside, reached, earliest⟩ := argmax_spec nonempty
  refine ⟨?_, ?_, ?_⟩
  · rw [List.mk_mem_zipIdx_iff_getElem?, List.getElem?_eq_getElem inside, reached]
  · rintro ⟨value, index⟩ member
    rw [List.mk_mem_zipIdx_iff_getElem?] at member
    exact le_maxValue (List.mem_of_getElem? member)
  · rintro ⟨value, index⟩ member equal
    rw [List.mk_mem_zipIdx_iff_getElem?] at member
    obtain ⟨there, found⟩ := List.getElem?_eq_some_iff.mp member
    exact earliest index there (found.trans equal)

/-- The torch reference answers with the first of the largest logits. -/
theorem localArgmaxTorch_isFirst {logits : List V} (nonempty : logits ≠ []) :
    IsFirst logits.zipIdx (localArgmaxTorch logits) := by
  obtain ⟨inside, reached, _⟩ := argmax_spec nonempty
  have value : logits.getD (argmax logits) ⊥ = maxValue logits := by
    rw [List.getD_eq_getElem?_getD, List.getElem?_eq_getElem inside, Option.getD_some, reached]
  simp only [localArgmaxTorch, value]
  exact argmax_isFirst nonempty

/-- A tile answers the first maximum of the lanes inside the vocabulary: neither
the masked lanes nor the clamp change it. -/
theorem blockArgmax_isFirst (blockSize : Nat) (logits : List V) (blk : Nat)
    (positive : 0 < blockSize) (inside : blk * blockSize < logits.length) :
    IsFirst (chunk blockSize logits.zipIdx blk) (blockArgmax blockSize logits blk) := by
  have nonempty := chunk_ne_nil blockSize logits blk positive inside
  obtain ⟨sameMax, sameIndex⟩ := argmax_append_bot nonempty
    (blockSize - (chunk blockSize logits blk).length)
  obtain ⟨bounded, _, _⟩ := argmax_spec nonempty
  have entries : chunk blockSize logits.zipIdx blk =
      (chunk blockSize logits blk).zipIdx.map
        fun entry => (entry.1, blk * blockSize + entry.2) := by
    apply List.ext_getElem
    · simp [chunk]
    · intro index _ _
      simp [chunk]
  have room : argmax (chunk blockSize logits blk) < logits.length - blk * blockSize := by
    simp only [chunk, List.length_take, List.length_drop] at bounded
    exact lt_of_lt_of_le bounded (min_le_right _ _)
  have unclamped : min (blk * blockSize + argmax (chunk blockSize logits blk))
      (logits.length - 1) = blk * blockSize + argmax (chunk blockSize logits blk) := by
    apply min_eq_left
    omega
  have answer : blockArgmax blockSize logits blk =
      (maxValue (chunk blockSize logits blk),
        blk * blockSize + argmax (chunk blockSize logits blk)) := by
    simp only [blockArgmax, tileLanes, sameMax, sameIndex, unclamped]
  rw [entries, answer]
  exact (argmax_isFirst nonempty).shift (blk * blockSize)

omit [LinearOrder V] [OrderBot V] in
/-- Earlier tiles hold lower ids, so a maximum found in an earlier tile wins a tie. -/
theorem chunks_ascending (blockSize : Nat) (logits : List V) (count : Nat) :
    ((List.range count).map (chunk blockSize logits.zipIdx)).Pairwise
      fun early late => ∀ entry ∈ early, ∀ other ∈ late, entry.2 < other.2 := by
  rw [List.pairwise_map]
  apply List.pairwise_lt_range.imp
  intro early late ordered entry inEarly other inLate
  have position : ∀ index (found : V × Nat), found ∈ chunk blockSize logits.zipIdx index →
      index * blockSize ≤ found.2 ∧ found.2 < (index + 1) * blockSize := by
    intro index found member
    obtain ⟨offset, bounded, rfl⟩ := List.getElem_of_mem member
    have short : offset < blockSize := by
      simp only [chunk, List.length_take] at bounded
      exact lt_of_lt_of_le bounded (min_le_left _ _)
    simp only [chunk, List.getElem_take, List.getElem_drop, List.getElem_zipIdx, Nat.zero_add,
      Nat.add_mul, Nat.one_mul]
    omega
  have before := (position early entry inEarly).2
  have after := (position late other inLate).1
  exact lt_of_lt_of_le (lt_of_lt_of_le before (Nat.mul_le_mul_right blockSize ordered)) after

/-- The first tile with a greatest value holds the first maximum of the row, whatever the
width of the tiles. -/
theorem tiles_isFirst {logits : List V} (nonempty : logits ≠ []) (size : Nat) (positive : 0 < size) :
    ∃ best, ((List.range (cdiv logits.length size)).map (blockArgmax size logits))[argmax
        (((List.range (cdiv logits.length size)).map (blockArgmax size logits)).map Prod.fst)]? =
          some best ∧ IsFirst logits.zipIdx best := by
  have length : 0 < logits.length := List.length_pos_of_ne_nil nonempty
  have tiles : 0 < cdiv logits.length size :=
    (lt_cdiv _ _ 0 positive).mpr (by simpa using length)
  have each : List.Forall₂ IsFirst
      ((List.range (cdiv logits.length size)).map (chunk size logits.zipIdx))
      ((List.range (cdiv logits.length size)).map (blockArgmax size logits)) := by
    rw [List.forall₂_map_left_iff, List.forall₂_map_right_iff, List.forall₂_same]
    intro blk member
    exact blockArgmax_isFirst size logits blk positive
      ((lt_cdiv _ _ blk positive).mp (List.mem_range.mp member))
  have some_tile : (List.range (cdiv logits.length size)).map (blockArgmax size logits) ≠ [] := by
    simpa using Nat.pos_iff_ne_zero.mp tiles
  obtain ⟨best, chosen, first⟩ :=
    first_of_parts some_tile each (chunks_ascending size logits (cdiv logits.length size))
  have enough : logits.zipIdx.length ≤ cdiv logits.length size * size := by
    rw [List.length_zipIdx]
    exact Nat.le_of_not_lt fun short => absurd ((lt_cdiv _ _ _ positive).mpr short) (lt_irrefl _)
  rw [chunks_flatten, List.take_of_length_le enough] at first
  exact ⟨best, chosen, first⟩

/-- The tile-wise argmax is the first maximum of the row. -/
theorem localArgmax_isFirst {logits : List V} (nonempty : logits ≠ []) :
    IsFirst logits.zipIdx (localArgmax logits) := by
  obtain ⟨best, chosen, first⟩ := tiles_isFirst nonempty block (by decide)
  have answer : localArgmax logits = best := by
    simp only [localArgmax, List.getD_eq_getElem?_getD, chosen, Option.getD_some]
  exact answer ▸ first

end Local

section Pairs

/-- Ids up to 2^24 survive the rounding to `float32` that sending them beside the logits takes. -/
theorem toFloat32_exact {n : Nat} (small : n ≤ 2 ^ 24) : toFloat32 n = n := by
  rcases Nat.lt_or_eq_of_le small with below | rfl
  · exact if_pos below
  · decide

/-- When every rank's pair is the first maximum of its own range and the ranges
ascend in rank order, the reduction answers the id of the first maximum of all
ranges. -/
theorem reducePairs_isFirst {ranges : List (List (V × Nat))} {gathered : List (Pair V)}
    (nonempty : gathered ≠ [])
    (each : List.Forall₂ IsFirst ranges (gathered.map fun pair => (pair.value, pair.id)))
    (ascending : ranges.Pairwise fun early late => ∀ entry ∈ early, ∀ other ∈ late,
      entry.2 < other.2) :
    ∃ best, IsFirst ranges.flatten best ∧ reducePairs gathered = best.2 := by
  have sent : gathered.map (fun pair => (pair.value, pair.id)) ≠ [] := by simpa using nonempty
  obtain ⟨best, chosen, first⟩ := first_of_parts sent each ascending
  refine ⟨best, first, ?_⟩
  have values : (gathered.map fun pair => (pair.value, pair.id)).map Prod.fst =
      gathered.map Pair.value := by
    simp
  rw [values, List.getElem?_map, Option.map_eq_some_iff] at chosen
  obtain ⟨pair, found, rfl⟩ := chosen
  simp only [reducePairs, found, Option.map_some, Option.getD_some]

end Pairs

end GlmSpark.VocabArgmax
