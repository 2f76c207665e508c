import Mathlib.Data.List.Basic

/-!
# Positions in fixed-size blocks

Position `p` lies in block `p / size`; a span that ends at `e` last touched block
`(e - 1) / size`. These laws turn the quotients into the inequalities that
alignment arguments use.
-/

namespace GlmSpark.Blocks

/-- The last block boundary that is not after a position. -/
def floorBoundary (size position : Nat) : Nat := position / size * size

/-- The block that a span ending at `stop` touches last. -/
def slotOfEnd (size stop : Nat) : Nat := (stop - 1) / size

/-- Blocks needed for a length, the last one possibly partial. -/
def cdiv (length size : Nat) : Nat := (length + size - 1) / size

/-- A block is needed exactly when it starts inside the length. -/
theorem lt_cdiv (length size block : Nat) (positive : 0 < size) :
    block < cdiv length size ↔ block * size < length := by
  rw [cdiv, Nat.lt_iff_add_one_le, Nat.le_div_iff_mul_le positive, Nat.add_mul, Nat.one_mul]
  omega

/-- A longer list never needs fewer blocks. -/
theorem cdiv_mono {length other : Nat} (size : Nat) (ordered : length ≤ other) :
    cdiv length size ≤ cdiv other size := by
  unfold cdiv
  exact Nat.div_le_div_right (Nat.sub_le_sub_right (Nat.add_le_add_right ordered size) 1)

/-- Whole blocks need no further one: rounding up is exact on multiples of the block size. -/
theorem cdiv_mul (count size : Nat) (positive : 0 < size) : cdiv (count * size) size = count := by
  rw [cdiv, Nat.div_eq_iff positive]
  omega

/-- A position lies at or behind the start of its own block. -/
theorem floorBoundary_le (size position : Nat) : floorBoundary size position ≤ position :=
  Nat.div_mul_le_self position size

/-- A position lies before the start of the next block. With `floorBoundary_le` this determines the
boundary. -/
theorem lt_floorBoundary_add (size position : Nat) (positive : 0 < size) :
    position < floorBoundary size position + size := by
  have split : size * (position / size) + position % size = position := Nat.div_add_mod position size
  have remainder : position % size < size := Nat.mod_lt position positive
  rw [floorBoundary, Nat.mul_comm]
  omega

/-- The block of a position is the one whose boundaries enclose it. -/
theorem div_eq_iff (size position block : Nat) (positive : 0 < size) :
    position / size = block ↔ block * size ≤ position ∧ position < (block + 1) * size := by
  rw [Nat.div_eq_iff positive, Nat.add_mul, Nat.one_mul]
  constructor
  · rintro ⟨lower, upper⟩
    omega
  · rintro ⟨lower, upper⟩
    omega

/-- A span ends in a block exactly when it ends after the block's start and not
after its end. -/
theorem slotOfEnd_eq_iff (size stop block : Nat) (positive : 0 < size) (nonempty : 0 < stop) :
    slotOfEnd size stop = block ↔ block * size < stop ∧ stop ≤ (block + 1) * size := by
  rw [slotOfEnd, div_eq_iff size (stop - 1) block positive]
  omega

/-- Between two neighbouring boundaries there is no multiple of the size. -/
theorem remainder_of_inside (size position block : Nat) (above : block * size < position)
    (below : position < (block + 1) * size) : position % size ≠ 0 := by
  have positive : 0 < size := by
    rcases Nat.eq_zero_or_pos size with rfl | positive
    · simp at below
    · exact positive
  have quotient : position / size = block :=
    (div_eq_iff size position block positive).mpr ⟨Nat.le_of_lt above, below⟩
  have split : size * (position / size) + position % size = position := Nat.div_add_mod position size
  rw [quotient, Nat.mul_comm] at split
  omega

/-- The last boundary strictly before a positive position that is a multiple of
the size is one block earlier; otherwise it is the position's own floor. -/
theorem floor_pred (size position : Nat) (nonempty : 0 < position) :
    floorBoundary size (position - 1) =
      if position % size = 0 then floorBoundary size position - size
      else floorBoundary size position := by
  rcases Nat.eq_zero_or_pos size with rfl | positive
  · simp [floorBoundary]
  have split : size * (position / size) + position % size = position := Nat.div_add_mod position size
  have remainder : position % size < size := Nat.mod_lt position positive
  have enclosed : ∀ block, block * size ≤ position - 1 → position - 1 < (block + 1) * size →
      floorBoundary size (position - 1) = block * size := by
    intro block lower upper
    rw [floorBoundary, (div_eq_iff size (position - 1) block positive).mpr ⟨lower, upper⟩]
  split
  · rename_i aligned
    have quotient : 0 < position / size := by
      rcases Nat.eq_zero_or_pos (position / size) with none | some
      · rw [none] at split
        omega
      · exact some
    obtain ⟨block, quotient_eq⟩ : ∃ block, position / size = block + 1 :=
      ⟨position / size - 1, by omega⟩
    rw [quotient_eq, Nat.mul_comm, Nat.add_mul, Nat.one_mul] at split
    rw [enclosed block (by omega) (by rw [Nat.add_mul, Nat.one_mul]; omega), floorBoundary,
      quotient_eq, Nat.add_mul, Nat.one_mul]
    omega
  · rename_i unaligned
    rw [Nat.mul_comm] at split
    rw [enclosed (position / size) (by omega) (by rw [Nat.add_mul, Nat.one_mul]; omega),
      floorBoundary]

end GlmSpark.Blocks
