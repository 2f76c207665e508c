import GlmSpark.Fpfmt
import GlmSpark.Ragged
import GlmSpark.Blocks

/-!
# MXFP8 re-encoding

`q_mxfp8` gives every block of 32 weights an exponent byte and e4m3 codes. It tries two
exponents made from the block maximum and keeps the one with the lower squared error.
`dq_mxfp8` multiplies codes and powers. Both are read on exact rationals, where the ceiling
and the floor of a binary logarithm are integers.

The cast to e4m3 is a parameter: what is used of it is that it rounds to nearest.
-/

namespace GlmSpark.QuantMix

open Minifloat Fpfmt Ragged

/-- `FP8_MAX`. -/
def fp8Max : ℚ := 448

/-- A cast to e4m3 rounds magnitudes up to the maximum to the nearest code, ties to even. -/
def CastsNearest (cast : ℚ → ℚ) : Prop :=
  ∀ x : ℚ, |x| ≤ fp8Max → ∃ n, e4m3.NearestEven (Set.Iic 126) x n (cast x)

/-- `clamp`. -/
def clamp {α : Type} [LinearOrder α] (x low high : α) : α := min (max x low) high

/-- What the loop over the exponents keeps of a block. -/
structure Best where
  err : ℚ
  q : List ℚ
  e : ℤ

section Encoder

variable (cast : ℚ → ℚ)

/-- The codes and the squared error of a block under an exponent. -/
def attempt (b : List ℚ) (e : ℤ) : Best :=
  let e := clamp e (-127) 127
  let q := b.map fun x => cast (clamp (x / 2 ^ e) (-fp8Max) fp8Max)
  let err := ((q.zip b).map fun (q, x) => (q * 2 ^ e - x) ^ 2).sum
  ⟨err, q, e⟩

/-- A later exponent replaces the kept one where its error is lower; the codes are cast again. -/
def keepBetter (best new : Best) : Best :=
  let t := decide (new.err < best.err)
  ⟨if t then new.err else best.err, (if t then new.q else best.q).map cast,
    if t then new.e else best.e⟩

/-- The block maximum, not below the least normal float. -/
def amax (b : List ℚ) : ℚ := max (b.foldl (fun best x => max best |x|) 0) (2 ^ (-126 : ℤ))

/-- The loop body of `q_mxfp8` on one block: the ceiling rule, then the floor rule. -/
def encodeBlock (b : List ℚ) : List ℚ × BitVec 8 :=
  let best := attempt cast b (Int.clog 2 (amax b / fp8Max))
  let best := keepBetter cast best (attempt cast b (Int.log 2 (amax b) - 8))
  (best.q, BitVec.ofInt 8 (best.e + 127))

/-- The view of a row as blocks of 32. -/
def blocks (row : List ℚ) : List (List ℚ) := (List.range (row.length / 32)).map (chunk 32 row)

/-- `q_mxfp8`: slices of `rows` rows are encoded one after another and joined. -/
def q_mxfp8 (w : List (List ℚ)) (rows : ℕ) : List (List ℚ) × List (List (BitVec 8)) :=
  let slices := (List.range (Blocks.cdiv w.length rows)).map (chunk rows w)
  let best := slices.map fun slice => slice.map fun row => (blocks row).map (encodeBlock cast)
  ((best.map fun slice => slice.map fun row => (row.map Prod.fst).flatten).flatten,
    (best.map fun slice => slice.map fun row => row.map Prod.snd).flatten)

end Encoder

/-- A block of codes times the power of its scale byte. -/
def decodeBlock (q : List ℚ) (s : BitVec 8) : List ℚ := q.map (· * 2 ^ ((s.toNat : ℤ) - 127))

/-- `dq_mxfp8`: every code times the power of two its block's scale byte stands for. -/
def dq_mxfp8 (q : List (List ℚ)) (s : List (List (BitVec 8))) : List (List ℚ) :=
  (q.zip s).map fun (qrow, srow) =>
    (((blocks qrow).zip srow).map fun (q, s) => decodeBlock q s).flatten

/-- A block lies on an MX grid: e4m3 values times one power of two. -/
def OnGrid (b : List ℚ) : Prop :=
  ∃ e : ℤ, -127 ≤ e ∧ e ≤ 127 ∧ ∀ x ∈ b, ∃ q, x = q * 2 ^ e ∧ ∃ n ≤ 126, |q| = e4m3.value n

/-! ### One block -/

/-- The block maximum bounds every weight of the block, which keeps the scaled weights in range. -/
theorem le_amax (b : List ℚ) : ∀ x ∈ b, |x| ≤ amax b := by
  have kept : ∀ (b : List ℚ) (start : ℚ), start ≤ b.foldl (fun best x => max best |x|) start ∧
      ∀ x ∈ b, |x| ≤ b.foldl (fun best x => max best |x|) start := by
    intro b
    induction b with
    | nil => exact fun start => ⟨le_rfl, fun x member => absurd member List.not_mem_nil⟩
    | cons first rest ih =>
      intro start
      obtain ⟨grown, bounded⟩ := ih (max start |first|)
      refine ⟨(le_max_left _ _).trans grown, fun x member => ?_⟩
      obtain rfl | later := List.mem_cons.mp member
      · exact (le_max_right _ _).trans grown
      · exact bounded x later
  exact fun x member => ((kept b 0).2 x member).trans (le_max_left _ _)

/-- A bound on the weights that is not below the floor bounds the block maximum. -/
theorem amax_le {b : List ℚ} {bound : ℚ} (floor : 2 ^ (-126 : ℤ) ≤ bound)
    (bounded : ∀ x ∈ b, |x| ≤ bound) : amax b ≤ bound := by
  have kept : ∀ (b : List ℚ) (start : ℚ), start ≤ bound → (∀ x ∈ b, |x| ≤ bound) →
      b.foldl (fun best x => max best |x|) start ≤ bound := by
    intro b
    induction b with
    | nil => exact fun start below _ => below
    | cons first rest ih =>
      exact fun start below bounded => ih _ (max_le below (bounded first List.mem_cons_self))
        fun x member => bounded x (List.mem_cons_of_mem first member)
  have positive : (0 : ℚ) ≤ 2 ^ (-126 : ℤ) := by positivity
  exact max_le (kept b 0 (positive.trans floor) bounded) floor

/-- The block maximum is positive, also of a zero block. -/
theorem amax_pos (b : List ℚ) : 0 < amax b := by
  have positive : (0 : ℚ) < 2 ^ (-126 : ℤ) := by positivity
  exact positive.trans_le (le_max_right _ _)

/-- The exponent of the ceiling rule does not exceed a grid exponent of the block, and the
weights it scales stay within the maximum. -/
theorem ceiling_rule {b : List ℚ} {e : ℤ} (low : -127 ≤ e) (high : e ≤ 127)
    (grid : ∀ x ∈ b, |x| ≤ fp8Max * 2 ^ e) :
    ∃ e' : ℤ, clamp (Int.clog 2 (amax b / fp8Max)) (-127) 127 = e' ∧ -127 ≤ e' ∧ e' ≤ e ∧
      ∀ x ∈ b, |x| ≤ fp8Max * 2 ^ e' := by
  have positive : (0 : ℚ) < fp8Max := by decide +kernel
  have two : 1 < 2 := Nat.one_lt_two
  have floor : (2 : ℚ) ^ (-126 : ℤ) ≤ fp8Max * 2 ^ e := by
    have power : (2 : ℚ) ^ (-127 : ℤ) ≤ 2 ^ e := zpow_le_zpow_right₀ one_le_two low
    have half : (2 : ℚ) ^ (-126 : ℤ) = 2 * 2 ^ (-127 : ℤ) := by norm_num
    have wide : (2 : ℚ) ≤ fp8Max := by decide +kernel
    rw [half]
    exact mul_le_mul wide power (by positivity) positive.le
  have scaled : amax b / fp8Max ≤ ((2 : ℕ) : ℚ) ^ e := by
    rw [div_le_iff₀ positive, mul_comm]
    exact_mod_cast amax_le floor grid
  have below := (Int.le_zpow_iff_clog_le two (div_pos (amax_pos b) positive)).mp scaled
  have reached := Int.self_le_zpow_clog two (amax b / fp8Max)
  have chosen : clamp (Int.clog 2 (amax b / fp8Max)) (-127) 127 =
      max (Int.clog 2 (amax b / fp8Max)) (-127) := min_eq_left (by omega)
  refine ⟨_, chosen, by omega, by omega, fun x member => ?_⟩
  have raised : (2 : ℚ) ^ Int.clog 2 (amax b / fp8Max) ≤
      2 ^ max (Int.clog 2 (amax b / fp8Max)) (-127) :=
    zpow_le_zpow_right₀ one_le_two (le_max_left _ _)
  rw [div_le_iff₀ positive, mul_comm] at reached
  push_cast at reached
  exact ((le_amax b x member).trans reached).trans (mul_le_mul_of_nonneg_left raised positive.le)

/-- A weight of the grid, scaled by a smaller exponent that keeps it within the maximum, is
an e4m3 value. -/
theorem scaled_value {x q : ℚ} {e e' : ℤ} {n : ℕ} (order : e' ≤ e) (stored : x = q * 2 ^ e)
    (coded : |q| = e4m3.value n) (within : |x| ≤ fp8Max * 2 ^ e') :
    |x / 2 ^ e'| ≤ fp8Max ∧ ∃ m ≤ 126, |x / 2 ^ e'| = e4m3.value m := by
  have power : (0 : ℚ) < 2 ^ e' := by positivity
  have bounded : |x / 2 ^ e'| ≤ fp8Max := by
    rw [abs_div, abs_of_pos power, div_le_iff₀ power]
    exact within
  obtain ⟨d, difference⟩ := Int.eq_ofNat_of_zero_le (Int.sub_nonneg_of_le order)
  have shifted : x / 2 ^ e' = q * 2 ^ d := by
    rw [div_eq_iff power.ne', stored, mul_assoc, ← zpow_natCast, ← difference,
      ← zpow_add₀ two_ne_zero, Int.sub_add_cancel]
  obtain ⟨m, value⟩ := e4m3.value_shift n d
  have magnitude : |x / 2 ^ e'| = e4m3.value m := by
    rw [shifted, abs_mul, coded, value, abs_of_pos (by positivity)]
  exact ⟨bounded, m, (value_le_max m).mp (magnitude ▸ bounded), magnitude⟩

section Encoder

variable {cast : ℚ → ℚ} (nearest : CastsNearest cast)
include nearest

/-- A cast returns an e4m3 value it is given. -/
theorem cast_value {x : ℚ} (within : |x| ≤ fp8Max) (coded : ∃ m ≤ 126, |x| = e4m3.value m) :
    cast x = x := by
  obtain ⟨n, rounded⟩ := nearest x within
  obtain ⟨m, listed, stored⟩ := coded
  exact rounded.of_value listed stored

/-- The block of a grid, under the exponent of the ceiling rule, has no error: every scaled weight is
an e4m3 value already, which the cast returns as it is. The exponent may be smaller than the one the
block was made with; the codes are then larger by the same power of two. -/
theorem attempt_ceiling {b : List ℚ} (grid : OnGrid b) :
    ∃ e' : ℤ, clamp (Int.clog 2 (amax b / fp8Max)) (-127) 127 = e' ∧ -127 ≤ e' ∧ e' ≤ 127 ∧
      attempt cast b (Int.clog 2 (amax b / fp8Max)) = ⟨0, b.map (· / 2 ^ e'), e'⟩ ∧
      ∀ x ∈ b, cast (x / 2 ^ e') = x / 2 ^ e' ∧ ∃ m ≤ 126, |x / 2 ^ e'| = e4m3.value m := by
  obtain ⟨e, low, high, coded⟩ := grid
  have within : ∀ x ∈ b, |x| ≤ fp8Max * 2 ^ e := by
    intro x member
    obtain ⟨q, stored, n, small, magnitude⟩ := coded x member
    have power : (0 : ℚ) < 2 ^ e := by positivity
    rw [stored, abs_mul, abs_of_pos power, magnitude]
    exact mul_le_mul_of_nonneg_right ((value_le_max n).mpr small) power.le
  obtain ⟨e', chosen, least, order, bounded⟩ := ceiling_rule low high within
  have scaled : ∀ x ∈ b, |x / 2 ^ e'| ≤ fp8Max ∧ ∃ m ≤ 126, |x / 2 ^ e'| = e4m3.value m := by
    intro x member
    obtain ⟨q, stored, n, _, magnitude⟩ := coded x member
    exact scaled_value order stored magnitude (bounded x member)
  have casts : ∀ x ∈ b, cast (x / 2 ^ e') = x / 2 ^ e' := fun x member =>
    cast_value nearest (scaled x member).1 (scaled x member).2
  have codes : (b.map fun x => cast (clamp (x / 2 ^ e') (-fp8Max) fp8Max)) =
      b.map (· / 2 ^ e') := by
    refine List.map_congr_left fun x member => ?_
    obtain ⟨lower, upper⟩ := abs_le.mp (scaled x member).1
    rw [clamp, max_eq_left lower, min_eq_left upper, casts x member]
  refine ⟨e', chosen, least, by omega, ?_, fun x member => ⟨casts x member, (scaled x member).2⟩⟩
  rw [attempt]
  simp only [chosen, codes]
  congr 1
  refine List.sum_eq_zero fun square member => ?_
  obtain ⟨⟨q, x⟩, paired, rfl⟩ := List.mem_map.mp member
  rw [List.zip_map_left, List.mem_map] at paired
  obtain ⟨⟨x', y⟩, twice, same⟩ := paired
  obtain ⟨rfl, rfl⟩ := Prod.mk.inj same
  have equal : x' = y := by
    obtain ⟨i, inside, there⟩ := List.mem_iff_getElem.mp twice
    rw [List.getElem_zip] at there
    exact (Prod.mk.inj there).1.symm.trans (Prod.mk.inj there).2
  have power : (2 : ℚ) ^ e' ≠ 0 := by positivity
  simp only [id, equal]
  rw [div_mul_cancel₀ _ power, sub_self, zero_pow two_ne_zero]

omit nearest in
/-- An error is a sum of squares. -/
theorem attempt_err_nonneg (b : List ℚ) (e : ℤ) : 0 ≤ (attempt cast b e).err := by
  refine List.sum_nonneg fun square member => ?_
  obtain ⟨⟨q, x⟩, _, rfl⟩ := List.mem_map.mp member
  exact sq_nonneg _

/-- What is kept of a block of a grid: the weights over the power of the ceiling rule, all of them
e4m3 values, and the byte of that power. The floor rule is tried as well, but it replaces the first
attempt only where its error is lower, and no error is below zero. -/
theorem encodeBlock_grid {b : List ℚ} (grid : OnGrid b) :
    ∃ e' : ℤ, clamp (Int.clog 2 (amax b / fp8Max)) (-127) 127 = e' ∧ -127 ≤ e' ∧ e' ≤ 127 ∧
      encodeBlock cast b = (b.map (· / 2 ^ e'), BitVec.ofInt 8 (e' + 127)) ∧
      ∀ x ∈ b, ∃ m ≤ 126, |x / 2 ^ e'| = e4m3.value m := by
  obtain ⟨e', chosen, low, high, first, stored⟩ := attempt_ceiling nearest grid
  have kept : 0 ≤ (attempt cast b (Int.log 2 (amax b) - 8)).err := attempt_err_nonneg b _
  have stays : ¬ (attempt cast b (Int.log 2 (amax b) - 8)).err < 0 := not_lt.mpr kept
  refine ⟨e', chosen, low, high, ?_, fun x member => (stored x member).2⟩
  rw [encodeBlock]
  simp only [first, keepBetter, stays, decide_false, Bool.false_eq_true, if_false, List.map_map]
  refine Prod.ext (List.map_congr_left fun x member => ?_) rfl
  exact (stored x member).1

omit nearest in
/-- The byte of an exponent in range is the exponent plus 127. -/
theorem scale_byte {e' : ℤ} (low : -127 ≤ e') (high : e' ≤ 127) :
    ((BitVec.ofInt 8 (e' + 127)).toNat : ℤ) = e' + 127 := by
  rw [BitVec.toNat_ofInt]
  omega

/-- Decoding what is kept of a block of a grid gives the block back, with as many codes. -/
theorem decode_encodeBlock {b : List ℚ} (grid : OnGrid b) :
    (encodeBlock cast b).1.length = b.length ∧
      decodeBlock (encodeBlock cast b).1 (encodeBlock cast b).2 = b := by
  obtain ⟨e', _, low, high, kept, _⟩ := encodeBlock_grid nearest grid
  have power : (2 : ℚ) ^ e' ≠ 0 := by positivity
  have exponent : e' + 127 - 127 = e' := by omega
  rw [kept]
  refine ⟨List.length_map _, ?_⟩
  rw [decodeBlock, scale_byte low high, exponent, List.map_map]
  refine Eq.trans (List.map_congr_left fun x _ => ?_) (List.map_id b)
  simp only [Function.comp_apply, id]
  exact div_mul_cancel₀ x power

/-- Every code kept of a block of a grid is an e4m3 value of magnitude at most 448. -/
theorem encodeBlock_coded {b : List ℚ} (grid : OnGrid b) :
    ∀ q ∈ (encodeBlock cast b).1, ∃ n ≤ 126, |q| = e4m3.value n := by
  obtain ⟨e', _, _, _, kept, stored⟩ := encodeBlock_grid nearest grid
  rw [kept]
  intro q member
  obtain ⟨x, there, rfl⟩ := List.mem_map.mp member
  exact stored x there

/-- The byte kept of a block of a grid is the exponent of the ceiling rule plus 127. -/
theorem encodeBlock_scale {b : List ℚ} (grid : OnGrid b) :
    ((encodeBlock cast b).2.toNat : ℤ) =
      clamp (Int.clog 2 (amax b / fp8Max)) (-127) 127 + 127 := by
  obtain ⟨e', chosen, low, high, kept, _⟩ := encodeBlock_grid nearest grid
  rw [kept, chosen]
  exact scale_byte low high

/-! ### The tensor -/

omit nearest in
/-- The slices are encoded row by row: joined, they are the rows of the tensor, each encoded block by
block. -/
theorem q_mxfp8_rows (w : List (List ℚ)) {rows : ℕ} (positive : 0 < rows) :
    (q_mxfp8 cast w rows).1 =
        w.map (fun row => (((blocks row).map (encodeBlock cast)).map Prod.fst).flatten) ∧
      (q_mxfp8 cast w rows).2 =
        w.map (fun row => ((blocks row).map (encodeBlock cast)).map Prod.snd) := by
  have joined : ((List.range (Blocks.cdiv w.length rows)).map (chunk rows w)).flatten = w :=
    chunks_whole rows w _ (by
      by_contra short
      exact absurd ((Blocks.lt_cdiv _ _ _ positive).mpr (not_le.mp short)) (Nat.lt_irrefl _))
  constructor
  all_goals
    conv_rhs => rw [← joined]
    rw [q_mxfp8, List.map_flatten, List.map_map, List.map_map]
    simp only [Function.comp_def, List.map_map]

/-- A tensor whose blocks all lie on MX grids, each on its own, is decoded from its codes and scale
bytes without loss. Every code is an e4m3 value of magnitude at most 448, as the tensor of codes can
hold, and every scale byte is the exponent of the ceiling rule plus 127. -/
theorem mxfp8_lossless (w : List (List ℚ)) (rows : ℕ) (positive : 0 < rows)
    (viewed : ∀ row ∈ w, 32 ∣ row.length) (grid : ∀ row ∈ w, ∀ b ∈ blocks row, OnGrid b) :
    dq_mxfp8 (q_mxfp8 cast w rows).1 (q_mxfp8 cast w rows).2 = w ∧
      (∀ row ∈ (q_mxfp8 cast w rows).1, ∀ q ∈ row, ∃ n ≤ 126, |q| = e4m3.value n) ∧
      ((q_mxfp8 cast w rows).2.map fun row => row.map fun s => (s.toNat : ℤ)) =
        w.map fun row => (blocks row).map fun b =>
          clamp (Int.clog 2 (amax b / fp8Max)) (-127) 127 + 127 := by
  obtain ⟨codes, scales⟩ := @q_mxfp8_rows cast w rows positive
  refine ⟨?_, ?_, ?_⟩
  · rw [dq_mxfp8, codes, scales, List.zip_map', List.map_map]
    refine Eq.trans (List.map_congr_left fun row member => ?_) (List.map_id w)
    have apart : (blocks row).flatten = row :=
      chunks_whole 32 row _ (Nat.div_mul_cancel (viewed row member)).ge
    have width : ∀ b ∈ blocks row, b.length = 32 := by
      intro b listed
      obtain ⟨i, inside, rfl⟩ := List.mem_map.mp listed
      have bound := List.mem_range.mp inside
      have whole := Nat.div_mul_cancel (viewed row member)
      rw [chunk, List.length_take, List.length_drop]
      have room := Nat.mul_le_mul_right 32 (Nat.succ_le_of_lt bound)
      rw [whole, Nat.succ_mul] at room
      omega
    have recovered : blocks (((blocks row).map (encodeBlock cast)).map Prod.fst).flatten =
        ((blocks row).map (encodeBlock cast)).map Prod.fst := by
      refine chunks_of_flatten 32 (by decide) _ fun part listed => ?_
      rw [List.map_map] at listed
      obtain ⟨b, there, rfl⟩ := List.mem_map.mp listed
      exact (decode_encodeBlock nearest (grid row member b there)).1.trans (width b there)
    simp only [Function.comp_apply, id]
    rw [recovered, List.zip_map', List.map_map, List.map_map]
    refine Eq.trans (congrArg List.flatten ?_) apart
    refine Eq.trans (List.map_congr_left fun b listed => ?_) (List.map_id _)
    exact (decode_encodeBlock nearest (grid row member b listed)).2
  · rw [codes]
    intro coded listed q member
    obtain ⟨row, there, rfl⟩ := List.mem_map.mp listed
    rw [List.map_map, List.mem_flatten] at member
    obtain ⟨part, made, inside⟩ := member
    obtain ⟨b, cut, rfl⟩ := List.mem_map.mp made
    exact encodeBlock_coded nearest (grid row there b cut) q inside
  · rw [scales, List.map_map]
    refine List.map_congr_left fun row member => ?_
    rw [Function.comp_apply, List.map_map, List.map_map]
    exact List.map_congr_left fun b listed => encodeBlock_scale nearest (grid row member b listed)

end Encoder

/-- Rounding as `fpfmt.py` does is such a cast. -/
theorem round_castsNearest : CastsNearest fun x => (e4m3Round x).getD 0 := by
  intro x within
  obtain ⟨n, y, nearest, signed, rounded⟩ := round_nearest x
  have largest : e4m3.value 126 = fp8Max := by decide +kernel
  have small : n ≤ 126 := by
    by_contra large
    have order := e4m3.value_strictMono (not_le.mp large)
    obtain ⟨plus, minus⟩ := nearest.closest 126 trivial
    rw [largest] at plus minus order
    have nonneg := e4m3.value_nonneg n
    rcases abs_cases x with ⟨same, sign⟩ | ⟨same, sign⟩
    · rw [signed, if_neg (not_lt.mpr sign), abs_of_nonpos (by linarith),
        abs_of_nonpos (by linarith)] at plus
      linarith
    · rw [signed, if_pos sign, abs_of_nonneg (by linarith), abs_of_nonneg (by linarith)] at minus
      linarith
  refine ⟨n, ?_⟩
  dsimp only
  rw [rounded, if_neg (not_lt.mpr ((value_le_max n).mpr small)), Option.getD_some]
  exact ⟨small, nearest.signed, fun m _ => nearest.closest m trivial,
    fun m _ => nearest.even m trivial⟩

/-- A block with the largest code and the least negative one, at the exponent three, in a row behind
a block of zeros, which gets the least exponent. -/
def extremes : List ℚ := List.replicate 32 0 ++ 3584 :: List.replicate 31 (-1 / 64)

/-- `mxfp8_lossless` of two such rows, encoded one row at a time. The bytes are those of the least
exponent and of the exponent three. -/
theorem mxfp8_lossless_extremes :
    dq_mxfp8 (q_mxfp8 (fun x => (e4m3Round x).getD 0) [extremes, extremes] 1).1
        (q_mxfp8 (fun x => (e4m3Round x).getD 0) [extremes, extremes] 1).2 =
          [extremes, extremes] ∧
      (∀ row ∈ (q_mxfp8 (fun x => (e4m3Round x).getD 0) [extremes, extremes] 1).1,
        ∀ q ∈ row, ∃ n ≤ 126, |q| = e4m3.value n) ∧
      ((q_mxfp8 (fun x => (e4m3Round x).getD 0) [extremes, extremes] 1).2.map
        fun row => row.map fun s => (s.toNat : ℤ)) =
          [extremes, extremes].map fun row => (blocks row).map fun b =>
            clamp (Int.clog 2 (amax b / fp8Max)) (-127) 127 + 127 := by
  refine mxfp8_lossless round_castsNearest _ 1 (by decide) ?_ ?_
  · intro row member
    obtain rfl : row = extremes := by simpa using member
    exact ⟨2, rfl⟩
  · intro row member b listed
    obtain rfl : row = extremes := by simpa using member
    have whole : blocks extremes = [List.replicate 32 0, 3584 :: List.replicate 31 (-1 / 64)] := by
      decide +kernel
    rw [whole, List.mem_cons, List.mem_singleton] at listed
    obtain rfl | rfl := listed
    · refine ⟨0, by decide, by decide, fun x present => ?_⟩
      obtain rfl := List.eq_of_mem_replicate present
      exact ⟨0, by norm_num, 0, by decide, by decide +kernel⟩
    · refine ⟨3, by decide, by decide, fun x present => ?_⟩
      obtain rfl | rest := List.mem_cons.mp present
      · exact ⟨448, by norm_num, 126, by decide, by decide +kernel⟩
      · obtain rfl := List.eq_of_mem_replicate rest
        exact ⟨-1 / 512, by norm_num, 1, by decide, by decide +kernel⟩

end GlmSpark.QuantMix
