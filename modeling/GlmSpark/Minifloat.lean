import Mathlib.Data.Int.Log
import Mathlib.Data.Rat.Floor
import Mathlib.Algebra.Order.Field.Power
import Mathlib.Order.Monotone.Basic
import Mathlib.Tactic.Linarith
import Mathlib.Tactic.NormNum
import Mathlib.Tactic.Ring
import Mathlib.Tactic.Positivity
import Mathlib.Tactic.FieldSimp

/-!
# Small binary floating-point formats

A format has some mantissa bits and a least quantum. Its nonnegative values are numbered
by codes: subnormals first, then binade after binade, without an upper end. Rounding to
the nearest value scales by the quantum of the binade, rounds to an integer with ties to
even, and scales back; a carry into the next binade lands on that binade's first code.

The lattice is that of exact rationals. An upper end, a sign and a layout of bits belong
to the formats that use it.
-/

namespace GlmSpark.Minifloat

/-- Round to an integer, ties to even. -/
def rint (x : ℚ) : ℤ :=
  let low := ⌊x⌋
  if x - low < 1 / 2 then low
  else if 1 / 2 < x - low then low + 1
  else if low % 2 = 0 then low else low + 1

/-- The result is within a half, and even where it is a half away. -/
theorem rint_spec (x : ℚ) :
    2 * (rint x : ℚ) - 1 ≤ 2 * x ∧ 2 * x ≤ 2 * rint x + 1 ∧
      (2 * x = 2 * (rint x : ℚ) - 1 ∨ 2 * x = 2 * rint x + 1 → rint x % 2 = 0) := by
  have low := Int.floor_le x
  have high := Int.lt_floor_add_one x
  rw [rint]
  split
  next below =>
    refine ⟨by linarith, by linarith, fun tie => ?_⟩
    rcases tie with tie | tie <;> linarith
  next reached =>
    split
    next above =>
      push_cast
      refine ⟨by linarith, by linarith, fun tie => ?_⟩
      rcases tie with tie | tie <;> linarith
    next half =>
      split
      next even => exact ⟨by linarith, by linarith, fun _ => even⟩
      next odd =>
        push_cast
        exact ⟨by linarith, by linarith, fun _ => by omega⟩

/-- Integers round to themselves. -/
theorem rint_intCast (k : ℤ) : rint k = k := by
  rw [rint, Int.floor_intCast, if_pos (by norm_num)]

/-- Rounding to an integer keeps integer bounds, since the bounds round to themselves and rounding
is monotone. -/
theorem rint_bounds {x : ℚ} {low high : ℤ} (above : (low : ℚ) ≤ x) (below : x ≤ high) :
    low ≤ rint x ∧ rint x ≤ high := by
  obtain ⟨lower, upper, _⟩ := rint_spec x
  constructor
  · have bound : (low : ℚ) < rint x + 1 := by linarith
    exact_mod_cast Int.lt_add_one_iff.mp (by exact_mod_cast bound)
  · have bound : (rint x : ℚ) < high + 1 := by linarith
    exact_mod_cast Int.lt_add_one_iff.mp (by exact_mod_cast bound)

/-- A format: mantissa bits and the exponent of the least quantum. -/
structure Format where
  mantissa : ℕ
  quantum : ℤ
  precise : 1 ≤ mantissa

namespace Format

variable (format : Format)

/-- The value of a code: its mantissa scaled by its exponent, with subnormals at the bottom. -/
def value (n : ℕ) : ℚ :=
  if n / 2 ^ format.mantissa = 0 then (n % 2 ^ format.mantissa : ℕ) * 2 ^ format.quantum
  else (2 ^ format.mantissa + n % 2 ^ format.mantissa : ℕ) *
    2 ^ (format.quantum + (n / 2 ^ format.mantissa : ℕ) - 1)

/-- A code of binade `j` counts the quanta of the binade, up to the carry into the next one. -/
theorem value_code (j k : ℕ) (top : k ≤ 2 ^ (format.mantissa + 1))
    (normal : j = 0 ∨ 2 ^ format.mantissa ≤ k) :
    format.value (j * 2 ^ format.mantissa + k) = k * 2 ^ (format.quantum + j) := by
  have positive : 0 < 2 ^ format.mantissa := Nat.two_pow_pos _
  have double : 2 ^ (format.mantissa + 1) = 2 * 2 ^ format.mantissa := by rw [Nat.pow_succ]; ring
  obtain small | large := Nat.lt_or_ge k (2 ^ format.mantissa)
  · obtain rfl : j = 0 := normal.resolve_right (Nat.not_le.mpr small)
    rw [value, Nat.zero_mul, Nat.zero_add, Nat.div_eq_of_lt small, if_pos rfl, Nat.mod_eq_of_lt small,
      Nat.cast_zero, add_zero]
  obtain inside | carry := Nat.lt_or_ge k (2 ^ (format.mantissa + 1))
  · have quotient : (j * 2 ^ format.mantissa + k) / 2 ^ format.mantissa = j + 1 := by
      rw [Nat.div_eq_iff positive]
      constructor
      · rw [Nat.add_mul]; omega
      · rw [Nat.add_mul]; omega
    have remainder : (j * 2 ^ format.mantissa + k) % 2 ^ format.mantissa =
        k - 2 ^ format.mantissa := by
      rw [Nat.mod_eq_sub_mul_div, quotient, Nat.mul_add, Nat.mul_comm j]
      omega
    rw [value, quotient, remainder, if_neg (Nat.succ_ne_zero j), Nat.add_sub_cancel' large]
    congr 2
    push_cast
    ring
  · obtain rfl : k = 2 ^ (format.mantissa + 1) := le_antisymm top carry
    have whole : j * 2 ^ format.mantissa + 2 ^ (format.mantissa + 1) =
        (j + 2) * 2 ^ format.mantissa := by rw [double]; ring
    rw [value, whole, Nat.mul_div_cancel _ positive, Nat.mul_mod_left, if_neg (by omega), double]
    have exponent : format.quantum + ((j + 2 : ℕ) : ℤ) - 1 = format.quantum + j + 1 := by
      push_cast
      ring
    rw [exponent, zpow_add_one₀ two_ne_zero]
    push_cast
    ring

/-- Every code is one of a binade, not at its carry. -/
theorem code_cases (n : ℕ) : ∃ j k, n = j * 2 ^ format.mantissa + k ∧
    k < 2 ^ (format.mantissa + 1) ∧ (j = 0 ∨ 2 ^ format.mantissa ≤ k) := by
  have positive : 0 < 2 ^ format.mantissa := Nat.two_pow_pos _
  have double : 2 ^ (format.mantissa + 1) = 2 * 2 ^ format.mantissa := by rw [Nat.pow_succ]; ring
  have parts := Nat.div_add_mod n (2 ^ format.mantissa)
  have small := Nat.mod_lt n positive
  cases binade : n / 2 ^ format.mantissa with
  | zero =>
    rw [binade, Nat.mul_zero, Nat.zero_add] at parts
    exact ⟨0, n, by omega, by omega, Or.inl rfl⟩
  | succ j =>
    rw [binade, Nat.mul_add, Nat.mul_one, Nat.mul_comm] at parts
    exact ⟨j, 2 ^ format.mantissa + n % 2 ^ format.mantissa, by omega, by omega,
      Or.inr (by omega)⟩

/-- Values increase with their codes, across subnormals and from one binade to the next. So codes
are compared instead of values. -/
theorem value_strictMono : StrictMono format.value := by
  refine strictMono_nat_of_lt_succ fun n => ?_
  obtain ⟨j, k, rfl, below, normal⟩ := format.code_cases n
  have quantum : (0 : ℚ) < 2 ^ (format.quantum + j) := by positivity
  rw [format.value_code j k below.le normal, Nat.add_assoc,
    format.value_code j (k + 1) below (normal.imp_right fun reached => reached.trans (Nat.le_succ k))]
  push_cast
  linarith

/-- The first code is zero, in every format. -/
theorem value_zero : format.value 0 = 0 := by
  have read := format.value_code 0 0 (Nat.zero_le _) (Or.inl rfl)
  rwa [Nat.zero_mul, Nat.cast_zero, zero_mul] at read

/-- No value is negative; the sign is a bit of its own. -/
theorem value_nonneg (n : ℕ) : 0 ≤ format.value n := by
  rw [← format.value_zero]
  exact format.value_strictMono.monotone (Nat.zero_le n)

/-- Twice a value is again a value of the unbounded format: a normal code moves up one binade, a
subnormal one doubles. -/
theorem value_double (n : ℕ) : ∃ m, format.value m = 2 * format.value n := by
  have double : 2 ^ (format.mantissa + 1) = 2 * 2 ^ format.mantissa := by rw [Nat.pow_succ]; ring
  obtain ⟨j, k, rfl, below, normal⟩ := format.code_cases n
  rw [format.value_code j k below.le normal]
  obtain small | large := Nat.lt_or_ge k (2 ^ format.mantissa)
  · obtain rfl : j = 0 := normal.resolve_right (Nat.not_le.mpr small)
    refine ⟨0 * 2 ^ format.mantissa + 2 * k, ?_⟩
    rw [format.value_code 0 (2 * k) (by omega) (Or.inl rfl)]
    push_cast
    ring
  · refine ⟨(j + 1) * 2 ^ format.mantissa + k, ?_⟩
    rw [format.value_code (j + 1) k below.le (Or.inr large)]
    have exponent : format.quantum + ((j + 1 : ℕ) : ℤ) = format.quantum + j + 1 := by
      push_cast
      ring
    rw [exponent, zpow_add_one₀ two_ne_zero]
    ring

/-- A value shifted by binades is a value. -/
theorem value_shift (n i : ℕ) : ∃ m, format.value m = format.value n * 2 ^ i := by
  induction i with
  | zero => exact ⟨n, by rw [pow_zero, mul_one]⟩
  | succ i hypothesis =>
    obtain ⟨m, shifted⟩ := hypothesis
    obtain ⟨m', doubled⟩ := format.value_double m
    exact ⟨m', by rw [doubled, shifted, pow_succ]; ring⟩

/-! ### The nearest value -/

/-- A result is the value of a code, under the sign of the input, nearest among some codes;
the code is even where another one is as near. -/
structure NearestEven (codes : Set ℕ) (x : ℚ) (n : ℕ) (result : ℚ) : Prop where
  listed : n ∈ codes
  signed : result = if x < 0 then -format.value n else format.value n
  closest : ∀ m ∈ codes, |x - result| ≤ |x - format.value m| ∧ |x - result| ≤ |x + format.value m|
  even : ∀ m ∈ codes, m ≠ n →
    |x - result| = |x - format.value m| ∨ |x - result| = |x + format.value m| → n % 2 = 0

/-- Beyond the midpoint of two values the larger one is nearer. -/
theorem nearer_above {a u v : ℚ} (order : u < v) (beyond : u + v ≤ 2 * a) :
    |a - v| ≤ |a - u| ∧ (|a - v| = |a - u| → u + v = 2 * a) := by
  have positive : 0 ≤ a - u := by linarith
  rw [abs_of_nonneg positive]
  constructor
  · rw [abs_le]
    constructor <;> linarith
  · intro tie
    rcases abs_cases (a - v) with ⟨same, _⟩ | ⟨opposite, _⟩ <;> linarith

/-- Before the midpoint of two values the smaller one is nearer. -/
theorem nearer_below {a u v : ℚ} (order : u < v) (before : 2 * a ≤ u + v) :
    |a - u| ≤ |a - v| ∧ (|a - u| = |a - v| → u + v = 2 * a) := by
  have negative : a - v ≤ 0 := by linarith
  rw [abs_of_nonpos negative]
  constructor
  · rw [abs_le]
    constructor <;> linarith
  · intro tie
    rcases abs_cases (a - u) with ⟨same, _⟩ | ⟨opposite, _⟩ <;> linarith

/-- A code whose midpoints to both neighbours enclose the input is nearest. -/
structure Enclosed (codes : Set ℕ) (a : ℚ) (n : ℕ) : Prop where
  listed : n ∈ codes
  low : n = 0 ∨ format.value (n - 1) + format.value n < 2 * a ∨
    format.value (n - 1) + format.value n = 2 * a ∧ n % 2 = 0
  high : (∀ m ∈ codes, m ≤ n) ∨ 2 * a < format.value n + format.value (n + 1) ∨
    2 * a = format.value n + format.value (n + 1) ∧ n % 2 = 0

variable {format}

/-- No listed code is nearer than an enclosed one, and a tie is at an even code. -/
theorem Enclosed.nearest {codes : Set ℕ} {a : ℚ} {n : ℕ} (enclosed : format.Enclosed codes a n)
    {m : ℕ} (listed : m ∈ codes) :
    |a - format.value n| ≤ |a - format.value m| ∧
      (m ≠ n → |a - format.value n| = |a - format.value m| → n % 2 = 0) := by
  obtain below | rfl | above := Nat.lt_trichotomy m n
  · have order := format.value_strictMono below
    have neighbour : format.value m ≤ format.value (n - 1) :=
      format.value_strictMono.monotone (by omega)
    rcases enclosed.low with zero | strict | ⟨tie, even⟩
    · omega
    · obtain ⟨nearer, same⟩ := nearer_above order (by linarith : _ ≤ 2 * a)
      exact ⟨nearer, fun _ equal => by have := same equal; linarith⟩
    · exact ⟨(nearer_above order (by linarith : _ ≤ 2 * a)).1, fun _ _ => even⟩
  · exact ⟨le_rfl, fun different => absurd rfl different⟩
  · have order := format.value_strictMono above
    have neighbour : format.value (n + 1) ≤ format.value m :=
      format.value_strictMono.monotone above
    rcases enclosed.high with last | strict | ⟨tie, even⟩
    · exact absurd (last m listed) (Nat.not_le.mpr above)
    · obtain ⟨nearer, same⟩ := nearer_below order (by linarith : 2 * a ≤ _)
      exact ⟨nearer, fun _ equal => by have := same equal; linarith⟩
    · exact ⟨(nearer_below order (by linarith : 2 * a ≤ _)).1, fun _ _ => even⟩

/-- A code enclosing the magnitude is nearest under the sign of the input. -/
theorem Enclosed.nearestEven {codes : Set ℕ} {x : ℚ} {n : ℕ}
    (enclosed : format.Enclosed codes |x| n) :
    format.NearestEven codes x n (if x < 0 then -format.value n else format.value n) := by
  -- the distances to the values of the other sign are no shorter
  have distance : |x - (if x < 0 then -format.value n else format.value n)| =
      |(|x| - format.value n)| := by
    split
    next negative => rw [abs_of_neg negative, ← abs_neg]; congr 1; ring
    next nonnegative => rw [abs_of_nonneg (not_lt.mp nonnegative)]
  have sides : ∀ m, (|x - format.value m| = |(|x| - format.value m)| ∨
      |x - format.value m| = |x| + format.value m) ∧
      (|x + format.value m| = |(|x| - format.value m)| ∨
      |x + format.value m| = |x| + format.value m) := by
    intro m
    have nonneg := format.value_nonneg m
    rcases abs_cases x with ⟨same, sign⟩ | ⟨same, sign⟩
    · rw [same]
      exact ⟨Or.inl rfl, Or.inr (abs_of_nonneg (by linarith))⟩
    · rw [same]
      refine ⟨Or.inr ?_, Or.inl ?_⟩
      · rw [abs_of_nonpos (by linarith)]; ring
      · rw [← abs_neg]; congr 1; ring
  have wider : ∀ m, |(|x| - format.value m)| ≤ |x| + format.value m := fun m => by
    have nonneg := format.value_nonneg m
    have magnitude := abs_nonneg x
    rw [abs_le]
    constructor <;> linarith
  refine ⟨enclosed.listed, rfl, fun m listed => ?_, fun m listed different tie => ?_⟩
  · rw [distance]
    have nearer := (enclosed.nearest listed).1
    have bound := wider m
    obtain ⟨left, right⟩ := sides m
    constructor
    · rcases left with read | read <;> linarith
    · rcases right with read | read <;> linarith
  · rw [distance] at tie
    obtain ⟨nearer, even⟩ := enclosed.nearest listed
    have bound := wider m
    obtain ⟨left, right⟩ := sides m
    refine even different (le_antisymm nearer ?_)
    rcases tie with tie | tie
    · rcases left with read | read <;> linarith
    · rcases right with read | read <;> linarith

/-- A listed value is its own nearest value. -/
theorem NearestEven.of_value {codes : Set ℕ} {x result : ℚ} {n m : ℕ}
    (nearest : format.NearestEven codes x n result) (listed : m ∈ codes)
    (stored : |x| = format.value m) : result = x := by
  obtain ⟨plus, minus⟩ := nearest.closest m listed
  have exact : |x - result| ≤ 0 := by
    rcases abs_cases x with ⟨same, _⟩ | ⟨same, _⟩
    · rwa [← stored, same, sub_self, abs_zero] at plus
    · rwa [← stored, same, add_neg_cancel, abs_zero] at minus
  exact (sub_eq_zero.mp (abs_nonpos_iff.mp exact)).symm

variable (format)

/-! ### Rounding through an integer -/

/-- A magnitude lies in the binade `j`, up to the carry into the next one. -/
structure InBinade (a : ℚ) (j : ℕ) : Prop where
  nonneg : 0 ≤ a
  below : a ≤ 2 ^ (format.mantissa + 1) * 2 ^ (format.quantum + j)
  above : j = 0 ∨ 2 ^ format.mantissa * 2 ^ (format.quantum + j) ≤ a

/-- The code rounding a magnitude in a binade reaches. -/
def code (a : ℚ) (j : ℕ) : ℕ :=
  j * 2 ^ format.mantissa + (rint (a / 2 ^ (format.quantum + j))).toNat

variable {format}

/-- The integer of the rounding counts the quanta of the binade. -/
theorem InBinade.count {a : ℚ} {j : ℕ} (binade : format.InBinade a j) :
    ∃ k : ℕ, rint (a / 2 ^ (format.quantum + j)) = k ∧ k ≤ 2 ^ (format.mantissa + 1) ∧
      (j = 0 ∨ 2 ^ format.mantissa ≤ k) := by
  have quantum : (0 : ℚ) < 2 ^ (format.quantum + j) := by positivity
  have floor : ((0 : ℤ) : ℚ) ≤ a / 2 ^ (format.quantum + j) := by
    rw [Int.cast_zero]
    exact div_nonneg binade.nonneg quantum.le
  have ceiling : a / 2 ^ (format.quantum + j) ≤ ((2 ^ (format.mantissa + 1) : ℤ) : ℚ) := by
    rw [div_le_iff₀ quantum]
    push_cast
    exact binade.below
  obtain ⟨nonneg, top⟩ := rint_bounds floor ceiling
  obtain ⟨k, counted⟩ := Int.eq_ofNat_of_zero_le nonneg
  refine ⟨k, counted, ?_, binade.above.imp_right fun reached => ?_⟩
  · rw [counted] at top
    exact_mod_cast top
  · have least : ((2 ^ format.mantissa : ℤ) : ℚ) ≤ a / 2 ^ (format.quantum + j) := by
      rw [le_div_iff₀ quantum]
      push_cast
      exact reached
    have kept := (rint_bounds least ceiling).1
    rw [counted] at kept
    exact_mod_cast kept

/-- Scaling the integer back gives the value of the code. -/
theorem InBinade.value_code {a : ℚ} {j : ℕ} (binade : format.InBinade a j) :
    format.value (format.code a j) =
      rint (a / 2 ^ (format.quantum + j)) * 2 ^ (format.quantum + j) := by
  obtain ⟨k, counted, top, normal⟩ := binade.count
  rw [code, counted, Int.toNat_natCast, format.value_code j k top normal, Int.cast_natCast]

/-- Rounding through the integer of the binade reaches the nearest code, ties to even. -/
theorem InBinade.enclosed {a : ℚ} {j : ℕ} (binade : format.InBinade a j) :
    format.Enclosed Set.univ a (format.code a j) := by
  obtain ⟨k, counted, top, normal⟩ := binade.count
  have quantum : (0 : ℚ) < 2 ^ (format.quantum + j) := by positivity
  have scaled : a / 2 ^ (format.quantum + j) * 2 ^ (format.quantum + j) = a :=
    div_mul_cancel₀ a quantum.ne'
  obtain ⟨lower, upper, tied⟩ := rint_spec (a / 2 ^ (format.quantum + j))
  rw [counted, Int.cast_natCast] at lower upper tied
  have below : (2 * k - 1) * 2 ^ (format.quantum + j) ≤ 2 * a := by
    have multiplied := mul_le_mul_of_nonneg_right lower quantum.le
    linarith
  have above : 2 * a ≤ (2 * k + 1) * 2 ^ (format.quantum + j) := by
    have multiplied := mul_le_mul_of_nonneg_right upper quantum.le
    linarith
  have half : 2 * a = (2 * k - 1) * 2 ^ (format.quantum + j) ∨
      2 * a = (2 * k + 1) * 2 ^ (format.quantum + j) → k % 2 = 0 := by
    intro tie
    have even := tied (tie.imp (fun same => mul_right_cancel₀ quantum.ne' (by linarith))
      fun same => mul_right_cancel₀ quantum.ne' (by linarith))
    omega
  -- a binade holds an even number of codes, so a code is as even as its count
  have parity : (j * 2 ^ format.mantissa + k) % 2 = k % 2 := by
    obtain ⟨bits, more⟩ := Nat.exists_eq_add_of_le' format.precise
    rw [more, Nat.pow_succ, ← Nat.mul_assoc, Nat.mul_comm, Nat.mul_add_mod]
  have value := format.value_code j k top normal
  rw [code, counted, Int.toNat_natCast]
  refine ⟨trivial, ?_, Or.inr ?_⟩
  · obtain zero | positive := Nat.eq_zero_or_pos (j * 2 ^ format.mantissa + k)
    · exact Or.inl zero
    refine Or.inr ?_
    rw [value, parity]
    by_cases inside : 1 ≤ k ∧ (j = 0 ∨ 2 ^ format.mantissa ≤ k - 1)
    · have previous := format.value_code j (k - 1) (by omega) inside.2
      rw [Nat.add_sub_assoc inside.1, previous, Nat.cast_sub inside.1, Nat.cast_one]
      rcases lt_or_eq_of_le below with strict | tie
      · exact Or.inl (by linarith)
      · exact Or.inr ⟨by linarith, half (Or.inl tie.symm)⟩
    · -- the first code of a binade: its predecessor is of a smaller quantum
      have first : j ≠ 0 ∧ k = 2 ^ format.mantissa := by
        have least := Nat.two_pow_pos format.mantissa
        by_cases zero : j = 0
        · subst zero
          omega
        · have reached := normal.resolve_left zero
          omega
      have order := format.value_strictMono (Nat.sub_lt positive Nat.one_pos)
      have reached := binade.above.resolve_left first.1
      rw [value, first.2] at order
      rw [first.2]
      push_cast at order ⊢
      exact Or.inl (by linarith)
  · rw [value, parity]
    obtain inside | carry := Nat.lt_or_ge k (2 ^ (format.mantissa + 1))
    · have next := format.value_code j (k + 1) inside
        (normal.imp_right fun reached => reached.trans (Nat.le_succ k))
      rw [Nat.add_assoc, next]
      push_cast
      rcases lt_or_eq_of_le above with strict | tie
      · exact Or.inl (by linarith)
      · exact Or.inr ⟨by linarith, half (Or.inr tie)⟩
    · -- the carry: the magnitude does not exceed the code's value
      have order := format.value_strictMono (Nat.lt_succ_self (j * 2 ^ format.mantissa + k))
      have least := binade.below
      obtain rfl : k = 2 ^ (format.mantissa + 1) := le_antisymm top carry
      rw [value] at order
      push_cast at order ⊢
      exact Or.inl (by linarith)

end Format

end GlmSpark.Minifloat
