import GlmSpark.ExtendedNumber
import Mathlib.Analysis.Real.Sqrt
import Mathlib.Order.Interval.Set.Basic
import Mathlib.Tactic.Linarith
import Mathlib.Tactic.NormNum
import Mathlib.Tactic.Positivity
import Mathlib.Tactic.Ring

/-!
# The bound of the certified head

The screen of the target head scores a one-byte copy of the weights. `cert_math` bounds
how far such a score is from the stock one: the copies differ by residuals whose norms
are tabled for every group of columns, and both sums are accumulated with an error.

Everything is over the reals. The tables are rounded upwards by some function, and the
formula of the bound may meet an infinity of the table.
-/

namespace GlmSpark.CertBound

open ExtendedNumber Finset

noncomputable section

/-- `INFL_X`, `INFL_Q`, `INFL_B`, the factor of the tables, `SLOP_REL` and `SLOP_ABS`. -/
structure Inflation where
  x : ℝ
  q : ℝ
  b : ℝ
  table : ℝ
  slopRel : ℝ
  slopAbs : ℝ
  grows : 1 ≤ x ∧ 1 ≤ q ∧ 1 ≤ b ∧ 1 ≤ table
  slop : 0 < slopRel ∧ 0 ≤ slopAbs

/-- The constants of the source by which norms, tables and bounds are raised against rounding. -/
def inflation : Inflation where
  x := 1 + 2 ^ (-16 : ℤ)
  q := 1 + 2 ^ (-18 : ℤ)
  b := 1 + 2 ^ (-20 : ℤ)
  table := 1 + 2 ^ (-40 : ℤ)
  slopRel := 2 ^ (-22 : ℤ)
  slopAbs := 2 ^ (-126 : ℤ)
  grows := by refine ⟨?_, ?_, ?_, ?_⟩ <;> norm_num
  slop := by constructor <;> positivity

/-- `c_acc`: what accumulation in `float32` may add to a dot product of so many terms, relative to
the norms. -/
def cAcc (K : ℕ) : ℝ := K / 16 * 17 * 2 ^ (-23 : ℤ)

/-- The Euclidean norm of the first entries. -/
def norm (n : ℕ) (row : ℕ → ℝ) : ℝ := √(∑ k ∈ range n, row k ^ 2)

/-- The exact dot product. -/
def dot (K : ℕ) (x row : ℕ → ℝ) : ℝ := ∑ k ∈ range K, x k * row k

/-- A group of a row: `reshape(.., K // G, G)[.., g]`. -/
def group (G g : ℕ) (row : ℕ → ℝ) (j : ℕ) : ℝ := row (g * G + j)

/-- What `build_tables` returns: the rounded norms of the residual by group, those of the rows, and
the rows that are not rebuilt exactly. -/
structure Tables where
  rt : ℕ → ℕ → EReal
  nv : ℕ → EReal
  inexact : ℕ → Prop

/-- A row that the kernel does not rebuild exactly; `bf16` is the rounding of a copied value. -/
def Inexact (bf16 : ℝ → ℝ) (K : ℕ) (D : ℕ → ℕ → ℝ) (v : ℕ) : Prop := ∃ k < K, bf16 (D v k) ≠ D v k

open Classical in
/-- `build_tables`; `up` is `round_up_f32`. -/
def buildTables (infl : Inflation) (up : ℝ → EReal) (bf16 : ℝ → ℝ) (K G : ℕ) (W D : ℕ → ℕ → ℝ) :
    Tables where
  rt g v := if Inexact bf16 K D v then ⊤
    else up (norm G (group G g fun k => W v k - D v k) * infl.table)
  nv v := up (max (norm K (W v)) (norm K (D v)) * infl.table)
  inexact := Inexact bf16 K D

/-- `xg` of `x_norms`: the raised norm of one group of the activations. -/
def xGroup (infl : Inflation) (G : ℕ) (x : ℕ → ℝ) (g : ℕ) : ℝ := norm G (group G g x) * infl.x

/-- `xn` of `x_norms`: the raised norm of the raised group norms. -/
def xNorm (infl : Inflation) (K G : ℕ) (x : ℕ → ℝ) : ℝ :=
  norm (K / G) (xGroup infl G x) * infl.x

/-- `Q`: the product of the group norms. -/
def residual (infl : Inflation) (tables : Tables) (K G : ℕ) (x : ℕ → ℝ) (v : ℕ) : Number :=
  Number.sumTo (K / G) fun g => .val (xGroup infl G x g) * .val (tables.rt g v)

/-- `bounds` for one row and one id. -/
def bounds (infl : Inflation) (tables : Tables) (K G : ℕ) (x : ℕ → ℝ) (v : ℕ) : EReal :=
  ((residual infl tables K G x v * .val infl.q +
    .val (2 * cAcc K * xNorm infl K G x : ℝ) * .val (tables.nv v)) * .val infl.b).orTop

/-- The bound of the screen kernel: the accumulation constant comes last. -/
def kernelBound (infl : Inflation) (tables : Tables) (K G : ℕ) (x : ℕ → ℝ) (v : ℕ) : EReal :=
  ((residual infl tables K G x v * .val infl.q +
    .val (2 * cAcc K : ℝ) * (.val (xNorm infl K G x) * .val (tables.nv v))) * .val infl.b).orTop

/-- `interval`: the rounded ends around a screen score. -/
def interval (infl : Inflation) (rounded : EReal → EReal) (screen : ℝ) (B : EReal) : EReal × EReal :=
  let slop := ((|screen| : ℝ) + B) * infl.slopRel + infl.slopAbs
  (rounded (screen - B - slop), rounded (screen + B + slop))

section Norms

/-- Norms are not negative, so bounds made of them may be scaled. -/
theorem norm_nonneg (n : ℕ) (row : ℕ → ℝ) : 0 ≤ norm n row := Real.sqrt_nonneg _

/-- The square of a norm is the sum of squares, the form in which errors are bounded entry by entry.
-/
theorem norm_sq (n : ℕ) (row : ℕ → ℝ) : norm n row ^ 2 = ∑ k ∈ range n, row k ^ 2 :=
  Real.sq_sqrt (sum_nonneg fun _ _ => sq_nonneg _)

/-- A row whose entries are larger in absolute value has a larger norm. So the bound may be computed
from upper bounds of the entries. -/
theorem norm_mono {n : ℕ} {row other : ℕ → ℝ} (below : ∀ k < n, |row k| ≤ |other k|) :
    norm n row ≤ norm n other :=
  Real.sqrt_le_sqrt (sum_le_sum fun k inside => sq_le_sq.mpr (below k (mem_range.mp inside)))

/-- The Cauchy-Schwarz inequality for the first entries of two rows: the error of a dot product is
at most the product of two norms. -/
theorem abs_dot_le (n : ℕ) (row other : ℕ → ℝ) :
    |∑ k ∈ range n, row k * other k| ≤ norm n row * norm n other := by
  have upper := Real.sum_mul_le_sqrt_mul_sqrt (range n) row other
  have lower := Real.sum_mul_le_sqrt_mul_sqrt (range n) (fun k => -row k) other
  simp only [neg_mul, sum_neg_distrib, neg_sq] at lower
  exact abs_le.mpr ⟨by rw [norm, norm]; linarith, upper⟩

/-- A sum over whole groups, group by group. -/
theorem sum_groups (groups G : ℕ) (f : ℕ → ℝ) :
    ∑ k ∈ range (groups * G), f k = ∑ g ∈ range groups, ∑ j ∈ range G, f (g * G + j) := by
  induction groups with
  | zero => rw [Nat.zero_mul, range_zero, sum_empty, sum_empty]
  | succ groups ih => rw [Nat.succ_mul, sum_range_add, ih, sum_range_succ]

/-- The norm of the group norms is the norm. -/
theorem norm_groups (groups G : ℕ) (row : ℕ → ℝ) :
    norm groups (fun g => norm G (group G g row)) = norm (groups * G) row := by
  rw [norm, norm, sum_groups]
  simp only [norm_sq, group]

end Norms

section Bound

variable (infl : Inflation) {up : ℝ → EReal} {bf16 : ℝ → ℝ} {K G : ℕ} {W D : ℕ → ℕ → ℝ}
  {x : ℕ → ℝ} {v : ℕ}

/-- The exact scores differ by at most the products of the group norms. -/
theorem exact_deviation (divides : G ∣ K) (x row copy : ℕ → ℝ) :
    |dot K x row - dot K x copy| ≤
      ∑ g ∈ range (K / G), norm G (group G g x) * norm G (group G g fun k => row k - copy k) := by
  have difference : dot K x row - dot K x copy =
      ∑ g ∈ range (K / G), ∑ j ∈ range G, group G g x j * group G g (fun k => row k - copy k) j := by
    rw [dot, dot, ← sum_sub_distrib]
    conv_lhs => rw [← Nat.div_mul_cancel divides]
    rw [sum_groups]
    simp only [group, mul_sub]
  rw [difference]
  exact (abs_sum_le_sum_abs _ _).trans (sum_le_sum fun g _ => abs_dot_le G _ _)

/-- The accumulation constant is not negative, as a number of roundings times a unit is. -/
theorem cAcc_nonneg (K : ℕ) : 0 ≤ cAcc K := by
  rw [cAcc]
  positivity

/-- The stored norm of a group is at least its norm. -/
theorem norm_le_xGroup (g : ℕ) : norm G (group G g x) ≤ xGroup infl G x g :=
  le_mul_of_one_le_right (norm_nonneg _ _) infl.grows.1

/-- The stored norm of a row is at least its norm. -/
theorem norm_le_xNorm (divides : G ∣ K) : norm K x ≤ xNorm infl K G x := by
  have grouped : norm K x ≤ norm (K / G) (xGroup infl G x) := by
    have groups := norm_groups (K / G) G x
    rw [Nat.div_mul_cancel divides] at groups
    rw [← groups]
    refine norm_mono fun g _ => ?_
    rw [abs_of_nonneg (norm_nonneg _ _),
      abs_of_nonneg ((norm_nonneg _ _).trans (norm_le_xGroup infl g))]
    exact norm_le_xGroup infl g
  exact grouped.trans (le_mul_of_one_le_right (norm_nonneg _ _) infl.grows.1)

/-- Nothing in the formula of the bound is negative. -/
theorem residual_nonneg (above : ∀ y : ℝ, (y : EReal) ≤ up y) :
    0 ≤ (residual infl (buildTables infl up bf16 K G W D) K G x v).orTop ∧
      ∀ g, 0 ≤ (Number.val (xGroup infl G x g) *
        .val ((buildTables infl up bf16 K G W D).rt g v)).orTop := by
  have terms : ∀ g, 0 ≤ (Number.val (xGroup infl G x g) *
      .val ((buildTables infl up bf16 K G W D).rt g v)).orTop := by
    intro g
    have entry : (0 : EReal) ≤ (Number.val ((buildTables infl up bf16 K G W D).rt g v)).orTop := by
      rw [buildTables, Number.orTop]
      dsimp only
      split
      · exact le_top
      · exact (EReal.coe_nonneg.mpr (mul_nonneg (norm_nonneg _ _)
          (zero_le_one.trans infl.grows.2.2.2))).trans (above _)
    have stored : ((0 : ℝ) : EReal) ≤ (Number.val (xGroup infl G x g)).orTop :=
      EReal.coe_le_coe_iff.mpr ((norm_nonneg _ _).trans (norm_le_xGroup infl g))
    have product := Number.le_mul le_rfl le_rfl stored entry
    rwa [mul_zero] at product
  refine ⟨?_, terms⟩
  have sum := Number.le_sumTo (fun _ => 0) fun g (_ : g < K / G) => terms g
  rwa [sum_const_zero] at sum

/-- The factor of the accumulation term is not negative. -/
theorem factor_nonneg (divides : G ∣ K) :
    ((0 : ℝ) : EReal) ≤ (Number.val (2 * cAcc K * xNorm infl K G x : ℝ)).orTop :=
  EReal.coe_le_coe_iff.mpr (mul_nonneg (mul_nonneg zero_le_two (cAcc_nonneg K))
    ((norm_nonneg _ _).trans (norm_le_xNorm infl divides)))

/-- Neither is the whole accumulation term, also where a norm is infinite or the product no number.
-/
theorem accumulation_nonneg (above : ∀ y : ℝ, (y : EReal) ≤ up y) (divides : G ∣ K) :
    0 ≤ (Number.val (2 * cAcc K * xNorm infl K G x : ℝ) *
      .val ((buildTables infl up bf16 K G W D).nv v)).orTop := by
  have norms : (0 : EReal) ≤ (Number.val ((buildTables infl up bf16 K G W D).nv v)).orTop :=
    (EReal.coe_nonneg.mpr (mul_nonneg ((norm_nonneg K (W v)).trans (le_max_left _ _))
      (zero_le_one.trans infl.grows.2.2.2))).trans (above _)
  have product := Number.le_mul le_rfl le_rfl (factor_nonneg infl (x := x) divides) norms
  rwa [mul_zero] at product

/-- An unbounded residual or an unbounded accumulation makes the bound unbounded. -/
theorem bounds_top (above : ∀ y : ℝ, (y : EReal) ≤ up y) (divides : G ∣ K)
    (unbounded : (residual infl (buildTables infl up bf16 K G W D) K G x v).orTop = ⊤ ∨
      (buildTables infl up bf16 K G W D).nv v = ⊤) :
    bounds infl (buildTables infl up bf16 K G W D) K G x v = ⊤ := by
  have q : (0 : EReal) ≤ (Number.val infl.q).orTop :=
    EReal.coe_nonneg.mpr (zero_le_one.trans infl.grows.2.1)
  have b : (0 : EReal) ≤ (Number.val infl.b).orTop :=
    EReal.coe_nonneg.mpr (zero_le_one.trans infl.grows.2.2.1)
  rw [bounds]
  refine Number.top_mul ?_ b
  cases unbounded with
  | inl residuals =>
    exact Number.top_add (Number.top_mul residuals q) (accumulation_nonneg infl above divides)
  | inr norms =>
    have first : ((0 : ℝ) : EReal) ≤
        (residual infl (buildTables infl up bf16 K G W D) K G x v).orTop :=
      (residual_nonneg infl above).1
    have residuals := Number.le_mul le_rfl le_rfl first q
    rw [mul_zero] at residuals
    exact Number.add_top residuals (Number.mul_top (factor_nonneg infl divides) norms)

/-- The bound of a row that is not rebuilt exactly is infinite. -/
theorem bounds_inexact (above : ∀ y : ℝ, (y : EReal) ≤ up y) (divides : G ∣ K)
    (inexact : Inexact bf16 K D v) :
    bounds infl (buildTables infl up bf16 K G W D) K G x v = ⊤ := by
  refine bounds_top infl above divides (Or.inl ?_)
  have ⟨k, inside, _⟩ := inexact
  have groups : 0 < K / G := by
    by_contra none
    have empty := Nat.div_mul_cancel divides
    rw [Nat.eq_zero_of_not_pos none, Nat.zero_mul] at empty
    omega
  refine Number.top_sumTo (fun g _ => (residual_nonneg infl above).2 g) groups ?_
  refine Number.mul_top ?_ ?_
  · exact EReal.coe_nonneg.mpr ((norm_nonneg _ _).trans (norm_le_xGroup infl 0))
  · rw [Number.orTop, buildTables]
    exact if_pos inexact

/-- The bound covers the residual and both accumulation errors. -/
theorem le_bounds (above : ∀ y : ℝ, (y : EReal) ≤ up y) (divides : G ∣ K) {n : ℝ} (nonneg : 0 ≤ n)
    (stored : (n : EReal) ≤ (buildTables infl up bf16 K G W D).nv v) :
    ((∑ g ∈ range (K / G), norm G (group G g x) * norm G (group G g fun k => W v k - D v k) +
        2 * cAcc K * norm K x * n : ℝ) : EReal) ≤
      bounds infl (buildTables infl up bf16 K G W D) K G x v := by
  have residuals : ((∑ g ∈ range (K / G),
      norm G (group G g x) * norm G (group G g fun k => W v k - D v k) : ℝ) : EReal) ≤
      (residual infl (buildTables infl up bf16 K G W D) K G x v).orTop := by
    refine Number.le_sumTo _ fun g _ => ?_
    refine Number.le_mul (norm_nonneg _ _) (norm_nonneg _ _) ?_ ?_
    · exact EReal.coe_le_coe_iff.mpr (norm_le_xGroup infl g)
    · rw [Number.orTop, buildTables]
      dsimp only
      split
      · exact le_top
      · exact (EReal.coe_le_coe_iff.mpr (le_mul_of_one_le_right (norm_nonneg _ _)
          infl.grows.2.2.2)).trans (above _)
  have factor : ((2 * cAcc K * norm K x : ℝ) : EReal) ≤
      (Number.val (2 * cAcc K * xNorm infl K G x : ℝ)).orTop :=
    EReal.coe_le_coe_iff.mpr (mul_le_mul_of_nonneg_left (norm_le_xNorm infl divides)
      (mul_nonneg zero_le_two (cAcc_nonneg K)))
  have q : ((1 : ℝ) : EReal) ≤ (Number.val infl.q).orTop :=
    EReal.coe_le_coe_iff.mpr infl.grows.2.1
  have b : ((1 : ℝ) : EReal) ≤ (Number.val infl.b).orTop :=
    EReal.coe_le_coe_iff.mpr infl.grows.2.2.1
  have products : 0 ≤ ∑ g ∈ range (K / G),
      norm G (group G g x) * norm G (group G g fun k => W v k - D v k) :=
    sum_nonneg fun g _ => mul_nonneg (norm_nonneg _ _) (norm_nonneg _ _)
  have weight : 0 ≤ 2 * cAcc K * norm K x :=
    mul_nonneg (mul_nonneg zero_le_two (cAcc_nonneg K)) (norm_nonneg _ _)
  have inflated := Number.le_mul products zero_le_one residuals q
  have accumulated := Number.le_mul weight nonneg factor
    (show (n : EReal) ≤ (Number.val ((buildTables infl up bf16 K G W D).nv v)).orTop from stored)
  have whole := Number.le_mul (add_nonneg (mul_nonneg products zero_le_one)
    (mul_nonneg weight nonneg)) zero_le_one (Number.le_add inflated accumulated) b
  rwa [mul_one, mul_one] at whole

/-- Both scores within their accumulation errors, their difference is within the bound. -/
theorem abs_sub_le_bounds (above : ∀ y : ℝ, (y : EReal) ≤ up y) (divides : G ∣ K)
    {stock screen : ℝ}
    (stock_close : ∀ n : ℝ, (buildTables infl up bf16 K G W D).nv v = n →
      |stock - dot K x (W v)| ≤ cAcc K * norm K x * n)
    (screen_close : ∀ n : ℝ, (buildTables infl up bf16 K G W D).nv v = n →
      |screen - dot K x (D v)| ≤ cAcc K * norm K x * n) :
    ((|stock - screen| : ℝ) : EReal) ≤
      bounds infl (buildTables infl up bf16 K G W D) K G x v := by
  have nonneg : (0 : EReal) ≤ (buildTables infl up bf16 K G W D).nv v :=
    (EReal.coe_nonneg.mpr (mul_nonneg ((norm_nonneg K (W v)).trans (le_max_left _ _))
      (zero_le_one.trans infl.grows.2.2.2))).trans (above _)
  cases stored : (buildTables infl up bf16 K G W D).nv v with
  | bot => exact absurd (stored ▸ nonneg) (by simp)
  | top =>
    rw [bounds_top infl above divides (Or.inr stored)]
    exact le_top
  | coe n =>
    rw [stored] at nonneg
    have positive : 0 ≤ n := EReal.coe_nonneg.mp nonneg
    refine le_trans ?_ (le_bounds infl above divides positive stored.ge)
    refine EReal.coe_le_coe_iff.mpr ?_
    have exact_close := exact_deviation divides x (W v) (D v)
    have first := stock_close n stored
    have second := screen_close n stored
    calc |stock - screen|
        = |(stock - dot K x (W v)) + (dot K x (W v) - dot K x (D v)) -
            (screen - dot K x (D v))| := by ring_nf
      _ ≤ |stock - dot K x (W v)| + |dot K x (W v) - dot K x (D v)| +
            |screen - dot K x (D v)| :=
          (abs_sub _ _).trans (add_le_add_left (abs_add_le _ _) _)
      _ ≤ _ := by linarith

/-- Rounded ends around the screen score hold every score within the bound. -/
theorem mem_interval {rounded : EReal → EReal} (monotone : Monotone rounded) {stock screen : ℝ}
    {B : EReal} (close : ((|stock - screen| : ℝ) : EReal) ≤ B) :
    (interval infl rounded screen B).1 ≤ rounded stock ∧
      rounded stock ≤ (interval infl rounded screen B).2 := by
  obtain ⟨rel, absolute⟩ := infl.slop
  have nonneg : (0 : EReal) ≤ B := (EReal.coe_nonneg.mpr (abs_nonneg _)).trans close
  rw [interval]
  dsimp only
  cases B with
  | bot => exact absurd nonneg (by simp)
  | top =>
    have slop : ((|screen| : ℝ) + ⊤ : EReal) * infl.slopRel + infl.slopAbs = ⊤ := by
      rw [EReal.add_top_of_ne_bot (EReal.coe_ne_bot _), EReal.top_mul_coe_of_pos rel,
        EReal.top_add_coe]
    rw [slop]
    constructor
    · refine monotone ?_
      rw [EReal.sub_top]
      exact bot_le
    · refine monotone ?_
      rw [EReal.add_top_of_ne_bot (EReal.coe_ne_bot _), EReal.top_add_top]
      exact le_top
  | coe b =>
    have within := abs_le.mp (EReal.coe_le_coe_iff.mp close)
    have slop : 0 ≤ (|screen| + b) * infl.slopRel + infl.slopAbs :=
      add_nonneg (mul_nonneg (add_nonneg (abs_nonneg _) (EReal.coe_nonneg.mp nonneg)) rel.le) absolute
    have cast : (((|screen| : ℝ) : EReal) + b) * infl.slopRel + infl.slopAbs =
        (((|screen| + b) * infl.slopRel + infl.slopAbs : ℝ) : EReal) := by
      rw [EReal.coe_add, EReal.coe_mul, EReal.coe_add]
    rw [cast]
    constructor
    · refine monotone ?_
      rw [← EReal.coe_sub, ← EReal.coe_sub]
      exact EReal.coe_le_coe_iff.mpr (by linarith [within.1])
    · refine monotone ?_
      rw [← EReal.coe_add, ← EReal.coe_add]
      exact EReal.coe_le_coe_iff.mpr (by linarith [within.2])

/-- The kernel's bound is the reference's, though it multiplies in another order. -/
theorem kernelBound_eq (above : ∀ y : ℝ, (y : EReal) ≤ up y) (divides : G ∣ K) :
    kernelBound infl (buildTables infl up bf16 K G W D) K G x v =
      bounds infl (buildTables infl up bf16 K G W D) K G x v := by
  have stored : 0 ≤ xNorm infl K G x := (norm_nonneg _ _).trans (norm_le_xNorm infl divides)
  have constant : 0 ≤ 2 * cAcc K := mul_nonneg zero_le_two (cAcc_nonneg K)
  have nonneg : (0 : EReal) ≤ (buildTables infl up bf16 K G W D).nv v :=
    (EReal.coe_nonneg.mpr (mul_nonneg ((norm_nonneg K (W v)).trans (le_max_left _ _))
      (zero_le_one.trans infl.grows.2.2.2))).trans (above _)
  have same : Number.val (2 * cAcc K * xNorm infl K G x : ℝ) *
      .val ((buildTables infl up bf16 K G W D).nv v) = .val (2 * cAcc K : ℝ) *
        (.val (xNorm infl K G x) * .val ((buildTables infl up bf16 K G W D).nv v)) := by
    cases entry : (buildTables infl up bf16 K G W D).nv v with
    | bot => exact absurd (entry ▸ nonneg) (by simp)
    | coe n => rw [Number.coe_mul_coe, Number.coe_mul_coe, Number.coe_mul_coe, mul_assoc]
    | top =>
      rw [Number.coe_mul_top _ (mul_nonneg constant stored), Number.coe_mul_top _ stored]
      by_cases zero : xNorm infl K G x = 0
      · rw [if_pos zero, if_pos (by rw [zero, mul_zero])]
        rfl
      · have columns : K ≠ 0 := by
          rintro rfl
          refine zero ?_
          rw [xNorm, Nat.zero_div, norm, range_zero, sum_empty, Real.sqrt_zero, zero_mul]
        have positive : 2 * cAcc K ≠ 0 := by
          rw [cAcc]
          positivity
        rw [if_neg zero, if_neg (mul_ne_zero positive zero), Number.coe_mul_top _ constant,
          if_neg positive]
  rw [kernelBound, bounds, same]

end Bound

section Results

/-- The certified bound is sound: for every row and id it covers the difference of the two scores, it
is infinite where the copy is not rebuilt exactly, and rounded stock scores lie between the rounded
ends. The screen kernel, which multiplies the norms in another order, computes the same bound. -/
theorem cert_bound_sound (infl : Inflation) (up : ℝ → EReal) (above : ∀ y : ℝ, (y : EReal) ≤ up y)
    (bf16 : ℝ → ℝ) {K G : ℕ} (divides : G ∣ K) (W D x stock screen : ℕ → ℕ → ℝ)
    (stock_close : ∀ m v, ∀ n : ℝ, (buildTables infl up bf16 K G W D).nv v = n →
      |stock m v - dot K (x m) (W v)| ≤ cAcc K * norm K (x m) * n)
    (screen_close : ∀ m v, ∀ n : ℝ, (buildTables infl up bf16 K G W D).nv v = n →
      |screen m v - dot K (x m) (D v)| ≤ cAcc K * norm K (x m) * n) (m v : ℕ) :
    ((|stock m v - screen m v| : ℝ) : EReal) ≤
        bounds infl (buildTables infl up bf16 K G W D) K G (x m) v ∧
      ((buildTables infl up bf16 K G W D).inexact v →
        bounds infl (buildTables infl up bf16 K G W D) K G (x m) v = ⊤) ∧
      kernelBound infl (buildTables infl up bf16 K G W D) K G (x m) v =
        bounds infl (buildTables infl up bf16 K G W D) K G (x m) v ∧
      ∀ rounded : EReal → EReal, Monotone rounded →
        (interval infl rounded (screen m v)
            (bounds infl (buildTables infl up bf16 K G W D) K G (x m) v)).1 ≤
            rounded (stock m v) ∧
          rounded (stock m v) ≤ (interval infl rounded (screen m v)
            (bounds infl (buildTables infl up bf16 K G W D) K G (x m) v)).2 := by
  have close := abs_sub_le_bounds infl above divides (stock_close m v) (screen_close m v)
  exact ⟨close, fun inexact => bounds_inexact infl above divides inexact,
    kernelBound_eq infl above divides, fun rounded monotone => mem_interval infl monotone close⟩

/-- A row of activations whose first group of two is zero. -/
def sampleX (k : ℕ) : ℝ := if k < 2 then 0 else 1

/-- The screening copy of weights of one: the first id misses its last weight, and the first weight of
the second id is not a value of the format. -/
def sampleD (v k : ℕ) : ℝ := if v = 1 ∧ k = 0 then 3 else if k = 3 then 0 else 1

/-- A rounding that turns three into two. -/
def sampleBf16 (y : ℝ) : ℝ := if y = 3 then 2 else y

/-- The tables of the sample, over two groups of two columns. -/
def sampleTables : Tables :=
  buildTables inflation (fun y => y) sampleBf16 4 2 (fun _ _ => 1) sampleD

/-- A stored norm of the sample is at least one, and so is the norm of its activations; a score may be
off by the accumulation constant. -/
theorem sample_close {exact' : ℝ} {v : ℕ} {n : ℝ} (stored : sampleTables.nv v = n) {off : ℝ}
    (small : |off| = cAcc 4) : |exact' + off - exact'| ≤ cAcc 4 * norm 4 sampleX * n := by
  have weights : (1 : ℝ) ≤ norm 4 fun _ => 1 := by
    rw [norm, Real.one_le_sqrt]
    norm_num
  have activations : (1 : ℝ) ≤ norm 4 sampleX := by
    rw [norm, Real.one_le_sqrt]
    norm_num [sum_range_succ, sampleX]
  have entry : (1 : ℝ) ≤ n := by
    rw [← EReal.coe_eq_coe_iff.mp stored]
    exact one_le_mul_of_one_le_of_one_le (weights.trans (le_max_left _ _)) inflation.grows.2.2.2
  rw [add_sub_cancel_left, small, mul_assoc]
  exact le_mul_of_one_le_right (cAcc_nonneg 4) (one_le_mul_of_one_le_of_one_le activations entry)

/-- `cert_bound_sound` with both scores off by the accumulation constant: the bound of the first id
covers what the copy and the two errors make of the score, and that of the second id is infinite
although its changed weight meets a zero group. -/
theorem cert_bound_sound_groups :
    ((1 + 2 * cAcc 4 : ℝ) : EReal) ≤ bounds inflation sampleTables 4 2 sampleX 0 ∧
      bounds inflation sampleTables 4 2 sampleX 1 = ⊤ ∧
      kernelBound inflation sampleTables 4 2 sampleX 1 = ⊤ ∧
      (interval inflation id (dot 4 sampleX (sampleD 0) + -cAcc 4)
        (bounds inflation sampleTables 4 2 sampleX 0)).1 ≤
          ((dot 4 sampleX (fun _ => 1) + cAcc 4 : ℝ) : EReal) := by
  have positive := cAcc_nonneg 4
  have sound := cert_bound_sound inflation (fun y => y) (fun y => le_rfl) sampleBf16
    (show 2 ∣ 4 by decide) (fun _ _ => 1) sampleD (fun _ => sampleX)
    (fun _ _ => dot 4 sampleX (fun _ => 1) + cAcc 4) (fun _ v => dot 4 sampleX (sampleD v) + -cAcc 4)
    (fun _ _ _ stored => sample_close stored (abs_of_nonneg positive))
    (fun _ _ _ stored => sample_close stored (by rw [abs_neg, abs_of_nonneg positive])) 0
  have apart : |dot 4 sampleX (fun _ => 1) + cAcc 4 - (dot 4 sampleX (sampleD 0) + -cAcc 4)| =
      1 + 2 * cAcc 4 := by
    have scores : dot 4 sampleX (fun _ => 1) = 2 ∧ dot 4 sampleX (sampleD 0) = 1 := by
      constructor <;> norm_num [dot, sum_range_succ, sampleX, sampleD]
    rw [scores.1, scores.2, abs_of_nonneg (by linarith)]
    ring
  have spoiled : sampleTables.inexact 1 :=
    ⟨0, by decide, by norm_num [sampleD, sampleBf16]⟩
  refine ⟨apart ▸ (sound 0).1, (sound 1).2.1 spoiled, ?_, ((sound 0).2.2.2 id monotone_id).1⟩
  exact (sound 1).2.2.1.trans ((sound 1).2.1 spoiled)

end Results

end

end GlmSpark.CertBound
