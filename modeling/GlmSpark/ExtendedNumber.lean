import Mathlib.Data.EReal.Operations
import Mathlib.Data.EReal.Inv
import Mathlib.Algebra.BigOperators.Group.Finset.Basic
import Mathlib.Algebra.Order.BigOperators.Group.Finset

/-!
# Extended reals with a value that is no number

Floating-point formulas over exact reals still meet infinities: zero times infinity and
the sum of opposite infinities are no numbers. A formula made of sums and products of
nonnegative terms is a safe upper bound once its outcome is read as infinity where it is
no number. The rules below compute lower bounds of such formulas term by term.
-/

namespace GlmSpark.ExtendedNumber

/-- An extended real, or no number, as IEEE arithmetic has them; signs of zero and payloads are left
out. -/
inductive Number
  | nan
  | val (x : EReal)

namespace Number

open Classical in
/-- The sum; opposite infinities have none. -/
noncomputable def add : Number → Number → Number
  | val x, val y => if (x = ⊤ ∧ y = ⊥) ∨ (x = ⊥ ∧ y = ⊤) then nan else val (x + y)
  | _, _ => nan

open Classical in
/-- The product; zero and an infinity have none. -/
noncomputable def mul : Number → Number → Number
  | val x, val y =>
    if (x = 0 ∧ (y = ⊤ ∨ y = ⊥)) ∨ ((x = ⊤ ∨ x = ⊥) ∧ y = 0) then nan else val (x * y)
  | _, _ => nan

/-- Sums of extended numbers, where an undefined sum is no number. -/
noncomputable instance : Add Number := ⟨add⟩
/-- Products of extended numbers; zero times infinity is no number. -/
noncomputable instance : Mul Number := ⟨mul⟩

/-- The sum of the first terms. -/
noncomputable def sumTo : ℕ → (ℕ → Number) → Number
  | 0, _ => val 0
  | n + 1, term => sumTo n term + term n

/-- `where(isnan(b), inf, b)`: no number is read as infinity. -/
noncomputable def orTop : Number → EReal
  | nan => ⊤
  | val x => x

/-- On reals the product is the product of reals; only infinities differ. -/
theorem coe_mul_coe (r s : ℝ) : val (r : EReal) * val (s : EReal) = val ((r * s : ℝ) : EReal) := by
  change mul (val r) (val s) = _
  rw [mul, if_neg (by simp), EReal.coe_mul]

/-- A nonnegative real times infinity is no number when it is zero and infinity otherwise. -/
theorem coe_mul_top (r : ℝ) (nonneg : 0 ≤ r) :
    val (r : EReal) * val ⊤ = if r = 0 then nan else val ⊤ := by
  change mul (val r) (val ⊤) = _
  rw [mul]
  split_ifs with no_number zero zero
  · rfl
  · exact absurd (by simpa using no_number) zero
  · exact absurd (Or.inl ⟨by rw [zero, EReal.coe_zero], Or.inl rfl⟩) no_number
  · rw [EReal.coe_mul_top_of_pos (lt_of_le_of_ne nonneg (Ne.symm zero))]

section Lower

variable {a b : Number} {r s : ℝ}

/-- A sum is at least the sum of what its terms are at least. -/
theorem le_add (low : (r : EReal) ≤ a.orTop) (high : (s : EReal) ≤ b.orTop) :
    ((r + s : ℝ) : EReal) ≤ (a + b).orTop := by
  cases a with
  | nan => exact le_top
  | val x =>
    cases b with
    | nan => exact le_top
    | val y =>
      change _ ≤ (add (val x) (val y)).orTop
      rw [add]
      split
      · exact le_top
      · rw [EReal.coe_add]
        exact add_le_add low high

/-- A product of nonnegative terms is at least the product of what they are at least. -/
theorem le_mul (nonneg : 0 ≤ r) (nonneg' : 0 ≤ s) (low : (r : EReal) ≤ a.orTop)
    (high : (s : EReal) ≤ b.orTop) : ((r * s : ℝ) : EReal) ≤ (a * b).orTop := by
  cases a with
  | nan => exact le_top
  | val x =>
    cases b with
    | nan => exact le_top
    | val y =>
      change _ ≤ (mul (val x) (val y)).orTop
      rw [mul]
      split
      · exact le_top
      · rw [EReal.coe_mul]
        have first : (0 : EReal) ≤ r := EReal.coe_nonneg.mpr nonneg
        have second : (0 : EReal) ≤ s := EReal.coe_nonneg.mpr nonneg'
        exact mul_le_mul low high second (first.trans low)

/-- A sum of terms is at least the sum of what they are at least. -/
theorem le_sumTo (lower : ℕ → ℝ) {n : ℕ} {term : ℕ → Number}
    (below : ∀ i < n, (lower i : EReal) ≤ (term i).orTop) :
    ((∑ i ∈ Finset.range n, lower i : ℝ) : EReal) ≤ (sumTo n term).orTop := by
  induction n with
  | zero => exact le_rfl
  | succ n ih =>
    rw [Finset.sum_range_succ]
    exact le_add (ih fun i inside => below i (Nat.lt_succ_of_lt inside)) (below n n.lt_succ_self)

/-- An unbounded term makes a sum with a nonnegative one unbounded. -/
theorem top_add (unbounded : a.orTop = ⊤) (nonneg : 0 ≤ b.orTop) : (a + b).orTop = ⊤ := by
  cases a with
  | nan => rfl
  | val x =>
    cases b with
    | nan => rfl
    | val y =>
      obtain rfl : x = ⊤ := unbounded
      have proper : y ≠ ⊥ := (EReal.bot_lt_zero.trans_le nonneg).ne'
      change (add (val ⊤) (val y)).orTop = ⊤
      rw [add, if_neg (by simp [proper])]
      exact EReal.top_add_of_ne_bot proper

/-- The same with the infinite term on the right. -/
theorem add_top (nonneg : 0 ≤ a.orTop) (unbounded : b.orTop = ⊤) : (a + b).orTop = ⊤ := by
  cases a with
  | nan => rfl
  | val x =>
    cases b with
    | nan => rfl
    | val y =>
      obtain rfl : y = ⊤ := unbounded
      have proper : x ≠ ⊥ := (EReal.bot_lt_zero.trans_le nonneg).ne'
      change (add (val x) (val ⊤)).orTop = ⊤
      rw [add, if_neg (by simp [proper])]
      exact EReal.add_top_of_ne_bot proper

/-- An unbounded factor makes a product with a nonnegative one unbounded. -/
theorem top_mul (unbounded : a.orTop = ⊤) (nonneg : 0 ≤ b.orTop) : (a * b).orTop = ⊤ := by
  cases a with
  | nan => rfl
  | val x =>
    cases b with
    | nan => rfl
    | val y =>
      obtain rfl : x = ⊤ := unbounded
      change (mul (val ⊤) (val y)).orTop = ⊤
      rw [mul]
      split
      · rfl
      next number =>
        have positive : 0 < y := lt_of_le_of_ne nonneg fun zero =>
          number (Or.inr ⟨Or.inl rfl, zero.symm⟩)
        exact EReal.top_mul_of_pos positive

/-- The same with the infinite factor on the right; zero times infinity reads as infinity. -/
theorem mul_top (nonneg : 0 ≤ a.orTop) (unbounded : b.orTop = ⊤) : (a * b).orTop = ⊤ := by
  cases a with
  | nan => rfl
  | val x =>
    cases b with
    | nan => rfl
    | val y =>
      obtain rfl : y = ⊤ := unbounded
      change (mul (val x) (val ⊤)).orTop = ⊤
      rw [mul]
      split
      · rfl
      next number =>
        have positive : 0 < x := lt_of_le_of_ne nonneg fun zero =>
          number (Or.inl ⟨zero.symm, Or.inl rfl⟩)
        exact EReal.mul_top_of_pos positive

/-- One unbounded term among nonnegative ones makes their sum unbounded. -/
theorem top_sumTo {n : ℕ} {term : ℕ → Number} (nonneg : ∀ i < n, 0 ≤ (term i).orTop) {i : ℕ}
    (inside : i < n) (unbounded : (term i).orTop = ⊤) : (sumTo n term).orTop = ⊤ := by
  induction n with
  | zero => exact absurd inside (Nat.not_lt_zero i)
  | succ n ih =>
    have earlier : ∀ j < n, 0 ≤ (term j).orTop := fun j small => nonneg j (Nat.lt_succ_of_lt small)
    obtain before | rfl := Nat.lt_succ_iff_lt_or_eq.mp inside
    · exact top_add (ih earlier before) (nonneg n n.lt_succ_self)
    · refine add_top ?_ unbounded
      have zero := le_sumTo (fun _ => 0) earlier
      rwa [Finset.sum_const_zero] at zero

end Lower

end Number

end GlmSpark.ExtendedNumber
