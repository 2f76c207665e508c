import GlmSpark.DraftPolicy
import GlmSpark.RunningBest
import Mathlib.Algebra.Order.Field.Basic
import Mathlib.Algebra.Order.Ring.Rat
import Mathlib.Algebra.Field.Rat
import Mathlib.Tactic.Linarith
import Mathlib.Tactic.NormNum
import Mathlib.Tactic.Ring

/-!
# The update of the price

A choice moves the price of a millisecond a little towards the rate it achieves. For
fixed requests the price climbs towards the best rate of all lengths without passing
it, falls while it is above, and a higher price never makes the chosen length longer.
-/

namespace GlmSpark.PriceUpdate

open DraftPolicy RunningBest

universe u
variable {F : Type u} [Field F] [LinearOrder F] (policy : Policy F)

/-- `Es` of `choose`. -/
def expectations (confs : List (List F)) (kmax : ℕ) : List (List F) :=
  confs.map fun conf => policy.expect (conf.take kmax)

/-- Expected tokens over step cost of a length. -/
def rate (es : List (List F)) (L : ℕ) : F := total es L / policy.cost es.length (L + 1)

/-- The largest rate of the lengths up to `kmax`. -/
def bestRate (es : List (List F)) (kmax : ℕ) : F :=
  ((List.range' 1 kmax).map (rate policy es)).max?.getD 0

/-- Every length has a positive cost, as a time has. -/
def Priced (n kmax : ℕ) : Prop := ∀ L, 1 ≤ L → L ≤ kmax → 0 < policy.cost n (L + 1)

/-- Longer steps never cost less, as more rows take longer. -/
def Rising (n kmax : ℕ) : Prop :=
  ∀ L L', 1 ≤ L → L ≤ L' → L' ≤ kmax → policy.cost n (L + 1) ≤ policy.cost n (L' + 1)

/-- Every value of the choice exceeds the one its loop starts from. -/
def AboveSentinel (lam : F) (es : List (List F)) (kmax : ℕ) : Prop :=
  ∀ L, 1 ≤ L → L ≤ kmax → -10 ^ 30 < policy.value lam es L

section Choice

/-- The loop of `choose` is the running best over the lengths. -/
theorem bestLength_outcome (lam : F) (es : List (List F)) (kmax : ℕ) :
    Outcome (policy.value lam es) (List.range' 1 kmax) (-10 ^ 30, kmax)
      ((List.range' 1 kmax).foldl (policy.round lam es) (-10 ^ 30, kmax)) :=
  outcome (policy.value lam es) (List.range' 1 kmax) (-10 ^ 30, kmax) List.pairwise_lt_range'

variable {policy}

/-- The chosen length is the first one of greatest value. -/
theorem bestLength_first {lam : F} {es : List (List F)} {kmax : ℕ} (some : 0 < kmax)
    (above : AboveSentinel policy lam es kmax) :
    1 ≤ policy.bestLength lam es kmax ∧ policy.bestLength lam es kmax ≤ kmax ∧
      ∀ L, 1 ≤ L → L ≤ kmax →
        policy.value lam es L ≤ policy.value lam es (policy.bestLength lam es kmax) ∧
        (L < policy.bestLength lam es kmax →
          policy.value lam es L < policy.value lam es (policy.bestLength lam es kmax)) := by
  have reached := bestLength_outcome policy lam es kmax
  have listed : ∀ L, 1 ≤ L → L ≤ kmax → L ∈ List.range' 1 kmax := fun L low high =>
    List.mem_range'_1.mpr ⟨low, by omega⟩
  rw [Policy.bestLength]
  generalize (List.range' 1 kmax).foldl (policy.round lam es) (-10 ^ 30, kmax) = best at reached ⊢
  cases reached with
  | kept below => exact absurd (below 1 (listed 1 le_rfl some)) (above 1 le_rfl some).not_ge
  | found item there _ greatest first =>
    obtain ⟨low, high⟩ := List.mem_range'_1.mp there
    refine ⟨low, by omega, fun L bottom top => ?_⟩
    exact ⟨greatest L (listed L bottom top), first L (listed L bottom top)⟩

end Choice

section Update

/-- The prices play no part in the expected tokens. -/
theorem expectFrom_lam (lam : ℕ → Option F) (s : ℕ) (cum e : F) (conf : List F) :
    { policy with lam := lam }.expectFrom s cum e conf = policy.expectFrom s cum e conf := by
  induction conf generalizing s cum e with
  | nil => rfl
  | cons lq conf ih =>
    rw [Policy.expectFrom, Policy.expectFrom]
    dsimp only
    rw [ih]
    rfl

/-- The expectations are those of a policy with other prices. -/
theorem expectations_lam (lam : ℕ → Option F) (confs : List (List F)) (kmax : ℕ) :
    expectations { policy with lam := lam } confs kmax = expectations policy confs kmax := by
  refine List.map_congr_left fun conf _ => ?_
  rw [Policy.expect, Policy.expect, expectFrom_lam]

/-- `choose` is the running best at the current price. -/
theorem choose_length (confs : List (List F)) (kmax : ℕ) :
    (policy.choose confs kmax).1 =
      policy.bestLength (policy.price confs.length) (expectations policy confs kmax) kmax := rfl

/-- The price after a choice: a step towards the rate of the chosen length. -/
theorem choose_price (confs : List (List F)) (kmax : ℕ) :
    (policy.choose confs kmax).2.price confs.length =
      (1 - alpha) * policy.price confs.length +
        alpha * rate policy (expectations policy confs kmax) (policy.choose confs kmax).1 := by
  have size : (expectations policy confs kmax).length = confs.length := List.length_map _
  rw [rate, size, Policy.price, Policy.choose]
  dsimp only
  rw [Function.update_self, Option.getD_some]
  rfl

variable [IsStrictOrderedRing F]

/-- `alpha` is a proper weight, strictly between zero and one, so the update is a mean of old and
new. -/
theorem alpha_bounds : (0 : F) < alpha ∧ (alpha : F) < 1 := by
  rw [alpha]
  constructor <;> norm_num

/-- A rate reaches the price exactly where the value is not negative. -/
theorem le_rate_iff {es : List (List F)} {L : ℕ} (lam : F)
    (positive : 0 < policy.cost es.length (L + 1)) :
    lam ≤ rate policy es L ↔ 0 ≤ policy.value lam es L := by
  rw [rate, le_div_iff₀ positive, Policy.value, sub_nonneg]

omit [IsStrictOrderedRing F] in
/-- The best rate is a rate, and no rate exceeds it. -/
theorem bestRate_greatest (es : List (List F)) {kmax : ℕ} (some : 0 < kmax) :
    (∃ L, 1 ≤ L ∧ L ≤ kmax ∧ rate policy es L = bestRate policy es kmax) ∧
      ∀ L, 1 ≤ L → L ≤ kmax → rate policy es L ≤ bestRate policy es kmax := by
  have nonempty : (List.range' 1 kmax).map (rate policy es) ≠ [] := by
    simp only [ne_eq, List.map_eq_nil_iff, List.range'_eq_nil_iff]
    omega
  obtain ⟨top, reached⟩ := Option.isSome_iff_exists.mp (List.isSome_max?_of_ne_nil nonempty)
  obtain ⟨listed, bounds⟩ := List.max?_eq_some_iff.mp reached
  rw [bestRate, reached, Option.getD_some]
  constructor
  · obtain ⟨L, there, equal⟩ := List.mem_map.mp listed
    obtain ⟨low, high⟩ := List.mem_range'_1.mp there
    exact ⟨L, low, by omega, equal⟩
  · intro L low high
    exact bounds _ (List.mem_map_of_mem (List.mem_range'_1.mpr ⟨low, by omega⟩))

variable {policy}

/-- While the price does not exceed the best rate, the chosen length achieves it. -/
theorem price_le_rate {lam : F} {es : List (List F)} {kmax : ℕ} (some : 0 < kmax)
    (priced : Priced policy es.length kmax) (above : AboveSentinel policy lam es kmax)
    (below : lam ≤ bestRate policy es kmax) :
    lam ≤ rate policy es (policy.bestLength lam es kmax) := by
  obtain ⟨low, high, greatest⟩ := bestLength_first some above
  obtain ⟨⟨L, bottom, top, best⟩, _⟩ := bestRate_greatest policy es some
  have worth : 0 ≤ policy.value lam es L :=
    (le_rate_iff policy lam (priced L bottom top)).mp (best ▸ below)
  exact (le_rate_iff policy lam (priced _ low high)).mpr (worth.trans (greatest L bottom top).1)

/-- A higher price never makes the chosen length longer, where longer steps never cost less. -/
theorem bestLength_antitone {low high : F} {es : List (List F)} {kmax : ℕ} (some : 0 < kmax)
    (rising : Rising policy es.length kmax) (ordered : low ≤ high)
    (above_low : AboveSentinel policy low es kmax)
    (above_high : AboveSentinel policy high es kmax) :
    policy.bestLength high es kmax ≤ policy.bestLength low es kmax := by
  obtain ⟨low_pos, low_top, low_best⟩ := bestLength_first some above_low
  obtain ⟨high_pos, high_top, high_best⟩ := bestLength_first some above_high
  generalize policy.bestLength low es kmax = L at *
  generalize policy.bestLength high es kmax = L' at *
  by_contra longer
  have costs := rising L L' low_pos (by omega) high_top
  have cheap : policy.value low es L' ≤ policy.value low es L := (low_best L' high_pos high_top).1
  have dear : policy.value high es L < policy.value high es L' :=
    (high_best L low_pos low_top).2 (by omega)
  rw [Policy.value, Policy.value] at cheap dear
  have product : 0 ≤ (high - low) *
      (policy.cost es.length (L' + 1) - policy.cost es.length (L + 1)) :=
    mul_nonneg (sub_nonneg.mpr ordered) (sub_nonneg.mpr costs)
  have expanded : (high - low) *
      (policy.cost es.length (L' + 1) - policy.cost es.length (L + 1)) =
        (high * policy.cost es.length (L' + 1) - high * policy.cost es.length (L + 1)) -
          (low * policy.cost es.length (L' + 1) - low * policy.cost es.length (L + 1)) := by
    ring
  rw [expanded] at product
  linarith

end Update

section Results

variable [IsStrictOrderedRing F]

/-- The price never falls and never passes the best rate while it is below, falls while it is above,
and a higher one never chooses a longer draft. -/
theorem price_approaches_bestRate (confs : List (List F)) {kmax : ℕ} (some : 0 < kmax)
    (priced : Priced policy confs.length kmax)
    (above :
      AboveSentinel policy (policy.price confs.length) (expectations policy confs kmax) kmax) :
    (policy.price confs.length ≤ bestRate policy (expectations policy confs kmax) kmax →
        policy.price confs.length ≤
            rate policy (expectations policy confs kmax) (policy.choose confs kmax).1 ∧
          policy.price confs.length ≤ (policy.choose confs kmax).2.price confs.length ∧
          (policy.choose confs kmax).2.price confs.length ≤
            bestRate policy (expectations policy confs kmax) kmax) ∧
      (bestRate policy (expectations policy confs kmax) kmax < policy.price confs.length →
        (policy.choose confs kmax).2.price confs.length < policy.price confs.length) ∧
      ∀ dearer : ℕ → Option F, Rising policy confs.length kmax →
        policy.price confs.length ≤ { policy with lam := dearer }.price confs.length →
        AboveSentinel policy ({ policy with lam := dearer }.price confs.length)
          (expectations policy confs kmax) kmax →
        ({ policy with lam := dearer }.choose confs kmax).1 ≤ (policy.choose confs kmax).1 := by
  have size : (expectations policy confs kmax).length = confs.length := List.length_map _
  have priced_es : Priced policy (expectations policy confs kmax).length kmax := size ▸ priced
  obtain ⟨low, high, _⟩ := bestLength_first some above
  have bounded := (bestRate_greatest policy (expectations policy confs kmax) some).2 _ low high
  obtain ⟨positive, proper⟩ := alpha_bounds (F := F)
  rw [choose_price, choose_length]
  refine ⟨fun below => ?_, fun exceeds => ?_, fun dearer rising ordered above_dearer => ?_⟩
  · have achieved := price_le_rate some priced_es above below
    refine ⟨achieved, ?_, ?_⟩
    · nlinarith
    · nlinarith
  · nlinarith
  · rw [choose_length, expectations_lam]
    exact bestLength_antitone some (size.symm ▸ rising) ordered above above_dearer

/-- Costs that grow with the rows, and a price of its own. -/
def sample (lam : ℚ) : Policy ℚ where
  edges := [0]
  g := [[1 / 10, 9 / 10], [1 / 10, 9 / 10]]
  t1 := fun rows => rows
  rowMs := 1
  power := fun _ => 1
  lam := fun _ => some lam
  lastMargin := ⊤
  lastKmax := 0

/-- `price_approaches_bestRate` below the best rate, above it, and at two prices. -/
theorem price_approaches_bestRate_sample :
    1 / 10 ≤ ((sample (1 / 10)).choose [[1, 1]] 2).2.price 1 ∧
      ((sample 5).choose [[1, 1]] 2).2.price 1 < 5 ∧
      ((sample 5).choose [[1, 1]] 2).1 ≤ ((sample (1 / 10)).choose [[1, 1]] 2).1 := by
  have priced : ∀ lam, Priced (sample lam) 1 2 := by
    intro lam L low high
    change 0 < (sample 0).cost 1 (L + 1)
    obtain rfl | rfl : L = 1 ∨ L = 2 := by omega
    · decide +kernel
    · decide +kernel
  have above : ∀ lam, lam = 1 / 10 ∨ lam = 5 →
      AboveSentinel (sample lam) lam (expectations (sample lam) [[1, 1]] 2) 2 := by
    intro lam prices L low high
    obtain rfl | rfl : L = 1 ∨ L = 2 := by omega
    · obtain rfl | rfl := prices <;> decide +kernel
    · obtain rfl | rfl := prices <;> decide +kernel
  have rising : Rising (sample (1 / 10)) 1 2 := by
    intro L L' low between high
    obtain ⟨rfl, rfl⟩ | ⟨rfl, rfl⟩ | ⟨rfl, rfl⟩ :
        (L = 1 ∧ L' = 1) ∨ (L = 1 ∧ L' = 2) ∨ (L = 2 ∧ L' = 2) := by omega
    all_goals decide +kernel
  have low := price_approaches_bestRate (sample (1 / 10)) [[1, 1]] (by decide) (priced _)
    (above _ (Or.inl rfl))
  have high := price_approaches_bestRate (sample 5) [[1, 1]] (by decide) (priced _)
    (above _ (Or.inr rfl))
  exact ⟨(low.1 (by decide +kernel)).2.1, high.2.1 (by decide +kernel),
    low.2.2 (fun _ => some 5) rising (by decide +kernel) (above 5 (Or.inr rfl))⟩

end Results

end GlmSpark.PriceUpdate
