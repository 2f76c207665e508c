import GlmSpark.Minifloat
import Mathlib.Data.Rat.Cast.Order

/-!
# FP8 and FP4 codecs

`fpfmt.py` rounds to e4m3 by the exponent `frexp` gives, encodes a rounded value to its
byte and decodes bytes; for e2m1 it compares with the midpoints of neighbouring values.
Both formats are instances of `Minifloat`, and the codecs are read on exact rationals.
-/

namespace GlmSpark.Fpfmt

open Minifloat

/-- Three mantissa bits, subnormal quantum `2^-9`. -/
def e4m3 : Format := ⟨3, -9, by decide⟩

/-- One mantissa bit, least nonzero magnitude one half. -/
def e2m1 : Format := ⟨1, -1, Nat.one_pos⟩

/-! ### e4m3 -/

/-- The exponent of `frexp`: a nonzero magnitude is a fraction in `[1/2, 1)` times its power. -/
def frexp (a : ℚ) : ℤ := if a = 0 then 0 else Int.log 2 a + 1

/-- A magnitude under the sign of a number. -/
def copysign (r x : ℚ) : ℚ := if x < 0 then -r else r

/-- `E4M3_MAX`. -/
def e4m3Max : ℚ := 448

/-- `e4m3_round`; nothing is returned where it raises. -/
def e4m3Round (x : ℚ) : Option ℚ :=
  let ax := |x|
  let e := frexp ax
  let E := max (e - 1) (-6)
  let q : ℚ := 2 ^ (E - 3)
  let r := rint (ax / q) * q
  if e4m3Max < r then none else some (copysign r x)

/-- `e4m3_encode`: the nearest code, on ties the even one, with the sign in the top bit; what is too
large is cut to the largest value. -/
def e4m3Encode (v : ℚ) : BitVec 8 :=
  let s := BitVec.ofNat 8 (decide (v < 0) && decide (v ≠ 0)).toNat <<< 7
  let a := |v|
  let sub := if 0 < a ∧ a < 2 ^ (-6 : ℤ) then BitVec.ofInt 8 (rint (a / 2 ^ (-9 : ℤ))) else 0#8
  let E := frexp a - 1
  let mant := rint (a / 2 ^ (E - 3)) - 8
  let out := if 2 ^ (-6 : ℤ) ≤ a then BitVec.ofInt 8 (E + 7) <<< 3 ||| BitVec.ofInt 8 mant else sub
  out ||| s

/-- `e4m3_decode`; the two bytes with all exponent and mantissa bits set are not numbers. -/
def e4m3Decode (b : BitVec 8) : Option ℚ :=
  let s : ℚ := if b &&& 0x80#8 ≠ 0#8 then -1 else 1
  let ex := b >>> 3 &&& 0xF#8
  let m : ℚ := (b &&& 7#8).toNat
  let val := if ex = 0#8 then m * 2 ^ (-9 : ℤ) else (1 + m / 8) * 2 ^ ((ex.toNat : ℤ) - 7)
  if ex = 15#8 ∧ b &&& 7#8 = 7#8 then none else some (s * val)

/-- A positive magnitude lies in the binade of its clamped exponent. -/
theorem frexp_binade {a : ℚ} (positive : 0 < a) :
    ∃ j : ℕ, max (frexp a - 1) (-6) - 3 = e4m3.quantum + j ∧ e4m3.InBinade a j := by
  have two : 1 < 2 := Nat.one_lt_two
  have least := Int.zpow_log_le_self two positive
  have most := Int.lt_zpow_succ_log_self two a
  push_cast at least most
  rw [frexp, if_neg positive.ne', Int.add_sub_cancel]
  obtain ⟨j, exponent⟩ := Int.eq_ofNat_of_zero_le
    (show 0 ≤ max (Int.log 2 a) (-6) + 6 by omega)
  have shifted : max (Int.log 2 a) (-6) - 3 = e4m3.quantum + j := by
    change _ = -9 + (j : ℤ)
    omega
  refine ⟨j, shifted, positive.le, ?_, ?_⟩
  · have power : (2 : ℚ) ^ (e4m3.mantissa + 1) * 2 ^ (e4m3.quantum + j) =
        2 ^ (max (Int.log 2 a) (-6) + 1) := by
      rw [← shifted, ← zpow_natCast, ← zpow_add₀ two_ne_zero]
      congr 1
      change (4 : ℤ) + _ = _
      ring
    rw [power]
    exact most.le.trans (zpow_le_zpow_right₀ one_le_two (by omega))
  · obtain zero | normal := Nat.eq_zero_or_pos j
    · exact Or.inl zero
    right
    have power : (2 : ℚ) ^ e4m3.mantissa * 2 ^ (e4m3.quantum + j) = 2 ^ Int.log 2 a := by
      rw [← shifted, ← zpow_natCast, ← zpow_add₀ two_ne_zero]
      congr 1
      change (3 : ℤ) + _ = _
      omega
    rw [power]
    exact least

/-- The rounded magnitude is the value of the nearest code, of all without an upper end. -/
theorem rounded_enclosed {a : ℚ} (nonneg : 0 ≤ a) :
    ∃ n, e4m3.Enclosed Set.univ a n ∧
      rint (a / 2 ^ (max (frexp a - 1) (-6) - 3)) * 2 ^ (max (frexp a - 1) (-6) - 3) =
        e4m3.value n := by
  obtain rfl | positive := nonneg.eq_or_lt
  · refine ⟨0, ⟨trivial, Or.inl rfl, Or.inr (Or.inl ?_)⟩, ?_⟩
    · have next := e4m3.value_strictMono Nat.one_pos
      rw [e4m3.value_zero] at next ⊢
      linarith
    · rw [zero_div, ← Int.cast_zero, rint_intCast, Int.cast_zero, zero_mul, e4m3.value_zero]
  · obtain ⟨j, exponent, binade⟩ := frexp_binade positive
    exact ⟨_, binade.enclosed, by rw [exponent, binade.value_code]⟩

/-- Rounding raises at the nearest values above the maximum and returns the others. -/
theorem round_nearest (x : ℚ) : ∃ n y, e4m3.NearestEven Set.univ x n y ∧
    y = (if x < 0 then -e4m3.value n else e4m3.value n) ∧
    e4m3Round x = if e4m3Max < e4m3.value n then none else some y := by
  obtain ⟨n, enclosed, rounded⟩ := rounded_enclosed (abs_nonneg x)
  refine ⟨n, _, enclosed.nearestEven, rfl, ?_⟩
  rw [e4m3Round, rounded]
  rfl

/-- The largest finite code of the format is `126`; the code behind it stands for no number. -/
theorem value_le_max (n : ℕ) : e4m3.value n ≤ e4m3Max ↔ n ≤ 126 := by
  have largest : e4m3.value 126 = e4m3Max := by decide +kernel
  rw [← largest]
  exact e4m3.value_strictMono.le_iff_le

/-- The byte of a code and a sign. -/
def byte (negative : Bool) (n : ℕ) : BitVec 8 :=
  BitVec.ofNat 8 n ||| BitVec.ofNat 8 negative.toNat <<< 7

/-- A byte splits into the fields the decoder reads: the sign bit, four bits of exponent and three
of mantissa. -/
theorem byte_fields (negative : Bool) {n : ℕ} (small : n < 128) :
    (byte negative n &&& 0x80#8 ≠ 0#8 ↔ negative) ∧
      byte negative n >>> 3 &&& 0xF#8 = BitVec.ofNat 8 (n / 8) ∧
      byte negative n &&& 7#8 = BitVec.ofNat 8 (n % 8) := by
  have fields : ∀ (negative : Bool) (n : Fin 128),
      (byte negative n &&& 0x80#8 ≠ 0#8 ↔ negative) ∧
        byte negative n >>> 3 &&& 0xF#8 = BitVec.ofNat 8 (n / 8) ∧
        byte negative n &&& 7#8 = BitVec.ofNat 8 (n % 8) := by decide +kernel
  exact fields negative ⟨n, small⟩

/-- Decoding the byte of a code gives the code's value under the sign. -/
theorem decode_byte (negative : Bool) {n : ℕ} (small : n ≤ 126) :
    e4m3Decode (byte negative n) =
      some (if negative then -e4m3.value n else e4m3.value n) := by
  obtain ⟨sign, exponent, mantissa⟩ := byte_fields negative (Nat.lt_of_le_of_lt small (by decide))
  have binade : n / 8 < 16 := by omega
  have narrow : (BitVec.ofNat 8 (n / 8)).toNat = n / 8 := by
    rw [BitVec.toNat_ofNat]
    exact Nat.mod_eq_of_lt (by omega)
  have low : (BitVec.ofNat 8 (n % 8)).toNat = n % 8 := by
    rw [BitVec.toNat_ofNat]
    exact Nat.mod_eq_of_lt (by omega)
  have zero : BitVec.ofNat 8 (n / 8) = 0#8 ↔ n / 8 = 0 := by
    rw [← BitVec.toNat_inj, narrow]
    rfl
  have number : ¬ (BitVec.ofNat 8 (n / 8) = 15#8 ∧ BitVec.ofNat 8 (n % 8) = 7#8) := by
    rw [← BitVec.toNat_inj, ← BitVec.toNat_inj, narrow, low]
    change ¬ (n / 8 = 15 ∧ n % 8 = 7)
    omega
  have magnitude : (if n / 8 = 0 then ((n % 8 : ℕ) : ℚ) * 2 ^ (-9 : ℤ)
      else (1 + ((n % 8 : ℕ) : ℚ) / 8) * 2 ^ (((n / 8 : ℕ) : ℤ) - 7)) = e4m3.value n := by
    change _ = if n / 8 = 0 then ((n % 8 : ℕ) : ℚ) * 2 ^ (-9 : ℤ)
      else ((8 + n % 8 : ℕ) : ℚ) * 2 ^ (-9 + ((n / 8 : ℕ) : ℤ) - 1)
    split
    next => rfl
    next normal =>
      have exponent : ((n / 8 : ℕ) : ℤ) - 7 = -9 + ((n / 8 : ℕ) : ℤ) - 1 + 3 := by ring
      rw [exponent, zpow_add₀ two_ne_zero _ (3 : ℤ)]
      push_cast
      ring
  rw [e4m3Decode]
  simp only [exponent, mantissa, number, zero, narrow, low, if_false, sign, magnitude]
  cases negative with
  | false => rw [if_neg (by decide), one_mul, if_neg (by decide)]
  | true => rw [if_pos rfl, neg_one_mul, if_pos rfl]

/-- The exponent and mantissa fields of a code of a normal binade. -/
theorem normal_byte {j k : ℕ} (binade : j < 15) (large : 8 ≤ k) (below : k < 16) :
    BitVec.ofInt 8 ((j : ℤ) - 6 + 7) <<< 3 ||| BitVec.ofInt 8 ((k : ℤ) - 8) =
      BitVec.ofNat 8 (j * 8 + k) := by
  have fields : ∀ (e : Fin 15) (m : Fin 8),
      BitVec.ofInt 8 (((e : ℕ) : ℤ) - 6 + 7) <<< 3 ||| BitVec.ofInt 8 (((m + 8 : ℕ) : ℤ) - 8) =
        BitVec.ofNat 8 (e * 8 + (m + 8)) := by decide +kernel
  have read := fields ⟨j, binade⟩ ⟨k - 8, by omega⟩
  simpa only [Nat.sub_add_cancel large] using read

/-- Encoding the value of a code under a sign gives its byte; zero has no sign. -/
theorem encode_value (x : ℚ) {n : ℕ} (small : n ≤ 126) :
    e4m3Encode (if x < 0 then -e4m3.value n else e4m3.value n) =
      byte (decide (x < 0) && decide (n ≠ 0)) n := by
  have nonneg := e4m3.value_nonneg n
  have magnitude : |(if x < 0 then -e4m3.value n else e4m3.value n)| = e4m3.value n := by
    split
    next => rw [abs_neg, abs_of_nonneg nonneg]
    next => exact abs_of_nonneg nonneg
  have zero : e4m3.value n = 0 ↔ n = 0 := by
    rw [← e4m3.value_zero]
    exact e4m3.value_strictMono.injective.eq_iff
  have sign : (decide ((if x < 0 then -e4m3.value n else e4m3.value n) < 0) &&
      decide ((if x < 0 then -e4m3.value n else e4m3.value n) ≠ 0)) =
      (decide (x < 0) && decide (n ≠ 0)) := by
    split
    next negative =>
      have positive : 0 < e4m3.value n ↔ n ≠ 0 := by
        rw [lt_iff_le_and_ne, and_iff_right nonneg, ne_comm, ne_eq, zero]
      simp [negative, positive, zero]
    next other => simp [other, nonneg]
  rw [e4m3Encode]
  simp only [magnitude, sign]
  rw [byte]
  congr 1
  obtain ⟨j, k, rfl, below, normal⟩ := e4m3.code_cases n
  change k < 16 at below
  change j = 0 ∨ 8 ≤ k at normal
  change j * 8 + k ≤ 126 at small
  have value : e4m3.value (j * 2 ^ e4m3.mantissa + k) = k * 2 ^ (-9 + (j : ℤ)) :=
    e4m3.value_code j k below.le normal
  rw [value]
  obtain subnormal | large := Nat.lt_or_ge k 8
  · obtain rfl : j = 0 := normal.resolve_right (Nat.not_le.mpr subnormal)
    have bound : (k : ℚ) ≤ 7 := by exact_mod_cast Nat.le_of_lt_succ subnormal
    have least : ¬ (2 : ℚ) ^ (-6 : ℤ) ≤ k * 2 ^ (-9 + ((0 : ℕ) : ℤ)) := by
      norm_num
      linarith
    rw [if_neg least, Nat.cast_zero, add_zero, mul_div_cancel_right₀ _ (by positivity)]
    have whole : rint (k : ℚ) = k := rint_intCast k
    rw [whole, BitVec.ofInt_natCast, Nat.zero_mul, Nat.zero_add]
    split
    next => rfl
    next empty =>
      obtain rfl | positive := Nat.eq_zero_or_pos k
      · rfl
      · refine absurd (And.intro (by positivity) ?_) empty
        simpa using not_le.mp least
  · have bounds : (8 : ℚ) ≤ k ∧ (k : ℚ) < 16 := by
      constructor
      · exact_mod_cast large
      · exact_mod_cast below
    have quantum : (0 : ℚ) < 2 ^ (-9 + (j : ℤ)) := by positivity
    have positive : (0 : ℚ) < k * 2 ^ (-9 + (j : ℤ)) := mul_pos (by linarith) quantum
    have lower : (2 : ℚ) ^ ((j : ℤ) - 6) ≤ k * 2 ^ (-9 + (j : ℤ)) := by
      have power : (2 : ℚ) ^ ((j : ℤ) - 6) = 8 * 2 ^ (-9 + (j : ℤ)) := by
        rw [show (j : ℤ) - 6 = 3 + (-9 + j) by ring, zpow_add₀ two_ne_zero]
        norm_num
      rw [power]
      exact mul_le_mul_of_nonneg_right bounds.1 quantum.le
    have upper : (k : ℚ) * 2 ^ (-9 + (j : ℤ)) < 2 ^ ((j : ℤ) - 6 + 1) := by
      have power : (2 : ℚ) ^ ((j : ℤ) - 6 + 1) = 16 * 2 ^ (-9 + (j : ℤ)) := by
        rw [show (j : ℤ) - 6 + 1 = 4 + (-9 + j) by ring, zpow_add₀ two_ne_zero]
        norm_num
      rw [power]
      exact mul_lt_mul_of_pos_right bounds.2 quantum
    have log : Int.log 2 ((k : ℚ) * 2 ^ (-9 + (j : ℤ))) = (j : ℤ) - 6 := by
      refine le_antisymm (Int.lt_add_one_iff.mp ?_) ?_
      · exact (Int.lt_zpow_iff_log_lt Nat.one_lt_two positive).mp (by exact_mod_cast upper)
      · exact (Int.zpow_le_iff_le_log Nat.one_lt_two positive).mp (by exact_mod_cast lower)
    have reached : (2 : ℚ) ^ (-6 : ℤ) ≤ k * 2 ^ (-9 + (j : ℤ)) :=
      (zpow_le_zpow_right₀ one_le_two (by omega)).trans lower
    have exponent : (j : ℤ) - 6 - 3 = -9 + j := by ring
    have whole : rint (k : ℚ) = k := rint_intCast k
    rw [if_pos reached, frexp, if_neg positive.ne', log, Int.add_sub_cancel, exponent,
      mul_div_cancel_right₀ _ quantum.ne', whole]
    exact normal_byte (by omega) large below

/-! ### e2m1 -/

/-- `E2M1`. -/
def e2m1Values : List ℚ := [0, 1 / 2, 1, 3 / 2, 2, 3, 4, 6]

/-- `_E2M1_MID`. -/
def e2m1Mid : List ℚ := [1 / 4, 3 / 4, 5 / 4, 7 / 4, 5 / 2, 7 / 2, 5]

/-- The test at a boundary: a tie goes to the even code. -/
def passes (a : ℚ) (i : ℕ) (b : ℚ) : Bool :=
  if i % 2 = 0 then decide (b < a) else decide (b ≤ a)

/-- `e2m1_encode`: the number of boundaries a value is past, where ties go to the even code. -/
def e2m1Encode (x : ℚ) : BitVec 8 :=
  let a := min |x| 6
  let code := e2m1Mid.zipIdx.foldl (fun code (b, i) => code + (passes a i b).toNat) 0
  let sign := decide (x < 0) && decide (code ≠ 0)
  BitVec.ofNat 8 (code ||| sign.toNat <<< 3)

/-- `e2m1_decode`: the table's value under the sign. -/
def e2m1Decode (c : BitVec 8) : ℚ :=
  (if c &&& 8#8 ≠ 0#8 then -1 else 1) * e2m1Values.getD (c &&& 7#8).toNat 0

/-- The midpoint between a code's value and the next one's, where rounding changes its answer. -/
def midpoint (i : ℕ) : ℚ := (e2m1.value i + e2m1.value (i + 1)) / 2

/-- The table of the source holds the values of the format, in the order of the codes. -/
theorem e2m1Values_eq : e2m1Values = (List.range 8).map e2m1.value := by decide +kernel

/-- The boundaries of the source are the midpoints between neighbouring values. -/
theorem e2m1Mid_eq : e2m1Mid = (List.range 7).map midpoint := by decide +kernel

/-- Whoever passes a midpoint passes the one before. -/
theorem passes_down (a : ℚ) (i : ℕ) (passed : passes a (i + 1) (midpoint (i + 1))) :
    passes a i (midpoint i) := by
  have first := e2m1.value_strictMono (Nat.lt_succ_self i)
  have second := e2m1.value_strictMono (Nat.lt_succ_self (i + 1))
  have order : midpoint i < midpoint (i + 1) := by
    rw [midpoint, midpoint]
    linarith
  have reached : midpoint (i + 1) ≤ a := by
    rw [passes] at passed
    split at passed
    next => exact (of_decide_eq_true passed).le
    next => exact of_decide_eq_true passed
  rw [passes]
  split
  next => exact decide_eq_true (order.trans_le reached)
  next => exact decide_eq_true (order.le.trans reached)

/-- The count of a downward closed test is where it ends. -/
theorem count_downward (test : ℕ → Bool) (down : ∀ i, test (i + 1) → test i) (N : ℕ) :
    ((List.range N).map fun i => (test i).toNat).sum ≤ N ∧
      ∀ i < N, test i = decide (i < ((List.range N).map fun i => (test i).toNat).sum) := by
  induction N with
  | zero => exact ⟨le_rfl, fun i inside => absurd inside (Nat.not_lt_zero i)⟩
  | succ N hypothesis =>
    obtain ⟨bounded, before⟩ := hypothesis
    rw [List.range_succ, List.map_append, List.sum_append, List.map_singleton, List.sum_singleton]
    cases here : test N with
    | false =>
      refine ⟨by simpa [here] using Nat.le_succ_of_le bounded, fun i inside => ?_⟩
      obtain earlier | rfl := Nat.lt_succ_iff_lt_or_eq.mp inside
      · simpa using before i earlier
      · simpa [here] using bounded
    | true =>
      -- all earlier tests hold, so the count so far is full
      have all : ∀ d i, i + d = N → test i := by
        intro d
        induction d with
        | zero => rintro i rfl; exact here
        | succ d earlier => exact fun i ends => down i (earlier (i + 1) (by omega))
      have full : ((List.range N).map fun i => (test i).toNat).sum = N := by
        by_contra short
        have less := Nat.lt_of_le_of_ne bounded short
        have read := before _ less
        rw [all _ _ (Nat.add_sub_cancel' bounded)] at read
        simp at read
      rw [full]
      exact ⟨le_rfl, fun i inside => by
        rw [all (N - i) i (by omega), Bool.toNat_true, decide_eq_true inside]⟩

/-- The code an encoding counts, and where its tests end. -/
theorem encode_counts (x : ℚ) : ∃ n ≤ 7,
    e2m1Encode x =
      BitVec.ofNat 8 (n ||| (decide (x < 0) && decide (n ≠ 0)).toNat <<< 3) ∧
    ∀ i < 7, passes (min |x| 6) i (midpoint i) = decide (i < n) := by
  have counted := count_downward (fun i => passes (min |x| 6) i (midpoint i))
    (passes_down (min |x| 6)) 7
  refine ⟨_, counted.1, ?_, counted.2⟩
  rw [e2m1Encode]
  dsimp only
  have folded : e2m1Mid.zipIdx.foldl (fun code (b, i) => code + (passes (min |x| 6) i b).toNat) 0 =
      ((List.range 7).map fun i => (passes (min |x| 6) i (midpoint i)).toNat).sum := by
    rw [e2m1Mid_eq]
    simp [List.range_succ, List.zipIdx]
    omega
  rw [folded]

/-- The code an encoding counts encloses the magnitude among the eight codes. -/
theorem encode_enclosed {x : ℚ} {n : ℕ} (bounded : n ≤ 7)
    (ends : ∀ i < 7, passes (min |x| 6) i (midpoint i) = decide (i < n)) :
    e2m1.Enclosed (Set.Iic 7) |x| n := by
  have last : midpoint 6 = 5 := by decide +kernel
  -- the midpoints lie below six, so the clamp does not change a test
  have under : ∀ i < 7, midpoint i < 6 := by
    intro i inside
    have order := e2m1.value_strictMono.monotone (Nat.le_of_lt_succ inside)
    have next := e2m1.value_strictMono.monotone (Nat.succ_le_succ (Nat.le_of_lt_succ inside))
    rw [midpoint] at last ⊢
    linarith
  refine ⟨bounded, ?_, ?_⟩
  · obtain zero | positive := Nat.eq_zero_or_pos n
    · exact Or.inl zero
    refine Or.inr ?_
    have small : n - 1 < 7 := by omega
    have passed := ends (n - 1) small
    have lower := under (n - 1) small
    rw [decide_eq_true (by omega : n - 1 < n), passes] at passed
    rw [midpoint, Nat.sub_add_cancel positive] at passed lower
    split at passed
    next =>
      have strict := (lt_min_iff.mp (of_decide_eq_true passed)).1
      exact Or.inl (by linarith)
    next odd =>
      have reached := (le_min_iff.mp (of_decide_eq_true passed)).1
      rcases lt_or_eq_of_le reached with strict | tie
      · exact Or.inl (by linarith)
      · exact Or.inr ⟨by linarith, by omega⟩
  · obtain inside | full := Nat.lt_or_ge n 7
    · refine Or.inr ?_
      have failed := ends n inside
      have upper := under n inside
      rw [decide_eq_false (Nat.lt_irrefl n), passes] at failed
      rw [midpoint] at failed upper
      split at failed
      next even =>
        have reached := not_lt.mp (of_decide_eq_false failed)
        rw [min_le_iff] at reached
        have bound := reached.resolve_right (by linarith)
        rcases lt_or_eq_of_le bound with strict | tie
        · exact Or.inl (by linarith)
        · exact Or.inr ⟨by linarith, even⟩
      next odd =>
        have reached := not_le.mp (of_decide_eq_false failed)
        rw [min_lt_iff] at reached
        have bound := reached.resolve_right (by linarith)
        exact Or.inl (by linarith)
    · exact Or.inl fun m listed => le_trans listed full

/-- Decoding a code and a sign bit reads the table under the sign. -/
theorem e2m1_decode_code (negative : Bool) {n : ℕ} (small : n ≤ 7) :
    e2m1Decode (BitVec.ofNat 8 (n ||| negative.toNat <<< 3)) =
      (if negative then -1 else 1) * e2m1.value n := by
  have fields : ∀ (negative : Bool) (n : Fin 8),
      (BitVec.ofNat 8 (n ||| negative.toNat <<< 3) &&& 8#8 ≠ 0#8 ↔ negative) ∧
        (BitVec.ofNat 8 (n ||| negative.toNat <<< 3) &&& 7#8).toNat = n := by decide +kernel
  obtain ⟨sign, low⟩ := fields negative ⟨n, Nat.lt_succ_of_le small⟩
  rw [e2m1Decode]
  simp only at sign low
  rw [low, e2m1Values_eq, List.getD_eq_getElem?_getD, List.getElem?_map,
    List.getElem?_range (Nat.lt_succ_of_le small), Option.map_some, Option.getD_some]
  simp only [sign]

/-! ### Both codecs -/

/-- `e4m3_round` raises exactly where the nearest value without an upper end exceeds the
maximum and else returns it, and decoding its encoding gives it back; `e2m1` codes decode to
the nearest of the eight values. Ties go to even codes. -/
theorem codecs_nearest_even :
    (∀ x, ∃ n y, e4m3.NearestEven Set.univ x n y ∧
      if e4m3Max < |y| then e4m3Round x = none
      else e4m3Round x = some y ∧ e4m3Decode (e4m3Encode y) = some y) ∧
    ∀ x, ∃ n, e2m1.NearestEven (Set.Iic 7) x n (e2m1Decode (e2m1Encode x)) := by
  constructor
  · intro x
    obtain ⟨n, y, nearest, signed, rounded⟩ := round_nearest x
    have magnitude : |y| = e4m3.value n := by
      rw [signed]
      split
      next => rw [abs_neg, abs_of_nonneg (e4m3.value_nonneg n)]
      next => exact abs_of_nonneg (e4m3.value_nonneg n)
    refine ⟨n, y, nearest, ?_⟩
    rw [magnitude]
    split
    next above => rw [rounded, if_pos above]
    next within =>
      have small := (value_le_max n).mp (not_lt.mp within)
      refine ⟨by rw [rounded, if_neg within], ?_⟩
      rw [signed, encode_value x small, decode_byte _ small]
      by_cases zero : n = 0
      · simp [zero, e4m3.value_zero]
      · simp [zero]
  · intro x
    obtain ⟨n, bounded, encoded, ends⟩ := encode_counts x
    have nearest := (encode_enclosed bounded ends).nearestEven
    refine ⟨n, ?_⟩
    rw [encoded, e2m1_decode_code _ bounded]
    by_cases zero : n = 0
    · simpa [zero, e2m1.value_zero] using nearest
    · by_cases negative : x < 0
      · simpa [zero, negative] using nearest
      · simpa [zero, negative] using nearest

end GlmSpark.Fpfmt
