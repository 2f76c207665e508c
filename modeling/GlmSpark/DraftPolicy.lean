import Mathlib.Algebra.Field.Basic
import Mathlib.Order.WithBot

/-!
# The truncation policy

`Policy` of `glm_draft_trunc.py` chooses one draft length for a batch. From the
confidences of the drafts it reads the expected number of tokens for every length off a
table, and it takes the length at which these exceed their price the most. The price of
a millisecond is kept for every batch size and follows the rate the choice achieves.

The numbers are those of any ordered field.
-/

namespace GlmSpark.DraftPolicy

universe u

/-- The numerals of the policy in any field. -/
instance ten_atLeastTwo : Nat.AtLeastTwo 10 := ⟨by decide⟩

/-- The other numeral of the policy, in any field. -/
instance twentyTwo_atLeastTwo : Nat.AtLeastTwo 22 := ⟨by decide⟩

/-- `Policy`. `power` is `n ** 0.7`; `lastMargin` and `lastKmax` are set by `choose`. -/
structure Policy (F : Type u) where
  edges : List F
  g : List (List F)
  t1 : ℕ → F
  rowMs : F
  power : ℕ → F
  lam : ℕ → Option F
  lastMargin : WithTop F
  lastKmax : ℕ

variable {F : Type u} [Field F] [LinearOrder F] (policy : Policy F)

/-- `ALPHA`, the weight of a new measurement in the price. -/
def alpha : F := 5 / 100

/-- `Policy.cost`: step time for `n` requests of `q` rows each. -/
def Policy.cost (n q : ℕ) : F :=
  policy.t1 (min (max (n * q) 2) 8) + ((n * q - 8 : ℕ) : F) * policy.rowMs

/-- The bin of a confidence: the number of edges at or below it, as `bisect_right` counts them. -/
def Policy.bin (lq : F) : ℕ := policy.edges.countP fun e => e ≤ lq

/-- The loop of `expect`: depth, running product and last expectation so far. -/
def Policy.expectFrom : ℕ → F → F → List F → List F
  | _, _, _, [] => []
  | s, cum, e, lq :: conf =>
    let cum := cum * (policy.g.getD s []).getD (policy.bin lq) 0
    (e + cum) :: Policy.expectFrom (s + 1) cum (e + cum) conf

/-- `Policy.expect`: the expected tokens of every length. -/
def Policy.expect (conf : List F) : List F := 1 :: policy.expectFrom 0 1 1 conf

/-- `sum(E[L] for E in Es)`: the tokens a batch can expect at a length. -/
def total (es : List (List F)) (L : ℕ) : F := (es.map fun e => e.getD L 0).sum

/-- The price of a millisecond for `n` requests. -/
def Policy.price (n : ℕ) : F := (policy.lam n).getD (22 / 10 / policy.cost 1 4 * policy.power n)

/-- `v` in the loop of `choose`: expected tokens less the priced cost of the step. -/
def Policy.value (lam : F) (es : List (List F)) (L : ℕ) : F :=
  total es L - lam * policy.cost es.length (L + 1)

/-- One round of the loop of `choose`: a strictly better value wins. -/
def Policy.round (lam : F) (es : List (List F)) (best : F × ℕ) (L : ℕ) : F × ℕ :=
  if best.1 < policy.value lam es L then (policy.value lam es L, L) else best

/-- `bL` after the loop of `choose`: the first length with the largest value. -/
def Policy.bestLength (lam : F) (es : List (List F)) (kmax : ℕ) : ℕ :=
  ((List.range' 1 kmax).foldl (policy.round lam es) (-10 ^ 30, kmax)).2

/-- `last_margin`: by how much the full length won. -/
def Policy.margin (lam : F) (es : List (List F)) (kmax : ℕ) : WithTop F :=
  if 1 < kmax then
    let vals := (List.range' 1 kmax).map (policy.value lam es)
    ((vals.getLast?.getD 0 - vals.dropLast.max?.getD 0 : F) : WithTop F)
  else ⊤

/-- `Policy.choose`: the length and the policy afterwards. -/
def Policy.choose (confs : List (List F)) (kmax : ℕ) : ℕ × Policy F :=
  let n := confs.length
  let es := confs.map fun conf => policy.expect (conf.take kmax)
  let lam := policy.price n
  let bL := policy.bestLength lam es kmax
  let rate := total es bL / policy.cost n (bL + 1)
  (bL, { policy with
    lam := Function.update policy.lam n (some ((1 - alpha) * lam + alpha * rate))
    lastMargin := policy.margin lam es kmax
    lastKmax := kmax })

end GlmSpark.DraftPolicy
