import GlmSpark.PriceUpdate
import GlmSpark.Ragged
import Mathlib.Tactic.IntervalCases

/-!
# The device select kernel

`select_kernel` chooses the draft length of a single request on the device. It reads the
policy's tables from tensors and keeps the price, the choices made and their counts for
one graph set. It mirrors `Policy.choose` for one request and seven drafts.
-/

namespace GlmSpark.DevSelect

open DraftPolicy PriceUpdate

universe u
variable {F : Type u} [Field F] [LinearOrder F]

/-- `KMAX`, the most drafts of a request that the kernel handles. -/
def kMax : ℕ := 7

/-- `RING`, the entries of the device's ring of decisions. -/
def ringSize : ℕ := 256

/-- `_dev_tensors`: what all graph sets share. `nb` is the width of a row of `g`. -/
structure Shared (F : Type u) where
  conf : List F
  valid : ℤ
  force : ℤ
  g : List F
  nb : ℕ
  edges : List F
  t1 : List F
  coef : F × F

/-- `_set_tensors`: what one graph set keeps on the device between its runs. -/
structure SetState (F : Type u) where
  lam : F
  pred : ℕ → Bool
  ring : ℕ → ℤ
  cnt : ℕ
  hist : ℤ → ℕ

/-- The tables of a policy as tensors; the rows of `g` lie one after the other. -/
def devTensors (policy : Policy F) (nb : ℕ) (conf : List F) (valid force : ℤ) : Shared F where
  conf := conf
  valid := valid
  force := force
  g := policy.g.flatten
  nb := nb
  edges := policy.edges
  t1 := (List.range (kMax + 2)).map fun m => if 2 ≤ m then policy.t1 m else 0
  coef := (alpha, 1 - alpha)

/-- The values the loop of the kernel carries. -/
structure Registers (F : Type u) where
  E : F
  cum : F
  best : F
  bE : F
  bL : ℕ

/-- The kernel's registers before the loop over the lengths. -/
def Registers.start (lam : F) : Registers F where
  E := lam * 0 + 1
  cum := lam * 0 + 1
  best := lam * 0 - 10 ^ 30
  bE := lam * 0 + 1
  bL := kMax

/-- The bucket of a confidence: one for every edge it reaches. -/
def bucket (edges : List F) (lq : F) : ℕ := edges.foldl (fun b e => b + if e ≤ lq then 1 else 0) 0

/-- One round of the loop: one more length is priced and compared with the best so far. -/
def Registers.round (sh : Shared F) (lam : F) (regs : Registers F) (s : ℕ) : Registers F :=
  let lq := sh.conf.getD s 0
  let b := bucket sh.edges lq
  let cum := regs.cum * sh.g.getD (s * sh.nb + b) 0
  let E := regs.E + cum
  let v := E - lam * sh.t1.getD (s + 2) 0
  let take := regs.best < v
  { E := E
    cum := cum
    best := if take then v else regs.best
    bE := if take then E else regs.bE
    bL := if take then s + 1 else regs.bL }

/-- The registers after the loop. -/
def Registers.after (sh : Shared F) (lam : F) (rounds : ℕ) : Registers F :=
  (List.range rounds).foldl (Registers.round sh lam) (.start lam)

/-- `select_kernel`: the length and the tensors of the graph set afterwards. -/
def selectKernel (sh : Shared F) (st : SetState F) : ℤ × SetState F :=
  let regs := Registers.after sh st.lam kMax
  let use := sh.valid ≠ 0
  let sel : ℤ := if use then regs.bL else kMax
  let sel := if 1 ≤ sh.force then sh.force else sel
  let newlam := sh.coef.2 * st.lam + sh.coef.1 * regs.bE / sh.t1.getD (regs.bL + 1) 0
  (sel, {
    lam := if use then newlam else st.lam
    pred := fun m => if 2 ≤ m ∧ m < kMax + 2 then decide (sel + 1 = m) else st.pred m
    ring := Function.update st.ring (st.cnt % ringSize) sel
    cnt := st.cnt + 1
    hist := Function.update st.hist sel (st.hist sel + 1) })

section Tables

omit [Field F] in
/-- The kernel's buckets are those of the policy. -/
theorem bucket_eq (edges : List F) (lq : F) : bucket edges lq = edges.countP fun e => e ≤ lq := by
  have counted : ∀ start, edges.foldl (fun b e => b + if e ≤ lq then 1 else 0) start =
      start + edges.countP fun e => e ≤ lq := by
    induction edges with
    | nil => exact fun start => rfl
    | cons e edges ih =>
      intro start
      rw [List.foldl_cons, ih, List.countP_cons]
      simp only [decide_eq_true_eq]
      omega
  rw [bucket, counted, Nat.zero_add]

/-- Seven rows of one width, wide enough for every bucket. -/
structure Tabled (policy : Policy F) (nb : ℕ) : Prop where
  rows : policy.g.length = kMax
  widths : ∀ row ∈ policy.g, row.length = nb
  buckets : policy.edges.length < nb

/-- A flat read of `g` is the entry of the policy. -/
theorem Tabled.g_read {policy : Policy F} {nb : ℕ} (tabled : Tabled policy nb) (s : ℕ) (lq : F) :
    policy.g.flatten.getD (s * nb + policy.bin lq) 0 = (policy.g.getD s []).getD (policy.bin lq) 0 := by
  have inside : policy.bin lq < nb := List.countP_le_length.trans_lt tabled.buckets
  rw [List.getD_eq_getElem?_getD, Ragged.flatten_uniform nb policy.g tabled.widths s _ inside,
    List.getD_eq_getElem?_getD, List.getD_eq_getElem?_getD]
  cases policy.g[s]? with
  | none => rfl
  | some row => rfl

omit [LinearOrder F] in
/-- The cost tensor holds the costs of one request. -/
theorem t1_read (policy : Policy F) (nb : ℕ) (conf : List F) (valid force : ℤ) {L : ℕ}
    (low : 1 ≤ L) (high : L ≤ kMax) :
    (devTensors policy nb conf valid force).t1.getD (L + 1) 0 = policy.cost 1 (L + 1) := by
  rw [kMax] at high
  have clamp : min (max (1 * (L + 1)) 2) 8 = L + 1 := by omega
  have extra : 1 * (L + 1) - 8 = 0 := by omega
  have inside : L + 1 < kMax + 2 := by rw [kMax]; omega
  rw [Policy.cost, clamp, extra, Nat.cast_zero, zero_mul, add_zero, devTensors]
  dsimp only
  rw [List.getD_eq_getElem?_getD, List.getElem?_map, List.getElem?_range inside, Option.map_some,
    Option.getD_some, if_pos (by omega)]

end Tables

section Survival

variable (policy : Policy F)

/-- The factor of a draft position, from the table row of its bin. -/
def factor (conf : List F) (s : ℕ) : F := (policy.g.getD s []).getD (policy.bin (conf.getD s 0)) 0

/-- The running product of `expect` after some positions. -/
def survival (conf : List F) (s : ℕ) : F := ((List.range s).map (factor policy conf)).prod

/-- The survival of one more position is that of the positions before times the factor of its own
confidence. -/
theorem survival_succ (conf : List F) (s : ℕ) :
    survival policy conf (s + 1) = survival policy conf s * factor policy conf s := by
  rw [survival, List.range_succ, List.map_append, List.prod_append, List.map_singleton,
    List.prod_singleton, survival]

/-- The loop of `expect` adds the running product at every position. -/
theorem expectFrom_succ (conf : List F) (s : ℕ) (cum e : F) {k : ℕ} (inside : k < conf.length) :
    (e :: policy.expectFrom s cum e conf).getD (k + 1) 0 =
      (e :: policy.expectFrom s cum e conf).getD k 0 + cum * ((List.range (k + 1)).map fun i =>
        (policy.g.getD (s + i) []).getD (policy.bin (conf.getD i 0)) 0).prod := by
  induction conf generalizing s cum e k with
  | nil => exact absurd inside (Nat.not_lt_zero k)
  | cons lq conf ih =>
    rw [Policy.expectFrom]
    cases k with
    | zero => simp
    | succ k =>
      have later := ih (s + 1) (cum * (policy.g.getD s []).getD (policy.bin lq) 0)
        (e + cum * (policy.g.getD s []).getD (policy.bin lq) 0)
        (Nat.lt_of_succ_lt_succ inside)
      rw [List.range_succ_eq_map, List.map_cons, List.prod_cons, List.map_map, ← mul_assoc]
      refine later.trans (congrArg₂ (· + ·) rfl (congrArg₂ (· * ·) rfl
        (congrArg List.prod (List.map_congr_left fun i _ => ?_))))
      rw [Function.comp_apply, List.getD_cons_succ, Nat.succ_eq_add_one, Nat.add_right_comm s 1 i,
        Nat.add_assoc]

/-- One more draft adds its survival to the expected number of tokens, as the prefix sums of the
kernel do. -/
theorem expect_succ (conf : List F) {k : ℕ} (inside : k < conf.length) :
    (policy.expect conf).getD (k + 1) 0 =
      (policy.expect conf).getD k 0 + survival policy conf (k + 1) := by
  have step := expectFrom_succ policy conf 0 1 1 inside
  simp only [Nat.zero_add, one_mul] at step
  exact step

end Survival

section Loop

variable {policy : Policy F} {nb : ℕ}

/-- After some rounds the registers hold what the loops of `expect` and `choose` hold, but for the
expectation kept beside the best value. -/
structure Mirrors (policy : Policy F) (lam : F) (conf : List F) (rounds : ℕ) (regs : Registers F) :
    Prop where
  E : regs.E = (policy.expect conf).getD rounds 0
  cum : regs.cum = survival policy conf rounds
  best : (regs.best, regs.bL) = (List.range' 1 rounds).foldl
    (policy.round lam [policy.expect conf]) (-10 ^ 30, kMax)
  floor : -10 ^ 30 ≤ regs.best
  bE : regs.bE = if -10 ^ 30 < regs.best then (policy.expect conf).getD regs.bL 0 else 1

omit [LinearOrder F] in
/-- The total over a batch of one request is that request's own expectation. -/
theorem total_single (es : List F) (L : ℕ) : total [es] L = es.getD L 0 := by
  rw [total, List.map_singleton, List.sum_singleton]

/-- One round of the kernel is one round of both loops of the policy. -/
theorem Mirrors.round (tabled : Tabled policy nb) {lam : F} {conf : List F} {valid force : ℤ}
    {s : ℕ} {regs : Registers F} (inside : s < conf.length) (bounded : s < kMax)
    (mirrors : Mirrors policy lam conf s regs) :
    Mirrors policy lam conf (s + 1) (regs.round (devTensors policy nb conf valid force) lam s) := by
  have cost := t1_read policy nb conf valid force (L := s + 1) (by omega) (by omega)
  have entry : (devTensors policy nb conf valid force).g.getD
      (s * nb + bucket policy.edges (conf.getD s 0)) 0 = factor policy conf s := by
    rw [bucket_eq]
    exact tabled.g_read s (conf.getD s 0)
  have cum : regs.cum * factor policy conf s = survival policy conf (s + 1) := by
    rw [mirrors.cum, survival_succ]
  have E : regs.E + survival policy conf (s + 1) = (policy.expect conf).getD (s + 1) 0 := by
    rw [mirrors.E, expect_succ policy conf inside]
  have value : (policy.expect conf).getD (s + 1) 0 - lam * policy.cost 1 (s + 1 + 1) =
      policy.value lam [policy.expect conf] (s + 1) := by
    rw [Policy.value, total_single, List.length_singleton]
  have next : regs.round (devTensors policy nb conf valid force) lam s =
      { E := (policy.expect conf).getD (s + 1) 0
        cum := survival policy conf (s + 1)
        best := if regs.best < policy.value lam [policy.expect conf] (s + 1) then
          policy.value lam [policy.expect conf] (s + 1) else regs.best
        bE := if regs.best < policy.value lam [policy.expect conf] (s + 1) then
          (policy.expect conf).getD (s + 1) 0 else regs.bE
        bL := if regs.best < policy.value lam [policy.expect conf] (s + 1) then s + 1
          else regs.bL } := by
    rw [← value, ← E, ← cum, ← entry, ← cost]
    rfl
  rw [next]
  constructor
  case E => rfl
  case cum => rfl
  case best =>
    rw [List.range'_1_concat, List.foldl_append, ← mirrors.best, List.foldl_cons, List.foldl_nil,
      Nat.add_comm 1 s, Policy.round]
    split <;> rfl
  case floor =>
    dsimp only
    split
    next taken => exact mirrors.floor.trans taken.le
    next => exact mirrors.floor
  case bE =>
    dsimp only
    split
    next taken => rw [if_pos (mirrors.floor.trans_lt taken)]
    next => exact mirrors.bE

/-- The registers after the whole loop mirror the policy. -/
theorem mirrors_after (tabled : Tabled policy nb) (lam : F) {conf : List F} (valid force : ℤ)
    {rounds : ℕ} (inside : rounds ≤ conf.length) (bounded : rounds ≤ kMax) :
    Mirrors policy lam conf rounds
      (Registers.after (devTensors policy nb conf valid force) lam rounds) := by
  induction rounds with
  | zero =>
    have start : lam * 0 - 10 ^ 30 = -10 ^ 30 := by rw [mul_zero, zero_sub]
    have one : lam * 0 + 1 = 1 := by rw [mul_zero, zero_add]
    rw [Registers.after, List.range_zero, List.foldl_nil, Registers.start, start, one]
    constructor
    case E => rfl
    case cum => rfl
    case best => rfl
    case floor => exact le_rfl
    case bE => rw [if_neg (lt_irrefl _)]
  | succ rounds ih =>
    rw [Registers.after, List.range_succ, List.foldl_append, List.foldl_cons, List.foldl_nil]
    exact (ih (by omega) (by omega)).round tabled inside bounded

/-- The kernel's length is the policy's, and its best value passes the sentinel where some length
does. -/
theorem Mirrors.chosen {lam : F} {conf : List F} {regs : Registers F}
    (mirrors : Mirrors policy lam conf kMax regs) :
    regs.bL = policy.bestLength lam [policy.expect conf] kMax ∧ 1 ≤ regs.bL ∧ regs.bL ≤ kMax ∧
      (-10 ^ 30 < regs.best ↔ ∃ L, 1 ≤ L ∧ L ≤ kMax ∧
        -10 ^ 30 < policy.value lam [policy.expect conf] L) ∧
      (¬ -10 ^ 30 < regs.best → regs.bL = kMax) := by
  have reached := bestLength_outcome policy lam [policy.expect conf] kMax
  have same := mirrors.best
  refine ⟨by rw [Policy.bestLength, ← same], ?_⟩
  rw [← same] at reached
  generalize regs.best = best at reached ⊢
  generalize regs.bL = bL at reached ⊢
  generalize held : (best, bL) = both at reached
  cases reached with
  | kept below =>
    obtain ⟨rfl, rfl⟩ := Prod.mk.inj held
    refine ⟨by decide, le_rfl, ⟨fun above => absurd above (lt_irrefl _), ?_⟩, fun _ => rfl⟩
    rintro ⟨L, low, high, above⟩
    exact absurd above (below L (List.mem_range'_1.mpr ⟨low, by omega⟩)).not_gt
  | found item there above =>
    obtain ⟨rfl, rfl⟩ := Prod.mk.inj held
    obtain ⟨low, high⟩ := List.mem_range'_1.mp there
    exact ⟨low, by omega, ⟨fun _ => ⟨bL, low, by omega, above⟩, fun _ => above⟩,
      fun not => absurd above not⟩

end Loop

section Results

/-- The kernel decides as the policy does for one request and all seven drafts; without a valid
confidence it takes seven and keeps the price. -/
def Agrees (policy : Policy F) (sh : Shared F) (st : SetState F) : Prop :=
  (sh.valid ≠ 0 →
    (selectKernel sh st).1 = (policy.choose [sh.conf] kMax).1 ∧
      (selectKernel sh st).2.lam = (policy.choose [sh.conf] kMax).2.price 1) ∧
  (sh.valid = 0 → (selectKernel sh st).1 = kMax ∧ (selectKernel sh st).2.lam = st.lam)

/-- Without a forced length the kernel's length is the one of its registers. -/
theorem select_length (sh : Shared F) (st : SetState F) (free : sh.force < 1) :
    (selectKernel sh st).1 =
      if sh.valid ≠ 0 then ((Registers.after sh st.lam kMax).bL : ℤ) else kMax := by
  rw [selectKernel]
  dsimp only
  rw [if_neg free.not_ge]

variable {policy : Policy F} {nb : ℕ}

/-- What the kernel kept beside its best value is the expectation of its length, except where no
length's value passes the sentinel. -/
theorem Mirrors.expectation_iff {lam : F} {conf : List F} {regs : Registers F}
    (mirrors : Mirrors policy lam conf kMax regs) :
    regs.bE = (policy.expect conf).getD regs.bL 0 ↔
      (∃ L, 1 ≤ L ∧ L ≤ kMax ∧ -10 ^ 30 < policy.value lam [policy.expect conf] L) ∨
        (policy.expect conf).getD kMax 0 = 1 := by
  obtain ⟨_, _, _, above, none_above⟩ := mirrors.chosen
  rw [mirrors.bE, ← above]
  by_cases passed : -10 ^ 30 < regs.best
  · rw [if_pos passed]
    exact ⟨fun _ => Or.inl passed, fun _ => rfl⟩
  · rw [if_neg passed, none_above passed, or_iff_right passed]
    exact eq_comm

variable [IsStrictOrderedRing F]

/-- The length is always the policy's. The price is too, except where no length's value passes the
sentinel: there the policy counts all seven drafts and the kernel none. -/
theorem select_agrees_iff (tabled : Tabled policy nb) (priced : Priced policy 1 kMax)
    {conf : List F} (seven : conf.length = kMax) (valid : ℤ) {force : ℤ} (free : force < 1)
    {st : SetState F} (shared : st.lam = policy.price 1) :
    Agrees policy (devTensors policy nb conf valid force) st ↔
      valid = 0 ∨
        (∃ L, 1 ≤ L ∧ L ≤ kMax ∧ -10 ^ 30 < policy.value st.lam [policy.expect conf] L) ∨
        (policy.expect conf).getD kMax 0 = 1 := by
  have mirrors := mirrors_after tabled st.lam valid force seven.ge le_rfl
  have length := select_length (devTensors policy nb conf valid force) st free
  have expectation := mirrors.expectation_iff
  obtain ⟨chosen, low, high, _⟩ := mirrors.chosen
  have size : expectations policy [conf] kMax = [policy.expect conf] := by
    rw [expectations, List.map_singleton, List.take_of_length_le seven.le]
  have positive := (priced _ low high).ne'
  have weight := (alpha_bounds (F := F)).1.ne'
  have cost := t1_read policy nb conf valid force low high
  have host_length : (policy.choose [conf] kMax).1 =
      (Registers.after (devTensors policy nb conf valid force) st.lam kMax).bL := by
    rw [chosen, choose_length, size, shared]
    rfl
  have host_price := choose_price policy [conf] kMax
  rw [size, host_length, rate, total_single, List.length_singleton, List.length_singleton, ← shared]
    at host_price
  by_cases idle : valid = 0
  · refine iff_of_true ⟨fun use => absurd idle use, fun _ => ?_⟩ (Or.inl idle)
    refine ⟨length.trans (if_neg (not_not.mpr idle)), ?_⟩
    rw [selectKernel]
    exact if_neg (not_not.mpr idle)
  · have price : (selectKernel (devTensors policy nb conf valid force) st).2.lam =
        (1 - alpha) * st.lam + alpha *
          (Registers.after (devTensors policy nb conf valid force) st.lam kMax).bE /
            policy.cost 1
              ((Registers.after (devTensors policy nb conf valid force) st.lam kMax).bL + 1) := by
      rw [← cost, selectKernel]
      exact if_pos idle
    rw [or_iff_right idle, ← expectation, Agrees, price, length,
      show (devTensors policy nb conf valid force).conf = conf from rfl, host_price, host_length,
      if_pos (show (devTensors policy nb conf valid force).valid ≠ 0 from idle), mul_div_assoc,
      add_right_inj, mul_right_inj' weight, div_left_inj' positive]
    exact ⟨fun agrees => (agrees.1 idle).2,
      fun same => ⟨fun _ => ⟨rfl, same⟩, fun zero => absurd zero idle⟩⟩

/-- Seven rows with one bucket each, every draft accepted half the time, every step a millisecond. -/
def halves (lam : ℚ) : Policy ℚ where
  edges := []
  g := List.replicate 7 [1 / 2]
  t1 := fun _ => 1
  rowMs := 1
  power := fun _ => 1
  lam := fun _ => some lam
  lastMargin := ⊤
  lastKmax := 0

/-- A graph set with a price. -/
def priced (lam : ℚ) : SetState ℚ := ⟨lam, fun _ => false, fun _ => 0, 0, fun _ => 0⟩

/-- The tables of `halves` are well formed. -/
theorem halves_tabled (lam : ℚ) : Tabled (halves lam) 1 :=
  ⟨rfl, fun _ listed => by rw [List.eq_of_mem_replicate listed]; rfl, Nat.one_pos⟩

/-- The steps of that policy have a positive cost, as the theorem assumes of prices. -/
theorem halves_priced (lam : ℚ) : Priced (halves lam) 1 kMax := by
  intro L low high
  change 0 < (halves 0).cost 1 (L + 1)
  rw [kMax] at high
  interval_cases L <;> decide +kernel

/-- `select_agrees_iff` at a price of a tenth. -/
theorem select_agrees_halves :
    Agrees (halves (1 / 10)) (devTensors (halves (1 / 10)) 1 (List.replicate 7 0) 1 (-1))
      (priced (1 / 10)) :=
  (select_agrees_iff (halves_tabled _) (halves_priced _) (by decide) 1 (by decide) rfl).mpr
    (Or.inr (Or.inl ⟨1, by decide, by decide, by decide +kernel⟩))

/-- Seven rows with one bucket each: the first draft is worth `10 ^ 33` tokens, the other six never
survive, and every step costs a millisecond at a price of `1.01 * 10 ^ 33`. -/
def surge : Policy ℚ :=
  { halves (101 * 10 ^ 31) with g := [10 ^ 33] :: List.replicate 6 [0] }

/-- Every value of `surge` is `1 - 10 ^ 31`, which is below the sentinel, so both sides keep seven
drafts; the host then adds a share of `10 ^ 33 + 1` tokens to the price and the kernel a share of
one. The two prices are some `5 * 10 ^ 31` apart, far more than double precision rounds away. -/
theorem steep_price_disagrees :
    Tabled surge 1 ∧ Priced surge 1 kMax ∧
      ¬ Agrees surge (devTensors surge 1 (List.replicate 7 0) 1 (-1)) (priced (101 * 10 ^ 31)) := by
  refine ⟨⟨rfl, by decide +kernel, by decide⟩, ?_, fun agrees => ?_⟩
  · intro L low high
    rw [kMax] at high
    interval_cases L <;> decide +kernel
  · have same := (agrees.1 (by decide)).2
    revert same
    decide +kernel

end Results

end GlmSpark.DevSelect
