import GlmSpark.Dict
import GlmSpark.LookupIndex
import GlmSpark.LookupRows
import Mathlib.Algebra.Order.Ring.Rat
import Mathlib.Data.List.Sort

/-!
# The lookup planner

`LookupPlanner` of `glm_lookup_draft.py` decides, step by step, which requests draft by
copying from their own committed tokens. It keeps an index and estimates for every
request, hands out plan rows, and learns from the outputs which source had made the
drafts they verify.

Each call is a function of the planner. A call that raises has no answer but leaves a
planner behind: an exception in the middle of a loop keeps what was written before it.
Times and estimates are rational numbers.
-/

namespace GlmSpark.LookupPlanner

open LookupIndex LookupRows

/-- `MODE_NEURAL`, `MODE_SKIP` and `MODE_OVERRIDE`. -/
inductive Mode
  | neural
  | skip
  | override
  deriving DecidableEq, Repr

/-- `SRC_NONE`, `SRC_NEURAL`, `SRC_LOOKUP` and `SRC_JUNK`. -/
inductive Source
  | none
  | neural
  | lookup
  | junk
  deriving DecidableEq, Repr

/-- `LookupConfig.mode`. -/
inductive Switch
  | off
  | shadow
  | on
  deriving DecidableEq, Repr

/-- `LookupConfig.force`; `free` is the empty string. -/
inductive Force
  | free
  | neural
  | skip
  | override
  | altSkip
  | altOverride
  deriving DecidableEq, Repr

/-- `force.startswith("alt-")`, the test-only modes. -/
def Force.alternating : Force → Bool
  | .altSkip => true
  | .altOverride => true
  | _ => false

/-- `LookupConfig`, with the checks of `__post_init__`; `numpy` says whether it was imported. -/
structure LookupConfig where
  mode : Switch
  nMin : ℕ
  nMax : ℕ
  minAgree : ℕ
  maxAgree : ℕ
  maxBatch : ℕ
  skip : Bool
  skipStreak : Bool
  periodic : Bool
  maxDelta : ℕ
  margin : ℚ
  alpha : ℚ
  minObs : ℕ
  force : Force
  hotTokens : ℕ
  bulkMin : ℕ
  ingestBudget : ℕ
  numpy : Bool
  sizes : 1 ≤ nMin ∧ nMin ≤ nMax ∧ nMax ≤ 8
  window : 1 ≤ maxDelta ∧ maxDelta ≤ 256
  limits : 1 ≤ maxBatch ∧ 16 ≤ hotTokens ∧ 1 ≤ ingestBudget

/-- What `state` builds an index with: `ns = range(n_min, n_max + 1)`. -/
def LookupConfig.settings (cfg : LookupConfig) : Settings where
  ns := List.range' cfg.nMin (cfg.nMax + 1 - cfg.nMin)
  increasing := List.pairwise_lt_range'
  nonempty := by
    have sizes := cfg.sizes
    rw [ne_eq, List.range'_eq_nil_iff]
    omega
  positive := by
    intro n listed
    have sizes := cfg.sizes
    rw [List.mem_range'_1] at listed
    omega
  hotLimit := cfg.hotTokens
  bulkMin := cfg.bulkMin
  numpy := cfg.numpy

/-- `CostModel`; the points are sorted by draft length. -/
structure CostModel where
  points : List (ℕ × ℚ)
  increasing : (points.map Prod.fst).Pairwise (· < ·)
  nonempty : points ≠ []
  draft : ℚ
  learn : Bool
  alpha : ℚ
  minSamples : ℕ
  learned : List ((ℕ × Bool) × (ℚ × ℕ))
  seen : List (ℕ × Bool)

/-- The two points `verify` interpolates between: the first pair whose end reaches `k`, or the
last one. -/
def around (k : ℕ) (lo hi : ℕ × ℚ) : List (ℕ × ℚ) → (ℕ × ℚ) × (ℕ × ℚ)
  | [] => (lo, hi)
  | next :: rest => if k ≤ hi.1 then (lo, hi) else around k hi next rest

/-- `CostModel.verify`. -/
def CostModel.verify (cost : CostModel) (k : ℕ) : ℚ :=
  match cost.points with
  | [] => 0
  | [only] => only.2
  | first :: second :: rest =>
    let (lo, hi) := around k first second rest
    if hi.1 = k then hi.2
    else
      let slope := (hi.2 - lo.2) / ((hi.1 : ℚ) - lo.1)
      lo.2 + slope * ((k : ℚ) - lo.1)

/-- `CostModel.step`. -/
def CostModel.step (cost : CostModel) (k : ℕ) (drafted : Bool) : ℚ :=
  let table := cost.verify k + if drafted then cost.draft else 0
  match cost.learned.lookup (k, drafted) with
  | some (ms, n) => if cost.learn ∧ cost.minSamples ≤ n then ms else table
  | none => table

/-- `CostModel.observe`. The first sample of a shape is dropped. -/
def CostModel.observe (cost : CostModel) (k : ℕ) (drafted : Bool) (ms : ℚ) : CostModel :=
  let key := (k, drafted)
  if key ∉ cost.seen then { cost with seen := key :: cost.seen }
  else if ms ≤ 0 ∨ 10 * cost.step k drafted < ms then cost
  else
    -- `setdefault` stores the cell also when the sample is then refused as a stall
    let cell := (cost.learned.lookup key).getD (ms, 0)
    if cost.minSamples ≤ cell.2 ∧ 5 / 2 * cell.1 < ms then
      { cost with learned := Dict.assign key cell cost.learned }
    else
      let price := if cell.2 = 0 then ms else cost.alpha * ms + (1 - cost.alpha) * cell.1
      { cost with learned := Dict.assign key (price, cell.2 + 1) cost.learned }

/-- `agreement_class` over `CLASS_EDGES`. -/
def agreementClass (agree : ℕ) : Fin 3 := if agree < 8 then 0 else if agree < 32 then 1 else 2

/-- `Shadow`: the copy a request follows, with the length of the history it was found at, its class
and how far it agreed. -/
structure Shadow where
  src : ℕ
  lhost : ℕ
  cls : Fin 3
  agree : ℕ
  n : ℕ
  deriving DecidableEq, Repr

/-- `PlanRec`: what was planned for a request in one step. -/
structure PlanRec where
  mode : Mode
  k : ℕ
  shadow : Option Shadow
  deriving DecidableEq, Repr

/-- `Pending`: a step that was classified and waits for the tokens its copy would have drafted. -/
structure Pending where
  p : ℕ
  shadow : Shadow
  ok : Bool
  source : Source
  k : ℕ
  accepted : ℕ
  deriving DecidableEq, Repr

/-- `ReqState.cur`: what `classify` leaves for `observe`. -/
structure Current where
  seq : ℕ
  plan : PlanRec
  ok : Bool
  source : Source
  preLen : ℕ
  deriving DecidableEq, Repr

/-- `ReqState`; the plans in the order of the dictionary. -/
structure ReqState where
  idx : ContextIndex
  pLookup : Fin 3 → List ℚ
  fLookup : Fin 3 → ℚ
  nLookup : Fin 3 → ℕ
  pNeural : List ℚ
  plans : List (ℕ × PlanRec)
  pending : List Pending
  cur : Option Current
  prevLookup : Bool
  lastShadow : Option Shadow
  streak : Bool

/-- `NEURAL_PRIOR`: the estimates of a request without observations. -/
def neuralPrior : List ℚ := [62 / 100, 40 / 100, 28 / 100, 20 / 100, 15 / 100, 12 / 100, 10 / 100]

/-- `ReqState(ContextIndex(...), engine_k)`. -/
def ReqState.fresh (kmax : ℕ) : ReqState where
  idx := ContextIndex.empty
  pLookup _ := List.replicate kmax 0
  fLookup _ := 0
  nLookup _ := 0
  pNeural := (List.range kmax).map fun j => neuralPrior.getD (min j (neuralPrior.length - 1)) 0
  plans := []
  pending := []
  cur := none
  prevLookup := false
  lastShadow := none
  streak := false

/-- `expected_tokens`: the target's own token and the expected drafts. -/
def expectedTokens (p : List ℚ) (k : ℕ) : ℚ := 1 + (p.take k).sum

/-- A rate with the mode and the length it is for; `best` of `choose`. -/
abbrev Rated := ℚ × Mode × ℕ

/-- One candidate length in `choose`: the skip first, then the override. The price of a step is
a number of milliseconds and taken to be positive; at zero the division here is zero where Python
raises. -/
def consider (st : ReqState) (cls : Fin 3) (cost : CostModel) (allowSkip : Bool) (best : Rated)
    (k : ℕ) : Rated :=
  let f := st.fLookup cls
  let el := (1 - f) * expectedTokens (st.pLookup cls) k
  let skipped := (el + f * 1) / cost.step k false
  let best := if allowSkip ∧ best.1 < skipped then (skipped, .skip, k) else best
  let overridden := (el + f * expectedTokens st.pNeural k) / cost.step k true
  if best.1 < overridden then (overridden, .override, k) else best

/-- `choose` without a forced mode. Its rates divide by prices of steps, which are positive as in
`consider`. -/
def chooseFree (st : ReqState) (cls : Fin 3) (kPolicy : ℕ) (cands : List ℕ) (cost : CostModel)
    (cfg : LookupConfig) (allowSkip : Bool) : Mode × ℕ :=
  let kPolicy := max 1 kPolicy
  let rateNeural := expectedTokens st.pNeural kPolicy / cost.step kPolicy true
  if st.nLookup cls < cfg.minObs then (.neural, kPolicy)
  else
    let best := cands.foldl (consider st cls cost allowSkip) (0, .neural, kPolicy)
    let need := rateNeural * if st.prevLookup then 1 - cfg.margin else 1 + cfg.margin
    if best.2.1 ≠ .neural ∧ need < best.1 then best.2 else (.neural, kPolicy)

/-- `choose`: drafter or copy, and how many drafts, by the expected tokens a millisecond; a forced
mode comes first. -/
def choose (st : ReqState) (cls : Fin 3) (kPolicy : ℕ) (cands : List ℕ) (cost : CostModel)
    (cfg : LookupConfig) (allowSkip : Bool) : Mode × ℕ :=
  match cfg.force with
  | .neural => (.neural, kPolicy)
  | .skip => if allowSkip then (.skip, cands.foldl max 0) else (.override, cands.foldl max 0)
  | .override => (.override, cands.foldl max 0)
  | _ => chooseFree st cls kPolicy cands cost cfg allowSkip

/-- `_ema_vec`: the leading estimates move towards what happened, the rest is kept. -/
def emaVec (vec : List ℚ) (value upto : ℕ) (alpha : ℚ) : List ℚ :=
  vec.mapIdx fun j old =>
    if j < upto then alpha * (if j + 1 ≤ value then 1 else 0) + (1 - alpha) * old else old

/-- What a planner is built with; `families` as the caller gives them. -/
structure Engine where
  cfg : LookupConfig
  engineK : ℕ
  familyTable : List ℕ
  cost : CostModel

/-- `self.families`. -/
def Engine.families (engine : Engine) : List ℕ :=
  let fam := (engine.familyTable.filter fun k => 1 ≤ k ∧ k ≤ engine.engineK).dedup.insertionSort
    (· ≤ ·)
  if fam = [] then [engine.engineK] else fam

universe u
variable {κ : Type u} [DecidableEq κ]

/-- `LookupPlanner`: prices, request states and the accounting counters. -/
structure Planner (κ : Type u) where
  cost : CostModel
  states : κ → Option ReqState
  acctOk : ℕ
  acctMismatch : ℕ

/-- `LookupPlanner.__init__`. -/
def Engine.start (engine : Engine) : Planner κ := ⟨engine.cost, fun _ => none, 0, 0⟩

/-- `state`: the request's state, a fresh one for an unknown request. -/
def Planner.state (engine : Engine) (planner : Planner κ) (rid : κ) : ReqState :=
  (planner.states rid).getD (ReqState.fresh engine.engineK)

/-- Write a request's state back. -/
def Planner.put (planner : Planner κ) (rid : κ) (st : ReqState) : Planner κ :=
  { planner with states := Function.update planner.states rid (some st) }

/-- Writing a request's state changes no other request's. -/
theorem Planner.states_put (planner : Planner κ) (rid other : κ) (st : ReqState) :
    (planner.put rid st).states other = if other = rid then some st else planner.states other :=
  Function.update_apply _ _ _ _

/-- `evict`. -/
def Planner.evict (planner : Planner κ) (rid : κ) : Planner κ :=
  { planner with states := Function.update planner.states rid none }

/-- Evicting a request forgets that request only. -/
theorem Planner.states_evict (planner : Planner κ) (rid other : κ) :
    (planner.evict rid).states other = if other = rid then none else planner.states other :=
  Function.update_apply _ _ _ _

/-- `toks[start:stop]`. -/
def slice (toks : List ℤ) (start stop : ℕ) : List ℤ := (toks.take stop).drop start

/-- The test of `_sticky`: the tokens since the shadow continued the copy. -/
def follows (cfg : LookupConfig) (toks : List ℤ) (s0 : Shadow) : Prop :=
  s0.lhost ≤ toks.length ∧ toks.length - s0.lhost ≤ 4 * cfg.maxDelta ∧
    slice toks s0.lhost toks.length = slice toks s0.src (s0.src + (toks.length - s0.lhost))

/-- Whether the tokens since a shadow was taken continue its copy is decided by comparing two
slices. -/
instance (cfg : LookupConfig) (toks : List ℤ) (s0 : Shadow) : Decidable (follows cfg toks s0) := by
  unfold follows; infer_instance

/-- `_sticky` of a remembered shadow: the same copy, further along by the tokens committed since. -/
def advance (cfg : LookupConfig) (toks : List ℤ) (s0 : Shadow) : Option Shadow :=
  if follows cfg toks s0 then
    let d := toks.length - s0.lhost
    let agree := min cfg.maxAgree (s0.agree + d)
    some ⟨s0.src + d, toks.length, agreementClass agree, agree, min cfg.nMax agree⟩
  else none

/-- `_sticky`: the shadow of the last plan, where the tokens since have followed it. -/
def sticky (cfg : LookupConfig) (st : ReqState) : Option Shadow :=
  st.lastShadow.bind (advance cfg st.idx.tokens)

/-- The shadow of the index's match, when it agrees far enough. -/
def matched (cfg : LookupConfig) (idx : ContextIndex) : Option Shadow :=
  match idx.match cfg.settings cfg.nMin cfg.nMax cfg.maxAgree with
  | some m =>
    if cfg.minAgree ≤ m.agree then some ⟨m.src, m.length, agreementClass m.agree, m.agree, m.n⟩
    else none
  | none => none

/-- The shadow `plan` goes on with: the sticky one if it agrees further than the match. -/
def follow (cfg : LookupConfig) (st : ReqState) : Option Shadow :=
  match sticky cfg st, matched cfg st.idx with
  | some kept, some shadow => if shadow.agree < kept.agree then some kept else some shadow
  | some kept, none => some kept
  | none, shadow => shadow

/-- The first half of the loop of `plan`: the state after `sync`, the shadow, and the tokens used. -/
def refresh (cfg : LookupConfig) (st : ReqState) (tokens : List ℤ) (budget : ℤ) :
    ReqState × Option Shadow × ℕ :=
  let (idx, caught, used) := sync cfg.settings st.idx tokens budget
  let st := { st with idx := idx }
  if caught then
    let shadow := follow cfg st
    ({ st with lastShadow := shadow }, shadow, used)
  else (st, none, used)

/-- `PlanEntry`. -/
structure PlanEntry (κ : Type u) where
  rid : κ
  tokens : List ℤ
  eligible : Bool
  kPolicy : ℕ
  fixedK : Bool

/-- A row of a plan: `(mode, src, lhost, K)`. -/
structure Row where
  mode : Mode
  src : ℕ
  lhost : ℕ
  k : ℕ
  deriving DecidableEq, Repr

/-- `StepPlan`. -/
structure StepPlan (κ : Type u) where
  seq : ℕ
  rows : List (κ × Row)
  skip : Bool
  kOverride : List (κ × ℕ)

/-- What one call of `plan` does not change: the step, the batch size and the number of entries. -/
structure PlanCall where
  seq : ℕ
  nBatch : ℕ
  entries : ℕ

/-- `can_plan`. -/
def PlanCall.canPlan (call : PlanCall) (cfg : LookupConfig) : Bool :=
  cfg.mode = .on ∧ call.nBatch ≤ cfg.maxBatch

/-- Plans whose output never came are forgotten, but for the newest eight. -/
def prunePlans (plans : List (ℕ × PlanRec)) : List (ℕ × PlanRec) :=
  if 8 < plans.length then
    (((plans.map Prod.fst).insertionSort (· ≤ ·)).take (plans.length - 8)).foldl
      (fun plans seq => Dict.erase seq plans) plans
  else plans

/-- The state of the loop of `plan`. -/
structure PlanLoop (κ : Type u) where
  planner : Planner κ
  budget : ℤ
  rows : List (κ × Row)
  kOver : List (κ × ℕ)

/-- The candidate lengths of an entry. -/
def candidates (engine : Engine) (call : PlanCall) (e : PlanEntry κ) : List ℕ :=
  if call.nBatch = 1 ∧ ¬ e.fixedK then engine.families
  else
    let same := engine.families.filter fun k => k = e.kPolicy
    if same = [] then [e.kPolicy] else same

/-- `allow_skip`. -/
def allowSkip (cfg : LookupConfig) (call : PlanCall) (st : ReqState) : Bool :=
  cfg.skip ∧ call.nBatch = call.entries ∧ (st.streak ∨ ¬ cfg.skipStreak ∨ cfg.force = .skip)

/-- Mode, length and shadow of an entry outside the alternating modes. -/
def decideMode (engine : Engine) (call : PlanCall) (cost : CostModel) (e : PlanEntry κ)
    (st : ReqState) (shadow : Option Shadow) : Mode × ℕ :=
  match shadow with
  | some s =>
    if call.canPlan engine.cfg ∧ e.eligible ∧ 0 < e.kPolicy then
      choose st s.cls e.kPolicy (candidates engine call e) cost engine.cfg
        (allowSkip engine.cfg call st)
    else (.neural, e.kPolicy)
  | none => (.neural, e.kPolicy)

/-- An entry in the test-only alternating modes. -/
def planAlternating (engine : Engine) (call : PlanCall) (loop : PlanLoop κ) (e : PlanEntry κ)
    (st : ReqState) (shadow : Option Shadow) : PlanLoop κ :=
  if call.seq % 2 = 0 then
    let mode : Mode := if engine.cfg.force = .altSkip ∧ call.nBatch = call.entries then .skip
      else .override
    let (src, lh) := match shadow with
      | some s => (s.src, s.lhost)
      | none => (st.idx.tokens.length - 1, st.idx.tokens.length)
    { loop with
      planner := loop.planner.put e.rid
        { st with plans := Dict.assign call.seq ⟨mode, e.kPolicy, shadow⟩ st.plans }
      rows := Dict.assign e.rid ⟨mode, src, lh, e.kPolicy⟩ loop.rows }
  else
    { loop with
      planner := loop.planner.put e.rid
        { st with plans := Dict.assign call.seq ⟨.neural, e.kPolicy, shadow⟩ st.plans } }

/-- An entry outside the alternating modes. -/
def planChosen (engine : Engine) (call : PlanCall) (loop : PlanLoop κ) (e : PlanEntry κ)
    (st : ReqState) (shadow : Option Shadow) : PlanLoop κ :=
  let (mode, k) := decideMode engine call loop.planner.cost e st shadow
  let planner := loop.planner.put e.rid
    { st with plans := prunePlans (Dict.assign call.seq ⟨mode, k, shadow⟩ st.plans) }
  match shadow with
  | some s =>
    if mode ≠ .neural then
      { loop with
        planner := planner
        rows := Dict.assign e.rid ⟨mode, s.src, s.lhost, k⟩ loop.rows
        kOver := if k ≠ e.kPolicy then Dict.assign e.rid k loop.kOver else loop.kOver }
    else { loop with planner := planner }
  | none => { loop with planner := planner }

/-- One entry of `plan`: the index is brought up to date, a shadow found or followed, and a mode
chosen. -/
def planEntry (engine : Engine) (call : PlanCall) (loop : PlanLoop κ) (e : PlanEntry κ) :
    PlanLoop κ :=
  let (st, shadow, used) := refresh engine.cfg (loop.planner.state engine e.rid) e.tokens loop.budget
  let loop := { loop with budget := loop.budget - used }
  if engine.cfg.force.alternating ∧ call.canPlan engine.cfg ∧ e.eligible ∧ 0 < e.kPolicy then
    planAlternating engine call loop e st shadow
  else planChosen engine call loop e st shadow

/-- A skip row becomes an override row. -/
def Row.converted (row : Row) : Row :=
  if row.mode = .skip then { row with mode := .override } else row

/-- The recorded mode of a converted row; a plan that was already forgotten raises. -/
def convertPlans (seq : ℕ) : List (κ × Row) → Planner κ → Planner κ × Bool
  | [], planner => (planner, true)
  | (rid, row) :: rest, planner =>
    if row.mode = .skip then
      match planner.states rid with
      | some st =>
        match st.plans.lookup seq with
        | some plan => convertPlans seq rest (planner.put rid
            { st with plans := Dict.assign seq { plan with mode := .override } st.plans })
        | none => (planner, false)
      | none => (planner, false)
    else convertPlans seq rest planner

/-- `self.states[e.rid].prev_lookup = e.rid in rows`. -/
def notePrevious (rows : List (κ × Row)) (planner : Planner κ) (e : PlanEntry κ) : Planner κ :=
  match planner.states e.rid with
  | some st => planner.put e.rid { st with prevLookup := e.rid ∈ rows.map Prod.fst }
  | none => planner

/-- `skip`: every request of the batch has a row, and all of them skip the forward. -/
def skipsForward (rows : List (κ × Row)) (nBatch : ℕ) : Bool :=
  rows ≠ [] ∧ rows.length = nBatch ∧ ∀ entry ∈ rows, entry.2.mode = .skip

/-- What `plan` does after its loop: where every row skips the whole plan does, otherwise skip rows
are converted, which may raise. -/
def finishPlan (seq : ℕ) (entries : List (PlanEntry κ)) (nBatch : ℕ) (loop : PlanLoop κ) :
    Planner κ × Option (StepPlan κ) :=
  if skipsForward loop.rows nBatch then
    (entries.foldl (notePrevious loop.rows) loop.planner, some ⟨seq, loop.rows, true, loop.kOver⟩)
  else
    -- the forward runs for the batch: every skip row becomes an override row
    match convertPlans seq loop.rows loop.planner with
    | (planner, true) =>
      let rows := loop.rows.map fun entry => (entry.1, entry.2.converted)
      (entries.foldl (notePrevious rows) planner, some ⟨seq, rows, false, loop.kOver⟩)
    | (planner, false) => (planner, none)

/-- `plan`: the planner it leaves, and the plan unless it raises. -/
def Planner.plan (engine : Engine) (planner : Planner κ) (seq : ℕ) (entries : List (PlanEntry κ))
    (nBatch : ℕ) : Planner κ × Option (StepPlan κ) :=
  finishPlan seq entries nBatch
    (entries.foldl (planEntry engine ⟨seq, nBatch, entries.length⟩)
      ⟨planner, engine.cfg.ingestBudget, [], []⟩)

/-- `max(older)` and its plan. -/
def newestBefore (seq : ℕ) (plans : List (ℕ × PlanRec)) : Option PlanRec :=
  let older := (plans.map Prod.fst).filter fun s => s < seq
  if older = [] then none else plans.lookup (older.foldl max 0)

/-- The source of the drafts of a step. -/
def sourceOf (mode : Mode) (ok : Bool) : Source :=
  if mode ≠ .neural ∧ ok then .lookup else if mode = .skip then .junk else .neural

/-- `classify`: the planner it leaves, and the answer unless it raises. -/
def Planner.classify (engine : Engine) (planner : Planner κ) (seq : ℕ) (rid : κ) (preLen : ℕ) :
    Planner κ × Option Source :=
  match planner.states rid with
  | none => (planner, some .none)
  | some st =>
    match newestBefore seq st.plans with
    | none => (planner.put rid { st with cur := none }, some .none)
    | some plan =>
      let st := { st with plans := st.plans.filter fun entry => ¬ entry.1 < seq }
      let check := match plan.shadow with
        | some s =>
          if preLen ≤ st.idx.tokens.length then
            replayCheck st.idx.tokens preLen s.src s.lhost engine.cfg.maxDelta
          else some false
        | none => some false
      match check with
      | none => (planner.put rid st, none)
      | some ok =>
        let source := sourceOf plan.mode ok
        (planner.put rid { st with cur := some ⟨seq, plan, ok, source, preLen⟩ }, some source)

/-- The two counters of the accounting check. -/
structure Account where
  ok : ℕ
  mismatch : ℕ

/-- Whether the accepted count is the one `_account` expects of a lookup draft. -/
def accounted (pd : Pending) (draft : List (Option ℤ)) (lcp : ℕ) : Bool :=
  let holes := draft.findIdx Option.isNone
  let firm := min pd.k holes
  if lcp < firm then pd.accepted = lcp else firm ≤ pd.accepted ∧ pd.accepted ≤ pd.k

/-- `_account`: the counters of a resolved step. -/
def account (acct : Account) (pd : Pending) (draft : List (Option ℤ)) (lcp : ℕ) : Account :=
  if accounted pd draft lcp then { acct with ok := acct.ok + 1 }
  else { acct with mismatch := acct.mismatch + 1 }

/-- A class's estimate of the failed checks after one more. -/
def noteCheck (alpha : ℚ) (st : ReqState) (cls : Fin 3) (ok : Bool) : ReqState :=
  { st with
    fLookup := Function.update st.fLookup cls
      (alpha * (if ok then 0 else 1) + (1 - alpha) * st.fLookup cls) }

/-- One more evaluation of a class. -/
def noteEvaluation (st : ReqState) (cls : Fin 3) : ReqState :=
  { st with nLookup := Function.update st.nLookup cls (st.nLookup cls + 1) }

/-- A class's acceptance estimates after a resolved draft. -/
def noteDraft (engine : Engine) (st : ReqState) (cls : Fin 3) (lcp : ℕ) : ReqState :=
  { st with
    pLookup := Function.update st.pLookup cls
      (emaVec (st.pLookup cls) lcp engine.engineK engine.cfg.alpha) }

/-- `_resolve` with what is left of the pending steps; the last answer is false when it raises. -/
def resolve (engine : Engine) (final : Bool) :
    List Pending → ReqState → Account → ReqState × Account × Bool
  | [], st, acct => ({ st with pending := [] }, acct, true)
  | pd :: rest, st, acct =>
    let toks := st.idx.tokens
    if ¬ final ∧ toks.length < pd.p + engine.engineK then
      ({ st with pending := pd :: rest }, acct, true)
    else if toks.length < pd.p then resolve engine final rest st acct
    else
      let st := noteCheck engine.cfg.alpha st pd.shadow.cls pd.ok
      if ¬ pd.ok then resolve engine final rest (noteEvaluation st pd.shadow.cls) acct
      else
        match lookupDraft toks pd.p pd.shadow.src pd.shadow.lhost engine.engineK
            engine.cfg.periodic with
        | none => ({ st with pending := rest }, acct, false)
        | some draft =>
          let lcp := commonPrefix toks draft pd.p
          let st := if ¬ final ∨ pd.p + engine.engineK ≤ toks.length then
            noteEvaluation (noteDraft engine st pd.shadow.cls lcp) pd.shadow.cls else st
          let acct := if pd.source = .lookup then account acct pd draft lcp else acct
          resolve engine final rest st acct

/-- `_resolve` on a request of the planner. -/
def Planner.resolve (engine : Engine) (planner : Planner κ) (rid : κ) (st : ReqState)
    (final : Bool) : Planner κ × Option Unit :=
  let (st, acct, done) := LookupPlanner.resolve engine final st.pending st
    ⟨planner.acctOk, planner.acctMismatch⟩
  ({ planner.put rid st with acctOk := acct.ok, acctMismatch := acct.mismatch },
    if done then some () else none)

/-- What `observe` learns from a step before it resolves. -/
def noteStep (cfg : LookupConfig) (st : ReqState) (cur : Current) (kSched accepted : ℕ) :
    ReqState :=
  let pNeural := if cur.source = .neural then emaVec st.pNeural accepted kSched cfg.alpha
    else st.pNeural
  let streak := if cur.source = .lookup ∨ cur.source = .junk then
    decide (cur.source = .lookup ∧ kSched ≤ accepted) else st.streak
  let pending := match cur.plan.shadow with
    | some shadow => st.pending ++ [⟨cur.preLen, shadow, cur.ok, cur.source, kSched, accepted⟩]
    | none => st.pending
  { st with pNeural := pNeural, streak := streak, pending := pending }

/-- `observe`: the planner it leaves; it raises when the second part is missing. -/
def Planner.observe (engine : Engine) (planner : Planner κ) (seq : ℕ) (rid : κ)
    (kSched accepted : ℕ) (tokensAfter : List ℤ) : Planner κ × Option Unit :=
  match planner.states rid with
  | none => (planner, some ())
  | some st =>
    match st.cur with
    | none => (planner, some ())
    | some cur =>
      if cur.seq ≠ seq then (planner, some ())
      else
        let idx := (sync engine.cfg.settings st.idx tokensAfter engine.cfg.ingestBudget).1
        let st := { st with cur := none, idx := idx }
        if kSched = 0 then (planner.put rid st, some ())
        else planner.resolve engine rid (noteStep engine.cfg st cur kSched accepted) false

/-- `finish`: what is pending is resolved, then the request is forgotten. -/
def Planner.finish (engine : Engine) (planner : Planner κ) (rid : κ) : Planner κ × Option Unit :=
  match planner.states rid with
  | none => (planner.evict rid, some ())
  | some st =>
    match planner.resolve engine rid st true with
    | (planner, some _) => (planner.evict rid, some ())
    | (planner, none) => (planner, none)

/-- The calls of a planner, in any order. -/
inductive Call (κ : Type u)
  | plan (seq : ℕ) (entries : List (PlanEntry κ)) (nBatch : ℕ)
  | classify (seq : ℕ) (rid : κ) (preLen : ℕ)
  | observe (seq : ℕ) (rid : κ) (kSched accepted : ℕ) (tokensAfter : List ℤ)
  | finish (rid : κ)
  | evict (rid : κ)
  | price (k : ℕ) (drafted : Bool) (ms : ℚ)

/-- The planner a call leaves behind. -/
def Planner.after (engine : Engine) (planner : Planner κ) : Call κ → Planner κ
  | .plan seq entries nBatch => (planner.plan engine seq entries nBatch).1
  | .classify seq rid preLen => (planner.classify engine seq rid preLen).1
  | .observe seq rid kSched accepted tokensAfter =>
    (planner.observe engine seq rid kSched accepted tokensAfter).1
  | .finish rid => (planner.finish engine rid).1
  | .evict rid => planner.evict rid
  | .price k drafted ms => { planner with cost := planner.cost.observe k drafted ms }

end GlmSpark.LookupPlanner
