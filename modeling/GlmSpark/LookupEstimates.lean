import GlmSpark.LookupShadow
import Mathlib.Tactic.Linarith
import Mathlib.Tactic.NormNum

/-!
# The acceptance estimates of the lookup planner

For every position the planner estimates the probability that at least so many drafts
are accepted, for the lookup classes and for the neural drafts. Such a vector lies
between zero and one and does not increase.

The lookup vectors are always updated over their whole length and keep this. The neural
vector is updated over the scheduled positions only, and a short step that was not
accepted in full may pull the last of them below the next one.
-/

namespace GlmSpark.LookupEstimates

open LookupIndex LookupRows LookupPlanner LookupShadow Runs

/-- The values of a survival function: between zero and one, and not increasing. -/
structure Survival (vec : List ℚ) : Prop where
  bounds : ∀ p ∈ vec, 0 ≤ p ∧ p ≤ 1
  sorted : vec.Pairwise fun early late => late ≤ early

/-- Whether a vector is a survival function is decided by its bounds and its neighbours. -/
instance (vec : List ℚ) : Decidable (Survival vec) :=
  decidable_of_iff ((∀ p ∈ vec, 0 ≤ p ∧ p ≤ 1) ∧ vec.Pairwise fun early late => late ≤ early)
    ⟨fun ⟨bounds, sorted⟩ => ⟨bounds, sorted⟩, fun ⟨bounds, sorted⟩ => ⟨bounds, sorted⟩⟩

section Vectors

variable {vec : List ℚ} {alpha : ℚ}

/-- The neural estimates before the first step, read from the prior, are a survival function for any
number of positions. -/
theorem neuralPrior_survival (kmax : ℕ) : Survival (ReqState.fresh kmax).pNeural := by
  have priors : Survival neuralPrior := by decide +kernel
  have entry : ∀ j, neuralPrior.getD (min j (neuralPrior.length - 1)) 0 ∈ neuralPrior := by
    intro j
    have inside : min j (neuralPrior.length - 1) < neuralPrior.length := by
      have some : 0 < neuralPrior.length := by decide
      omega
    rw [List.getD_eq_getElem _ _ inside]
    exact List.getElem_mem inside
  constructor
  · intro p listed
    obtain ⟨j, _, rfl⟩ := List.mem_map.mp listed
    exact priors.bounds _ (entry j)
  · rw [ReqState.fresh, List.pairwise_map]
    refine List.pairwise_lt_range.imp fun {i j} before => ?_
    have some : 0 < neuralPrior.length := by decide
    have low : min i (neuralPrior.length - 1) < neuralPrior.length := by omega
    have high : min j (neuralPrior.length - 1) < neuralPrior.length := by omega
    rw [List.getD_eq_getElem _ _ low, List.getD_eq_getElem _ _ high]
    obtain same | earlier := Nat.eq_or_lt_of_le
      (show min i (neuralPrior.length - 1) ≤ min j (neuralPrior.length - 1) by omega)
    · simp only [same, le_refl]
    · exact List.pairwise_iff_getElem.mp priors.sorted _ _ low high earlier

/-- What an update leaves at a position. -/
theorem emaVec_getElem (vec : List ℚ) (value upto : ℕ) (alpha : ℚ) (j : ℕ)
    (inside : j < (emaVec vec value upto alpha).length) (held : j < vec.length) :
    (emaVec vec value upto alpha)[j] =
      if j < upto then alpha * (if j + 1 ≤ value then 1 else 0) + (1 - alpha) * vec[j]
      else vec[j] := by
  simp only [emaVec, List.getElem_mapIdx]

/-- An update moves every estimate within its bounds. -/
theorem emaVec_bounds (weight : 0 ≤ alpha ∧ alpha ≤ 1) (value upto : ℕ)
    (bounds : ∀ p ∈ vec, 0 ≤ p ∧ p ≤ 1) : ∀ p ∈ emaVec vec value upto alpha, 0 ≤ p ∧ p ≤ 1 := by
  intro p listed
  obtain ⟨j, inside, rfl⟩ := List.getElem_of_mem listed
  have held : j < vec.length := by simpa only [emaVec, List.length_mapIdx] using inside
  rw [emaVec_getElem vec value upto alpha j inside held]
  obtain ⟨low, high⟩ := bounds _ (List.getElem_mem held)
  obtain ⟨zero, one⟩ := weight
  split
  · split
    · constructor <;> nlinarith
    · constructor <;> nlinarith
  · exact ⟨low, high⟩

/-- The last updated estimate stays above the first one left alone. -/
def Lasting (alpha : ℚ) (vec : List ℚ) (upto : ℕ) : Prop :=
  ∀ last ∈ vec[upto - 1]?, ∀ next ∈ vec[upto]?, next ≤ (1 - alpha) * last

/-- Whether an update keeps the order is decided by comparing two estimates. -/
instance (alpha : ℚ) (vec : List ℚ) (upto : ℕ) : Decidable (Lasting alpha vec upto) := by
  unfold Lasting; infer_instance

/-- An update keeps a survival function exactly when the step accepted all positions it updates, or
updates all there are, or leaves the last updated one above the next. -/
theorem emaVec_survival_iff (weight : 0 ≤ alpha ∧ alpha ≤ 1) (survival : Survival vec)
    (value upto : ℕ) : Survival (emaVec vec value upto alpha) ↔
      (value < upto → Lasting alpha vec upto) := by
  have size : (emaVec vec value upto alpha).length = vec.length := List.length_mapIdx
  have entry := emaVec_getElem vec value upto alpha
  obtain ⟨zero, one⟩ := weight
  constructor
  · intro after short last lastHere next nextHere
    obtain ⟨below, rfl⟩ := List.getElem?_eq_some_iff.mp lastHere
    obtain ⟨inside, rfl⟩ := List.getElem?_eq_some_iff.mp nextHere
    have ordered := List.pairwise_iff_getElem.mp after.sorted (upto - 1) upto (size.symm ▸ below)
      (size.symm ▸ inside) (by omega)
    rw [entry _ _ inside, entry _ _ below, if_neg (lt_irrefl upto), if_pos (by omega),
      if_neg (by omega), mul_zero, zero_add] at ordered
    exact ordered
  · intro lasting
    refine ⟨emaVec_bounds ⟨zero, one⟩ value upto survival.bounds, ?_⟩
    rw [List.pairwise_iff_getElem]
    intro i j low high before
    have low' : i < vec.length := size ▸ low
    have high' : j < vec.length := size ▸ high
    have ordered : vec[j] ≤ vec[i] :=
      List.pairwise_iff_getElem.mp survival.sorted i j low' high' before
    rw [entry i low low', entry j high high']
    by_cases inside : j < upto
    · -- both updated: the later position counts as accepted only if the earlier one does
      have moved : (1 - alpha) * vec[j] ≤ (1 - alpha) * vec[i] :=
        mul_le_mul_of_nonneg_left ordered (by linarith)
      have counted : alpha * (if j + 1 ≤ value then (1 : ℚ) else 0) ≤
          alpha * (if i + 1 ≤ value then 1 else 0) := by
        refine mul_le_mul_of_nonneg_left ?_ zero
        split
        · rw [if_pos (by omega)]
        · split <;> norm_num
      rw [if_pos inside, if_pos (before.trans inside)]
      linarith
    · rw [if_neg inside]
      by_cases updated : i < upto
      · have before_upto : upto - 1 < vec.length := by omega
        have at_upto : upto < vec.length := by omega
        -- from position `i` down to the last updated one, over to the next, down to `j`
        have first : vec[upto - 1] ≤ vec[i] := by
          obtain same | earlier := Nat.eq_or_lt_of_le (show i ≤ upto - 1 by omega)
          · simp only [same, le_refl]
          · exact List.pairwise_iff_getElem.mp survival.sorted i _ low' before_upto earlier
        have second : vec[j] ≤ vec[upto] := by
          obtain same | earlier := Nat.eq_or_lt_of_le (show upto ≤ j by omega)
          · simp only [same, le_refl]
          · exact List.pairwise_iff_getElem.mp survival.sorted _ j at_upto high' earlier
        have moved : (1 - alpha) * vec[upto - 1] ≤ (1 - alpha) * vec[i] :=
          mul_le_mul_of_nonneg_left first (by linarith)
        have gained : 0 ≤ alpha * (if i + 1 ≤ value then (1 : ℚ) else 0) :=
          mul_nonneg zero (by split <;> norm_num)
        rw [if_pos updated]
        obtain short | full := Nat.lt_or_ge value upto
        · have last := lasting short _ (List.getElem?_eq_getElem before_upto) _
            (List.getElem?_eq_getElem at_upto)
          linarith
        · have most := (survival.bounds _ (List.getElem_mem low')).2
          rw [if_pos (by omega)]
          nlinarith
      · rw [if_neg updated]
        exact ordered

end Vectors

section Requests

variable (engine : Engine) (holds : List ℚ → Prop)

/-- The neural estimates of a request have a property, its lookup vectors are survival functions, none
longer than a draft. -/
structure Estimated (st : ReqState) : Prop where
  neural : holds st.pNeural
  lookup : ∀ cls, Survival (st.pLookup cls)
  sizes : ∀ cls, (st.pLookup cls).length ≤ engine.engineK

variable {engine holds}

/-- A state with the same estimates is estimated as well. -/
theorem Estimated.congr {st next : ReqState} (estimated : Estimated engine holds st)
    (neural : next.pNeural = st.pNeural) (lookup : next.pLookup = st.pLookup) :
    Estimated engine holds next :=
  ⟨neural ▸ estimated.neural, lookup ▸ estimated.lookup, lookup ▸ estimated.sizes⟩

/-- A new request's estimates are as wanted, given that the prior is. -/
theorem fresh_estimated (prior : holds (ReqState.fresh engine.engineK).pNeural) :
    Estimated engine holds (ReqState.fresh engine.engineK) := by
  refine ⟨prior, fun cls => ?_, fun cls => (List.length_replicate).le⟩
  refine ⟨fun p listed => ?_, List.pairwise_replicate.mpr (Or.inr le_rfl)⟩
  rw [List.eq_of_mem_replicate listed]
  exact ⟨le_rfl, zero_le_one⟩

/-- A resolved draft updates its class's vector over the whole length. -/
theorem Estimated.noteDraft {st : ReqState} (estimated : Estimated engine holds st)
    (weight : 0 ≤ engine.cfg.alpha ∧ engine.cfg.alpha ≤ 1) (cls : Fin 3) (lcp : ℕ) :
    Estimated engine holds (noteDraft engine st cls lcp) := by
  have updated : Survival (emaVec (st.pLookup cls) lcp engine.engineK engine.cfg.alpha) := by
    rw [emaVec_survival_iff weight (estimated.lookup cls)]
    intro _ last _ next beyond
    rw [List.getElem?_eq_none (estimated.sizes cls)] at beyond
    exact nomatch beyond
  refine ⟨estimated.neural, fun other => ?_, fun other => ?_⟩
  · rw [LookupPlanner.noteDraft]
    dsimp only
    rw [Function.update_apply]
    split
    · exact updated
    · exact estimated.lookup other
  · rw [LookupPlanner.noteDraft]
    dsimp only
    rw [Function.update_apply]
    split
    · rw [emaVec, List.length_mapIdx]
      exact estimated.sizes cls
    · exact estimated.sizes other

/-- Resolving pending steps keeps the estimates survival functions. -/
theorem resolve_estimated (weight : 0 ≤ engine.cfg.alpha ∧ engine.cfg.alpha ≤ 1) (final : Bool)
    (pending : List Pending) {st : ReqState} (acct : Account)
    (estimated : Estimated engine holds st) :
    Estimated engine holds (resolve engine final pending st acct).1 := by
  induction pending generalizing st acct with
  | nil => exact estimated.congr rfl rfl
  | cons pd rest ih =>
    have checked : Estimated engine holds (noteCheck engine.cfg.alpha st pd.shadow.cls pd.ok) :=
      estimated.congr rfl rfl
    rw [resolve]
    dsimp only
    split
    · exact estimated.congr rfl rfl
    split
    · exact ih acct estimated
    split
    · exact ih acct (checked.congr rfl rfl)
    split
    · exact checked.congr rfl rfl
    next draft _ =>
      refine ih _ ?_
      split
      · exact (checked.noteDraft weight _ _).congr rfl rfl
      · exact checked

/-- `sync` and the choice of a shadow leave the estimates alone. -/
theorem refresh_estimated {st : ReqState} (tokens : List ℤ) (budget : ℤ)
    (estimated : Estimated engine holds st) :
    Estimated engine holds (refresh engine.cfg st tokens budget).1 := by
  rw [refresh]
  generalize sync engine.cfg.settings st.idx tokens budget = synced
  obtain ⟨idx, caught, used⟩ := synced
  dsimp only
  split
  · exact estimated.congr rfl rfl
  · exact estimated.congr rfl rfl

/-- An observed step keeps the estimates when its neural update does. -/
theorem Estimated.noteStep {st : ReqState} (estimated : Estimated engine holds st)
    (cur : Current) {kSched accepted : ℕ} (kept : cur.source = .neural → holds st.pNeural →
      holds (emaVec st.pNeural accepted kSched engine.cfg.alpha)) :
    Estimated engine holds (noteStep engine.cfg st cur kSched accepted) := by
  refine ⟨?_, estimated.lookup, estimated.sizes⟩
  rw [LookupPlanner.noteStep]
  dsimp only
  split
  next neural => exact kept neural estimated.neural
  next => exact estimated.neural

end Requests

section Runs

universe u
variable {κ : Type u} [DecidableEq κ] (engine : Engine) (holds : List ℚ → Prop)

/-- The estimates of every request the planner knows are as wanted. -/
def AllEstimated (planner : Planner κ) : Prop :=
  ∀ rid st, planner.states rid = some st → Estimated engine holds st

/-- An observed neural step keeps the property of the neural estimates. -/
def Keeps (planner : Planner κ) : Call κ → Prop
  | .observe seq rid kSched accepted _ => ∀ st ∈ planner.states rid, ∀ cur ∈ st.cur,
      cur.seq = seq → cur.source = .neural → holds st.pNeural →
      holds (emaVec st.pNeural accepted kSched engine.cfg.alpha)
  | _ => True

/-- An observed neural step that was not accepted in full leaves the last estimate it updates above the
next one. -/
def Lasts (planner : Planner κ) : Call κ → Prop
  | .observe seq rid kSched accepted _ => ∀ st ∈ planner.states rid, ∀ cur ∈ st.cur,
      cur.seq = seq → cur.source = .neural → accepted < kSched →
      Lasting engine.cfg.alpha st.pNeural kSched
  | _ => True

variable {engine holds}

/-- Writing a state with such estimates keeps all requests' estimates so. -/
theorem AllEstimated.put {planner : Planner κ} (all : AllEstimated engine holds planner) (rid : κ)
    {st : ReqState} (estimated : Estimated engine holds st) :
    AllEstimated engine holds (planner.put rid st) := by
  intro other found here
  rw [Planner.states_put] at here
  split at here
  · obtain rfl := Option.some.inj here
    exact estimated
  · exact all other found here

/-- Forgetting a request keeps those of the others. -/
theorem AllEstimated.evict {planner : Planner κ} (all : AllEstimated engine holds planner)
    (rid : κ) : AllEstimated engine holds (planner.evict rid) := by
  intro other found here
  rw [Planner.states_evict] at here
  split at here
  · exact nomatch here
  · exact all other found here

omit [DecidableEq κ] in
/-- The state a call starts from, also that of an unknown request. -/
theorem AllEstimated.state {planner : Planner κ} (all : AllEstimated engine holds planner)
    (prior : holds (ReqState.fresh engine.engineK).pNeural) (rid : κ) :
    Estimated engine holds (planner.state engine rid) := by
  rw [Planner.state]
  cases here : planner.states rid with
  | none => exact fresh_estimated prior
  | some st => exact all rid st here

/-- The loop of `plan` writes records and choices, and no estimate of a known request; a new one
starts from the prior. -/
theorem planLoop_estimated (prior : holds (ReqState.fresh engine.engineK).pNeural)
    (call : PlanCall) (entries : List (PlanEntry κ)) {loop : PlanLoop κ}
    (all : AllEstimated engine holds loop.planner) :
    AllEstimated engine holds (entries.foldl (planEntry engine call) loop).planner := by
  induction entries generalizing loop with
  | nil => exact all
  | cons e rest ih =>
    refine ih ?_
    obtain ⟨plans, left⟩ := planner_planEntry engine call loop e
    rw [left]
    exact all.put e.rid
      ((refresh_estimated e.tokens loop.budget (all.state prior e.rid)).congr rfl rfl)

/-- Converting skip rows rewrites plans and no estimate. -/
theorem convertPlans_estimated (seq : ℕ) (rows : List (κ × Row)) {planner : Planner κ}
    (all : AllEstimated engine holds planner) :
    AllEstimated engine holds (convertPlans seq rows planner).1 := by
  induction rows generalizing planner with
  | nil => exact all
  | cons entry rest ih =>
    obtain ⟨rid, row⟩ := entry
    rw [convertPlans]
    split
    · cases here : planner.states rid with
      | none => exact all
      | some st =>
        dsimp only
        cases st.plans.lookup seq with
        | none => exact all
        | some plan => exact ih (all.put rid ((all rid st here).congr rfl rfl))
    · exact ih all

/-- Noting the previous rows writes one flag of each state. -/
theorem notePrevious_estimated (rows : List (κ × Row)) (entries : List (PlanEntry κ))
    {planner : Planner κ} (all : AllEstimated engine holds planner) :
    AllEstimated engine holds (entries.foldl (notePrevious rows) planner) := by
  induction entries generalizing planner with
  | nil => exact all
  | cons e rest ih =>
    refine ih ?_
    rw [notePrevious]
    cases here : planner.states e.rid with
    | none => exact all
    | some st => exact all.put e.rid ((all e.rid st here).congr rfl rfl)

/-- So a whole call of `plan` makes no estimate. -/
theorem plan_estimated (prior : holds (ReqState.fresh engine.engineK).pNeural)
    {planner : Planner κ} (all : AllEstimated engine holds planner) (seq : ℕ)
    (entries : List (PlanEntry κ)) (nBatch : ℕ) :
    AllEstimated engine holds (planner.plan engine seq entries nBatch).1 := by
  have looped := @planLoop_estimated κ _ engine holds prior
    ⟨seq, nBatch, entries.length⟩ entries ⟨planner, engine.cfg.ingestBudget, [], []⟩ all
  rw [Planner.plan]
  generalize entries.foldl (planEntry engine ⟨seq, nBatch, entries.length⟩)
    ⟨planner, engine.cfg.ingestBudget, [], []⟩ = loop at looped ⊢
  have converted := convertPlans_estimated seq loop.rows looped
  rw [finishPlan]
  split
  · exact notePrevious_estimated _ _ looped
  · split
    next here =>
      rw [here] at converted
      exact notePrevious_estimated _ _ converted
    next here =>
      rw [here] at converted
      exact converted

/-- `classify` appends a pending step and makes no estimate either; estimates change when a step is
resolved. -/
theorem classify_estimated {planner : Planner κ} (all : AllEstimated engine holds planner) (seq : ℕ)
    (rid : κ) (preLen : ℕ) :
    AllEstimated engine holds (planner.classify engine seq rid preLen).1 := by
  rw [Planner.classify]
  cases here : planner.states rid with
  | none => exact all
  | some st =>
    have estimated := all rid st here
    dsimp only
    split
    · exact all.put rid (estimated.congr rfl rfl)
    · split
      · exact all.put rid (estimated.congr rfl rfl)
      · exact all.put rid (estimated.congr rfl rfl)

/-- Resolving a request's pending steps updates its estimates step by step; with a weight between
zero and one each update keeps them as wanted. -/
theorem plannerResolve_estimated (weight : 0 ≤ engine.cfg.alpha ∧ engine.cfg.alpha ≤ 1)
    {planner : Planner κ} (all : AllEstimated engine holds planner) (rid : κ) {st : ReqState}
    (final : Bool) (estimated : Estimated engine holds st) :
    AllEstimated engine holds (planner.resolve engine rid st final).1 := by
  have resolved := resolve_estimated weight final st.pending
    ⟨planner.acctOk, planner.acctMismatch⟩ estimated
  exact all.put rid resolved

/-- `observe` keeps the estimates when its neural update does. -/
theorem observe_estimated (weight : 0 ≤ engine.cfg.alpha ∧ engine.cfg.alpha ≤ 1)
    {planner : Planner κ} (all : AllEstimated engine holds planner) (seq : ℕ) (rid : κ)
    (kSched accepted : ℕ) (tokensAfter : List ℤ)
    (keeps : Keeps engine holds planner (.observe seq rid kSched accepted tokensAfter)) :
    AllEstimated engine holds (planner.observe engine seq rid kSched accepted tokensAfter).1 := by
  rw [Planner.observe]
  cases here : planner.states rid with
  | none => exact all
  | some st =>
    dsimp only
    cases current : st.cur with
    | none => exact all
    | some cur =>
      dsimp only
      split
      next => exact all
      next answers =>
        have estimated := all rid st here
        split
        · exact all.put rid (estimated.congr rfl rfl)
        · have synced : Estimated engine holds { st with
              cur := none
              idx := (sync engine.cfg.settings st.idx tokensAfter engine.cfg.ingestBudget).1 } :=
            estimated.congr rfl rfl
          exact plannerResolve_estimated weight all rid false
            (synced.noteStep cur (keeps st here cur current (not_not.mp answers)))

/-- `finish` makes estimates of lookup drafts only, and forgets the request. -/
theorem finish_estimated (weight : 0 ≤ engine.cfg.alpha ∧ engine.cfg.alpha ≤ 1)
    {planner : Planner κ} (all : AllEstimated engine holds planner) (rid : κ) :
    AllEstimated engine holds (planner.finish engine rid).1 := by
  rw [Planner.finish]
  cases here : planner.states rid with
  | none => exact all.evict rid
  | some st =>
    have resolved := plannerResolve_estimated weight all rid true (all rid st here)
    dsimp only
    split
    next done => exact AllEstimated.evict (by rw [done] at resolved; exact resolved) rid
    next done => rw [done] at resolved; exact resolved

/-- Every call that keeps the neural property keeps all estimates. -/
theorem after_estimated (weight : 0 ≤ engine.cfg.alpha ∧ engine.cfg.alpha ≤ 1)
    (prior : holds (ReqState.fresh engine.engineK).pNeural) {planner : Planner κ}
    (all : AllEstimated engine holds planner) (call : Call κ)
    (keeps : Keeps engine holds planner call) :
    AllEstimated engine holds (planner.after engine call) := by
  cases call with
  | plan seq entries nBatch => exact plan_estimated prior all seq entries nBatch
  | classify seq rid preLen => exact classify_estimated all seq rid preLen
  | observe seq rid kSched accepted tokensAfter =>
    exact observe_estimated weight all seq rid kSched accepted tokensAfter keeps
  | finish rid => exact finish_estimated weight all rid
  | evict rid => exact all.evict rid
  | price k drafted ms => exact all

/-- In every run of such calls all requests are estimated. -/
theorem reachable_estimated (holds : List ℚ → Prop)
    (weight : 0 ≤ engine.cfg.alpha ∧ engine.cfg.alpha ≤ 1)
    (prior : holds (ReqState.fresh engine.engineK).pNeural)
    {allowed : Planner κ → Call κ → Prop}
    (keeps : ∀ planner call, allowed planner call → Keeps engine holds planner call)
    {planner : Planner κ} (reachable : Reachable (calls engine allowed) planner) :
    AllEstimated engine holds planner := by
  apply reachable.invariant
  · intro rid st absent
    exact nomatch absent
  · intro planner call all sent
    exact after_estimated weight prior all call (keeps planner call sent)

/-- In every run the lookup vectors are survival functions and the neural estimates lie between zero
and one. -/
theorem estimates_bounded (weight : 0 ≤ engine.cfg.alpha ∧ engine.cfg.alpha ≤ 1)
    {allowed : Planner κ → Call κ → Prop} {planner : Planner κ}
    (reachable : Reachable (calls engine allowed) planner) {rid : κ} {st : ReqState}
    (here : planner.states rid = some st) :
    (∀ p ∈ st.pNeural, 0 ≤ p ∧ p ≤ 1) ∧ ∀ cls, Survival (st.pLookup cls) := by
  have all := reachable_estimated (fun vec => ∀ p ∈ vec, 0 ≤ p ∧ p ≤ 1) weight
    (neuralPrior_survival _).bounds (fun planner call _ => by
      cases call with
      | observe seq rid kSched accepted tokensAfter =>
        exact fun st _ cur _ _ _ bounds => emaVec_bounds weight accepted kSched bounds
      | _ => trivial) reachable
  exact ⟨(all rid st here).neural, (all rid st here).lookup⟩

/-- In every run the lookup vectors are survival functions and the neural estimates lie between zero
and one. In every run in which no short step pulls the last estimate it updates below the next one,
the neural estimates are a survival function as well. -/
theorem estimates_survive (weight : 0 ≤ engine.cfg.alpha ∧ engine.cfg.alpha ≤ 1)
    {allowed : Planner κ → Call κ → Prop} {planner : Planner κ}
    (reachable : Reachable (calls engine allowed) planner) {rid : κ} {st : ReqState}
    (here : planner.states rid = some st) :
    (∀ cls, Survival (st.pLookup cls)) ∧ (∀ p ∈ st.pNeural, 0 ≤ p ∧ p ≤ 1) ∧
      ((∀ planner call, allowed planner call → Lasts engine planner call) →
        Survival st.pNeural) := by
  obtain ⟨neural, lookup⟩ := estimates_bounded weight reachable here
  refine ⟨lookup, neural, fun lasting => ?_⟩
  have all := reachable_estimated Survival weight (neuralPrior_survival _)
    (fun planner call sent => by
      cases call with
      | observe seq rid kSched accepted tokensAfter =>
        intro st held cur current same neural survival
        exact (emaVec_survival_iff weight survival accepted kSched).mpr
          (lasting planner _ sent st held cur current same neural)
      | _ => trivial) reachable
  exact (all rid st here).neural

/-- The accepted drafts of an observed step were scheduled. -/
def Scheduled (_ : Planner κ) : Call κ → Prop
  | .observe _ _ kSched accepted _ => accepted ≤ kSched
  | _ => True

/-- A planner with the default weight. -/
def learning : Engine :=
  { copying with cfg := { copying.cfg with alpha := 15 / 100 } }

/-- A neural step of one draft that was not accepted. -/
def missed (seq : ℕ) (tokens : List ℤ) (new : ℤ) : List (Call ℕ) :=
  [.plan seq (decoding tokens) 1, .classify (seq + 1) 0 tokens.length,
    .observe (seq + 1) 0 1 0 (tokens ++ [new])]

/-- A run with one step that drafted and accepted nothing: `estimates_survive` applies, the neural
estimates have changed, and they are still a survival function. -/
theorem estimates_survive_missed : ∃ planner st,
    Reachable (calls learning (Lasts learning)) planner ∧ planner.states 0 = some st ∧
      st.pNeural ≠ (ReqState.fresh 3).pNeural ∧ Survival st.pNeural := by
  have lasts : (calls learning (Lasts learning)).Permits learning.start (missed 1 [1, 2] 3) := by
    refine ⟨trivial, trivial, ?_, trivial⟩
    change Lasts learning _ (.observe 2 0 1 0 [1, 2, 3])
    unfold Lasts
    decide +kernel
  have reachable := Reachable.initial.run (missed 1 [1, 2] 3) lasts
  have learned : (((calls learning (Lasts learning)).run learning.start
      (missed 1 [1, 2] 3)).states 0).any
        (fun st => st.pNeural ≠ (ReqState.fresh 3).pNeural) = true := by decide +kernel
  obtain ⟨st, here, moved⟩ := (Option.any_eq_true _ _).mp learned
  exact ⟨_, st, reachable, here, by simpa using moved,
    (estimates_survive (by decide +kernel) reachable here).2.2 fun _ _ lasts => lasts⟩

/-- Three such steps pull the first estimate below the second. -/
theorem short_steps_break_order :
    ¬ ∀ planner : Planner ℕ, Reachable (calls learning Scheduled) planner →
      ∀ rid st, planner.states rid = some st → Survival st.pNeural := by
  intro survives
  have sent : (calls learning Scheduled).Permits learning.start
      (missed 1 [1, 2] 3 ++ missed 2 [1, 2, 3] 4 ++ missed 3 [1, 2, 3, 4] 5) :=
    ⟨trivial, trivial, Nat.zero_le 1, trivial, trivial, Nat.zero_le 1, trivial, trivial,
      Nat.zero_le 1, trivial⟩
  have reachable := Reachable.initial.run _ sent
  have broken : (((calls learning Scheduled).run learning.start
      (missed 1 [1, 2] 3 ++ missed 2 [1, 2, 3] 4 ++ missed 3 [1, 2, 3, 4] 5)).states 0).any
        (fun st => ¬ Survival st.pNeural) = true := by decide +kernel
  obtain ⟨st, here, fails⟩ := (Option.any_eq_true _ _).mp broken
  exact absurd (survives _ reachable 0 st here) (by simpa using fails)

end Runs

end GlmSpark.LookupEstimates
