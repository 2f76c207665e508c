import Mathlib.Data.Rat.Defs
import Mathlib.Algebra.Order.Ring.Rat
import GlmSpark.Dict
import GlmSpark.Hysteresis
import GlmSpark.LeversControl

/-!
# Adaptive draft lengths

`AdaptiveKPolicy` of `adaptive_k_scheduler.py` keeps for every request a moving average of
its draft acceptance and a draft length that follows the average between two thresholds.
`LvPolicy` of `glm_levers_sched.py` has another signal. Both files hand the lengths out by
an `assign_lengths`. Averages are exact.
-/

namespace GlmSpark.AdaptiveK

open LeversControl (AkMode AkSignal Mode)
open Hysteresis

/-- `AdaptiveKConfig` after its checks; modes and signals are checked by their types. -/
structure Config where
  kLo : ℤ
  kHi : ℤ
  up : ℚ
  down : ℚ
  alpha : ℚ
  seed : ℚ
  mode : AkMode
  signal : AkSignal
  lengths : 1 ≤ kLo ∧ kLo ≤ kHi
  thresholds : 0 ≤ down ∧ down ≤ up ∧ up ≤ 1
  weight : 0 < alpha ∧ alpha ≤ 1
  start : 0 ≤ seed ∧ seed ≤ 1

/-- `_ReqState`: the moving average of a request's signal and the draft length it has now. -/
structure ReqState where
  ema : ℚ
  k : ℤ
  deriving DecidableEq

/-- `counters`. -/
structure Counters where
  observations : ℕ
  decisionsLo : ℕ
  decisionsHi : ℕ
  switches : ℕ
  stepsUniformLo : ℕ
  stepsUniformHi : ℕ
  deriving DecidableEq

/-- `AdaptiveKPolicy`: the configuration, the state of every request it knows, in insertion order,
and the counters of the log. -/
structure Policy where
  cfg : Config
  state : List (String × ReqState)
  counters : Counters

/-- A new policy: no request, no count. -/
def Policy.fresh (cfg : Config) : Policy := ⟨cfg, [], ⟨0, 0, 0, 0, 0, 0⟩⟩

/-- `_k_for`: the length of an average. Between the two thresholds the present length stays, which
is the hysteresis; a new request without a length gets the high one. -/
def Config.kFor (cfg : Config) (ema : ℚ) (current : Option ℤ) : ℤ :=
  if cfg.up ≤ ema then cfg.kHi
  else if ema ≤ cfg.down then cfg.kLo
  else current.getD cfg.kHi

/-- The state of a request not seen before. -/
def Config.newState (cfg : Config) : ReqState := ⟨cfg.seed, cfg.kFor cfg.seed none⟩

/-- Store the state of a request. -/
def Policy.set (policy : Policy) (req : String) (st : ReqState) : Policy :=
  { policy with state := Dict.assign req st policy.state }

/-- `_get`: the state of a request. A new request gets the seed, and the policy keeps it. -/
def Policy.get (policy : Policy) (req : String) : ReqState × Policy :=
  match policy.state.lookup req with
  | some st => (st, policy)
  | none => (policy.cfg.newState, policy.set req policy.cfg.newState)

/-- `signal`, by the configuration: whether every draft was accepted, or the accepted share of the
drafts that count. -/
def Config.signalOf (cfg : Config) (numAccepted numDraft : ℤ) : ℚ :=
  let denom := min cfg.kLo (max numDraft 1)
  let accepted := min (max numAccepted 0) denom
  match cfg.signal with
  | .pos => if denom ≤ accepted then 1 else 0
  | .mean => accepted / denom

/-- The new average: `a * signal + (1.0 - a) * st.ema`. -/
def Config.blend (cfg : Config) (signal ema : ℚ) : ℚ :=
  cfg.alpha * signal + (1 - cfg.alpha) * ema

/-- Fold a signal into a request's average; without one the request is only looked up. -/
def Policy.fold (policy : Policy) (req : String) (signal : Option ℚ) : ℚ × Policy :=
  let (st, policy) := policy.get req
  match signal with
  | none => (st.ema, policy)
  | some value =>
    let ema := policy.cfg.blend value st.ema
    let policy := policy.set req { st with ema := ema }
    (ema, { policy with counters.observations := policy.counters.observations + 1 })

/-- The two policy classes; `LvPolicy` reads `LV["signal"]`. -/
inductive PolicyClass
  | adaptiveK
  | lv (signal : String)

/-- The signal of `AdaptiveKPolicy.observe`. -/
def Config.baseSignal (cfg : Config) (numAccepted numDraft : ℤ) : Option ℚ :=
  if numDraft ≤ 0 then none else some (cfg.signalOf numAccepted numDraft)

/-- The conditional signal of `LvPolicy.observe`: position `k_lo` must be reached. -/
def Config.condSignal (cfg : Config) (numAccepted numDraft : ℤ) : Option ℚ :=
  if numDraft < cfg.kLo ∨ numAccepted < cfg.kLo - 1 then none
  else some (if cfg.kLo ≤ numAccepted then 1 else 0)

/-- The signal a class reads off a step. -/
def PolicyClass.signal (cls : PolicyClass) (cfg : Config) (numAccepted numDraft : ℤ) : Option ℚ :=
  match cls with
  | .adaptiveK => cfg.baseSignal numAccepted numDraft
  | .lv name =>
    if name ≠ "cond" then cfg.baseSignal numAccepted numDraft
    else cfg.condSignal numAccepted numDraft

/-- `observe`. -/
def Policy.observe (cls : PolicyClass) (policy : Policy) (req : String)
    (numAccepted numDraft : ℤ) : ℚ × Policy :=
  policy.fold req (cls.signal policy.cfg numAccepted numDraft)

/-- `self.counters["decisions_hi" if k == self.cfg.k_hi else "decisions_lo"] += 1`. -/
def Counters.decision (counters : Counters) (high : Bool) : Counters :=
  if high then { counters with decisionsHi := counters.decisionsHi + 1 }
  else { counters with decisionsLo := counters.decisionsLo + 1 }

/-- `decide`: the length for a request's average. The state keeps it, and a change of length is
counted. -/
def Policy.decide (policy : Policy) (req : String) : ℤ × Policy :=
  let (st, policy) := policy.get req
  let k := policy.cfg.kFor st.ema (some st.k)
  let policy :=
    if k ≠ st.k then
      let policy := policy.set req { st with k := k }
      { policy with counters.switches := policy.counters.switches + 1 }
    else policy
  (k, { policy with counters := policy.counters.decision (k == policy.cfg.kHi) })

/-- `evict`: the state of a finished request is dropped. -/
def Policy.evict (policy : Policy) (req : String) : Policy :=
  { policy with state := Dict.erase req policy.state }

/-- The decisions of a list of requests, in order. -/
def Policy.decideEach (policy : Policy) : List String → List ℤ × Policy
  | [] => ([], policy)
  | req :: rest =>
    let (k, policy) := policy.decide req
    let (ks, policy) := policy.decideEach rest
    (k :: ks, policy)

/-- `decide_batch`: the high length only where every request of the batch decides for it, otherwise
the low one. -/
def Policy.decideBatch (policy : Policy) (reqIds : List String) : ℤ × Policy :=
  let (ks, policy) := policy.decideEach reqIds
  if ks ≠ [] ∧ ∀ k ∈ ks, k = policy.cfg.kHi then
    (policy.cfg.kHi,
      { policy with counters.stepsUniformHi := policy.counters.stepsUniformHi + 1 })
  else
    (policy.cfg.kLo,
      { policy with counters.stepsUniformLo := policy.counters.stepsUniformLo + 1 })

/-- `placeholder_len`: a length as a number of placeholder drafts, within what the engine can
verify. -/
def placeholderLen (kReq engineK : ℤ) : ℤ := max 0 (min kReq engineK)

/-- A dict comprehension: later entries of a key replace earlier ones, at the place of the first. -/
def dictOf (entries : List (String × ℤ)) : List (String × ℤ) :=
  entries.foldl (fun dict entry => Dict.assign entry.1 entry.2 dict) []

/-- `{r: placeholder_len(policy.decide(r), engine_k) for r in req_ids}`. -/
def Policy.ownLengths (policy : Policy) (reqIds : List String) (engineK : ℤ) :
    List (String × ℤ) × Policy :=
  let (ks, policy) := policy.decideEach reqIds
  (dictOf (reqIds.zip (ks.map fun k => placeholderLen k engineK)), policy)

/-- `adaptive_k_scheduler.assign_lengths`: the lengths of a batch, request by request or one for
all. -/
def assignLengths (policy : Policy) (reqIds : List String) (mode : AkMode) (engineK : ℤ) :
    List (String × ℤ) × Policy :=
  if reqIds = [] then ([], policy)
  else match mode with
    | .batchUniform =>
      let (k, policy) := policy.decideBatch reqIds
      let kStep := placeholderLen k engineK
      (dictOf (reqIds.map fun req => (req, kStep)), policy)
    | .perRequest => policy.ownLengths reqIds engineK

/-- `glm_levers_sched.assign_lengths`; `lvMode` is `LV["mode"]`. -/
def lvAssignLengths (lvMode : Mode) (policy : Policy) (reqIds : List String) (mode : AkMode)
    (engineK : ℤ) : List (String × ℤ) × Policy :=
  if reqIds = [] then ([], policy)
  else match lvMode with
    | .batchMax =>
      let (ks, policy) := policy.ownLengths reqIds engineK
      -- `ks` has an entry here, so the maximum exists.
      let kMax := (ks.map Prod.snd).max?.getD 0
      (dictOf (reqIds.map fun req => (req, kMax)), policy)
    | .batchUniform => assignLengths policy reqIds .batchUniform engineK
    | .perRequest => assignLengths policy reqIds mode engineK

/-- `self._ak_engine_k`, from the draft length the engine reports. -/
def akEngineK (numSpecTokens : ℤ) : ℤ := max numSpecTokens 0

/-- What `_get` would answer for a request. -/
def Policy.peek (policy : Policy) (req : String) : ReqState :=
  (policy.state.lookup req).getD policy.cfg.newState

/-- What `get` answers is what `peek` sees: a request without a state gets the seed, which is then
stored. -/
@[simp] theorem Policy.get_fst (policy : Policy) (req : String) :
    (policy.get req).1 = policy.peek req := by
  rw [get, peek]
  cases policy.state.lookup req <;> rfl

/-- Looking a request up may store a seed state; the configuration is not written. -/
@[simp] theorem Policy.get_cfg (policy : Policy) (req : String) :
    (policy.get req).2.cfg = policy.cfg := by
  rw [get]
  cases policy.state.lookup req <;> rfl

/-- Storing a request's state changes what that request reads. -/
theorem Policy.peek_set (policy : Policy) (req other : String) (st : ReqState) :
    (policy.set req st).peek other = if other = req then st else policy.peek other := by
  simp only [peek, set, Dict.lookup_assign]
  split <;> rfl

/-- Looking a request up creates its state, and no request reads differently for it. -/
@[simp] theorem Policy.peek_get (policy : Policy) (req other : String) :
    (policy.get req).2.peek other = policy.peek other := by
  rw [get]
  split
  next => rfl
  next unknown =>
    rw [peek_set]
    split
    next same => rw [same, peek, unknown, Option.getD_none]
    next => rfl

/-- After a lookup the request is known. -/
theorem Policy.lookup_get (policy : Policy) (req : String) :
    (policy.get req).2.state.lookup req = some (policy.peek req) := by
  rw [get]
  split
  next st known => simp [peek, known]
  next unknown => simp [set, Dict.lookup_assign, peek, unknown]

/-- A request that is known is only read. -/
theorem Policy.get_known {policy : Policy} {req : String} {st : ReqState}
    (known : policy.state.lookup req = some st) : policy.get req = (st, policy) := by
  rw [get, known]

/-- A request's state once a signal is folded in. -/
def Config.observed (cfg : Config) (signal : Option ℚ) (st : ReqState) : ReqState :=
  match signal with
  | none => st
  | some value => { st with ema := cfg.blend value st.ema }

/-- A request's state after a decision. -/
def Config.decided (cfg : Config) (st : ReqState) : ReqState :=
  { st with k := cfg.kFor st.ema (some st.k) }

/-- An observation moves the observed request's average. -/
theorem Policy.peek_fold (policy : Policy) (req other : String) (signal : Option ℚ) :
    (policy.fold req signal).2.peek other =
      if other = req then policy.cfg.observed signal (policy.peek other)
      else policy.peek other := by
  cases signal with
  | none => simp only [fold, peek_get, Config.observed, ite_self]
  | some value =>
    simp only [fold, get_fst, get_cfg]
    change ((policy.get req).2.set req _).peek other = _
    rw [peek_set, peek_get]
    split
    next same => rw [same, Config.observed]
    next => rfl

/-- A decision answers the length for the request's average and last length. -/
theorem Policy.decide_fst (policy : Policy) (req : String) :
    (policy.decide req).1 = (policy.cfg.decided (policy.peek req)).k := by
  simp [decide, Config.decided]

/-- A decision stores the length it answers. -/
theorem Policy.peek_decide (policy : Policy) (req other : String) :
    (policy.decide req).2.peek other =
      if other = req then policy.cfg.decided (policy.peek other) else policy.peek other := by
  simp only [decide, get_fst, get_cfg]
  by_cases kept : policy.cfg.kFor (policy.peek req).ema (some (policy.peek req).k) =
      (policy.peek req).k
  · rw [if_neg (not_not.mpr kept)]
    change (policy.get req).2.peek other = _
    rw [peek_get]
    split
    next same => rw [same, Config.decided, kept]
    next => rfl
  · rw [if_pos kept]
    change ((policy.get req).2.set req _).peek other = _
    rw [peek_set, peek_get]
    split
    next same => rw [same, Config.decided]
    next => rfl

/-- An evicted request is new again: what it is asked next starts from a fresh state. The states of
all other requests are kept. -/
theorem Policy.peek_evict (policy : Policy) (req other : String) :
    (policy.evict req).peek other =
      if other = req then policy.cfg.newState else policy.peek other := by
  simp only [peek, evict, Dict.lookup_erase]
  split <;> rfl

/-- A signal changes a request's state only, so every later step is judged by the same bands. -/
@[simp] theorem Policy.fold_cfg (policy : Policy) (req : String) (signal : Option ℚ) :
    (policy.fold req signal).2.cfg = policy.cfg := by
  cases signal <;> simp [fold, set]

/-- A decision changes a request's state and the log counters only. -/
@[simp] theorem Policy.decide_cfg (policy : Policy) (req : String) :
    (policy.decide req).2.cfg = policy.cfg := by
  simp only [decide]
  split <;> simp [set]

/-- After a decision the request is known. -/
theorem Policy.lookup_decide (policy : Policy) (req : String) :
    (policy.decide req).2.state.lookup req = some (policy.cfg.decided (policy.peek req)) := by
  simp only [decide, get_fst, get_cfg]
  by_cases kept : policy.cfg.kFor (policy.peek req).ema (some (policy.peek req).k) =
      (policy.peek req).k
  · rw [if_neg (not_not.mpr kept)]
    rw [lookup_get, Config.decided, kept]
  · rw [if_pos kept]
    change (Dict.assign req _ (policy.get req).2.state).lookup req = _
    rw [Dict.lookup_assign, if_pos rfl]
    rfl

/-- A length chosen for an average is chosen again for it. -/
theorem Config.kFor_repeat (cfg : Config) (ema : ℚ) (current : Option ℤ) :
    cfg.kFor ema (some (cfg.kFor ema current)) = cfg.kFor ema current := by
  simp only [kFor]
  split
  · rfl
  · split <;> rfl

/-- A decision made again right after is the same, stores nothing and is no switch. -/
theorem Policy.decide_repeat (policy : Policy) (req : String) :
    ((policy.decide req).2.decide req).1 = (policy.decide req).1 ∧
    ((policy.decide req).2.decide req).2.state = (policy.decide req).2.state ∧
    ((policy.decide req).2.decide req).2.counters.switches =
      (policy.decide req).2.counters.switches := by
  have known := get_known (policy.lookup_decide req)
  have same : policy.cfg.kFor (policy.cfg.decided (policy.peek req)).ema
      (some (policy.cfg.decided (policy.peek req)).k) = (policy.cfg.decided (policy.peek req)).k :=
    policy.cfg.kFor_repeat _ _
  have again : (policy.decide req).2.decide req = ((policy.cfg.decided (policy.peek req)).k,
      { (policy.decide req).2 with
        counters := (policy.decide req).2.counters.decision
          ((policy.cfg.decided (policy.peek req)).k == policy.cfg.kHi) }) := by
    rw [decide, known]
    simp only [decide_cfg, same, ne_eq, not_true_eq_false, if_false]
  rw [again, decide_fst]
  refine ⟨rfl, rfl, ?_⟩
  simp only [Counters.decision]
  split <;> rfl

end GlmSpark.AdaptiveK
