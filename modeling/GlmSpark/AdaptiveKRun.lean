import Mathlib.Analysis.Convex.Basic
import GlmSpark.AdaptiveK

/-!
# Runs of the adaptive draft length

Whatever calls a policy receives, a request's state is what its own calls alone make of it.
Its average stays between 0 and 1, its length is where the latest of the averages that it
was decided on left the dead band, and the lengths handed out fit the engine.
-/

namespace GlmSpark.AdaptiveK

open LeversControl (AkMode Mode)
open Hysteresis

/-- A call of a policy. -/
inductive Call
  | observe (req : String) (numAccepted numDraft : ℤ)
  | decide (req : String)
  | evict (req : String)
  deriving DecidableEq

/-- The request a call is for. -/
def Call.req : Call → String
  | observe req _ _ | decide req | evict req => req

variable (cls : PolicyClass)

/-- Execute a call and keep the policy it leaves; what it answers is looked at separately. -/
def Policy.call (policy : Policy) : Call → Policy
  | .observe req numAccepted numDraft => (policy.observe cls req numAccepted numDraft).2
  | .decide req => (policy.decide req).2
  | .evict req => policy.evict req

/-- Execute calls one after another, from any policy. -/
def Policy.run (policy : Policy) (calls : List Call) : Policy := calls.foldl (·.call cls) policy

/-- What a call does to the state of its request. -/
def Config.effect (cfg : Config) (st : ReqState) : Call → ReqState
  | .observe _ numAccepted numDraft => cfg.observed (cls.signal cfg numAccepted numDraft) st
  | .decide _ => cfg.decided st
  | .evict _ => cfg.newState

/-- No call of a policy writes its configuration, whichever class it is of. -/
@[simp] theorem Policy.call_cfg (policy : Policy) (call : Call) :
    (policy.call cls call).cfg = policy.cfg := by
  cases call <;> simp [Policy.call, observe, evict]

/-- The configuration is constant along a run: no call of the policy writes it. -/
@[simp] theorem Policy.run_cfg (policy : Policy) (calls : List Call) :
    (policy.run cls calls).cfg = policy.cfg := by
  induction calls generalizing policy with
  | nil => rfl
  | cons call rest ih => exact (ih _).trans (policy.call_cfg cls call)

/-- A call changes the state of its own request only. -/
theorem Policy.peek_call (policy : Policy) (call : Call) (req : String) :
    (policy.call cls call).peek req =
      if req = call.req then policy.cfg.effect cls (policy.peek req) call else policy.peek req := by
  cases call with
  | observe other numAccepted numDraft => exact policy.peek_fold other req _
  | decide other => exact policy.peek_decide other req
  | evict other => exact policy.peek_evict other req

/-- A request's state after a run is what its own calls made of it. -/
theorem Policy.peek_run (policy : Policy) (calls : List Call) (req : String) :
    (policy.run cls calls).peek req =
      (calls.filter (·.req = req)).foldl (policy.cfg.effect cls) (policy.peek req) := by
  induction calls generalizing policy with
  | nil => rfl
  | cons call rest ih =>
    have later := ih (policy.call cls call)
    rw [peek_call, call_cfg] at later
    change ((policy.call cls call).run cls rest).peek req = _
    rw [later]
    by_cases own : call.req = req
    · rw [List.filter_cons_of_pos (by simpa using own), List.foldl_cons, if_pos own.symm]
    · rw [List.filter_cons_of_neg (by simpa using own), if_neg fun same => own same.symm]

/-- A share, where there is something to share, lies between 0 and 1. -/
theorem share_mem (accepted denom : ℤ) (nonneg : 0 ≤ accepted) (most : accepted ≤ denom) :
    (accepted / denom : ℚ) ∈ Set.Icc 0 1 := by
  have below : (accepted : ℚ) ≤ denom := by exact_mod_cast most
  have least : (0 : ℚ) ≤ accepted := by exact_mod_cast nonneg
  exact ⟨div_nonneg least (least.trans below), div_le_one_of_le₀ below (least.trans below)⟩

/-- A signal is between 0 and 1. -/
theorem signalOf_mem (cfg : Config) (numAccepted numDraft : ℤ) :
    cfg.signalOf numAccepted numDraft ∈ Set.Icc 0 1 := by
  have positive := cfg.lengths.1
  rw [Config.signalOf]
  cases cfg.signal with
  | pos =>
    dsimp only
    split <;> simp
  | mean => exact share_mem _ _ (by omega) (by omega)

/-- Whichever signal a class reads, it is between 0 and 1. -/
theorem signal_mem (cfg : Config) (numAccepted numDraft : ℤ) {value : ℚ}
    (read : cls.signal cfg numAccepted numDraft = some value) : value ∈ Set.Icc 0 1 := by
  have base : cfg.baseSignal numAccepted numDraft = some value → value ∈ Set.Icc 0 1 := by
    rw [Config.baseSignal]
    split
    · exact nofun
    · rintro ⟨⟩
      exact signalOf_mem cfg numAccepted numDraft
  have cond : cfg.condSignal numAccepted numDraft = some value → value ∈ Set.Icc 0 1 := by
    rw [Config.condSignal]
    split
    · exact nofun
    · rintro ⟨⟩
      split <;> simp
  cases cls with
  | adaptiveK => exact base read
  | lv name =>
    simp only [PolicyClass.signal] at read
    split at read
    · exact base read
    · exact cond read

/-- Blending keeps an average between 0 and 1. -/
theorem blend_mem (cfg : Config) {value ema : ℚ} (signal : value ∈ Set.Icc (0 : ℚ) 1)
    (average : ema ∈ Set.Icc (0 : ℚ) 1) : cfg.blend value ema ∈ Set.Icc (0 : ℚ) 1 := by
  have rest : 0 ≤ 1 - cfg.alpha := sub_nonneg.mpr cfg.weight.2
  exact convex_Icc (0 : ℚ) 1 signal average cfg.weight.1.le rest (add_sub_cancel _ _)

/-- Every effect keeps a request's average between 0 and 1. -/
theorem effect_mem (cfg : Config) {st : ReqState} (average : st.ema ∈ Set.Icc (0 : ℚ) 1)
    (call : Call) : (cfg.effect cls st call).ema ∈ Set.Icc (0 : ℚ) 1 := by
  cases call with
  | observe req numAccepted numDraft =>
    simp only [Config.effect]
    cases read : cls.signal cfg numAccepted numDraft with
    | none => exact average
    | some value => exact blend_mem cfg (signal_mem cls cfg numAccepted numDraft read) average
  | decide req => exact average
  | evict req => exact cfg.start

/-- In every run every request's average is between 0 and 1. -/
theorem ema_mem (cfg : Config) (calls : List Call) (req : String) :
    (((Policy.fresh cfg).run cls calls).peek req).ema ∈ Set.Icc (0 : ℚ) 1 := by
  rw [Policy.peek_run]
  exact List.foldlRecOn (motive := fun st : ReqState => st.ema ∈ Set.Icc (0 : ℚ) 1) _ _ cfg.start
    fun st average call _ => effect_mem cls cfg average call

/-- The averages a request was decided on since it was last evicted. -/
def Policy.averages (policy : Policy) (req : String) : List Call → List ℚ → List ℚ
  | [], seen => seen
  | call :: rest, seen =>
    let seen := match call with
      | .observe .. => seen
      | .decide other => if req = other then seen ++ [(policy.get req).1.ema] else seen
      | .evict other => if req = other then [] else seen
    (policy.call cls call).averages req rest seen

/-- The draft length of a side. -/
def Config.length (cfg : Config) (high : Bool) : ℤ := if high then cfg.kHi else cfg.kLo

/-- The next length is the length of the next side. -/
theorem kFor_length (cfg : Config) (ema : ℚ) (high : Bool) :
    cfg.kFor ema (some (cfg.length high)) = cfg.length (trigger cfg.up cfg.down high ema) := by
  simp only [Config.kFor, trigger]
  split
  · rfl
  · split <;> rfl

/-- A request's length is on the side where the averages it was decided on, after the seed, left
the dead band last. -/
def Tracks (cfg : Config) (st : ReqState) (seen : List ℚ) : Prop :=
  ∃ high : Bool, st.k = cfg.length high ∧ (high = true ↔ Settled cfg.up cfg.down (cfg.seed :: seen))

/-- A new request is on the side of the seed. -/
theorem tracks_new (cfg : Config) : Tracks cfg cfg.newState [] :=
  ⟨trigger cfg.up cfg.down true cfg.seed, kFor_length cfg cfg.seed true,
    settled_append cfg.up cfg.down [] cfg.seed (by simp [settled_nil])⟩

/-- A decision moves the side by the average it is made on. -/
theorem Tracks.decided {cfg : Config} {st : ReqState} {seen : List ℚ}
    (tracks : Tracks cfg st seen) : Tracks cfg (cfg.decided st) (seen ++ [st.ema]) := by
  obtain ⟨high, length, side⟩ := tracks
  refine ⟨trigger cfg.up cfg.down high st.ema, ?_, settled_append _ _ (cfg.seed :: seen) _ side⟩
  rw [Config.decided, length, kFor_length]

/-- An observation folds into the average and leaves the length alone, so what the length tracks
stays the excursions of the averages at earlier decide calls. -/
theorem Tracks.observed {cfg : Config} {st : ReqState} {seen : List ℚ} (tracks : Tracks cfg st seen)
    (signal : Option ℚ) : Tracks cfg (cfg.observed signal st) seen := by
  cases signal <;> exact tracks

/-- The length is on the side of the last excursion throughout a run. -/
theorem tracks_run (policy : Policy) (req : String) (calls : List Call) (seen : List ℚ)
    (tracks : Tracks policy.cfg (policy.peek req) seen) :
    Tracks policy.cfg ((policy.run cls calls).peek req) (policy.averages cls req calls seen) := by
  induction calls generalizing policy seen with
  | nil => exact tracks
  | cons call rest ih =>
    rw [← policy.call_cfg cls call]
    apply ih
    rw [Policy.peek_call, Policy.call_cfg]
    by_cases own : req = call.req
    · rw [if_pos own]
      cases call with
      | observe other numAccepted numDraft => exact tracks.observed _
      | decide other =>
        simp only [Policy.get_fst, if_pos (show req = other from own)]
        exact tracks.decided
      | evict other =>
        simp only [if_pos (show req = other from own)]
        exact tracks_new policy.cfg
    · rw [if_neg own]
      cases call with
      | observe other numAccepted numDraft => exact tracks
      | decide other =>
        simp only [if_neg (show ¬ req = other from own)]
        exact tracks
      | evict other =>
        simp only [if_neg (show ¬ req = other from own)]
        exact tracks

/-- A decision goes high exactly when the latest excursion did, the average it is made on
counted, or when there was none. -/
theorem decide_settled (cfg : Config) (adaptive : cfg.kLo < cfg.kHi) (calls : List Call)
    (req : String) :
    (((Policy.fresh cfg).run cls calls).decide req).1 = cfg.kHi ↔
      Settled cfg.up cfg.down (cfg.seed ::
        (Policy.fresh cfg).averages cls req (calls ++ [.decide req]) []) := by
  have after := tracks_run cls (Policy.fresh cfg) req (calls ++ [.decide req]) [] (tracks_new cfg)
  obtain ⟨high, length, side⟩ := after
  have decided : ((Policy.fresh cfg).run cls (calls ++ [.decide req])).peek req =
      cfg.decided (((Policy.fresh cfg).run cls calls).peek req) := by
    rw [Policy.run, List.foldl_append]
    change (((Policy.fresh cfg).run cls calls).decide req).2.peek req = _
    rw [Policy.peek_decide, if_pos rfl, Policy.run_cfg]
    rfl
  rw [Policy.decide_fst, Policy.run_cfg]
  change (cfg.decided _).k = _ ↔ _
  rw [← decided, length]
  refine Iff.trans ?_ side
  change cfg.length high = cfg.kHi ↔ _
  cases high with
  | true => simp [Config.length]
  | false => simp [Config.length, adaptive.ne]

/-- A decision answers one of the two lengths. -/
theorem decide_lengths (cfg : Config) (calls : List Call) (req : String) :
    (((Policy.fresh cfg).run cls calls).decide req).1 = cfg.kLo ∨
      (((Policy.fresh cfg).run cls calls).decide req).1 = cfg.kHi := by
  obtain ⟨high, length, _⟩ :=
    (tracks_run cls (Policy.fresh cfg) req calls [] (tracks_new cfg)).decided
  have answer : (((Policy.fresh cfg).run cls calls).decide req).1 = cfg.length high := by
    rw [Policy.decide_fst, Policy.run_cfg]
    exact length
  cases high with
  | true => exact .inr answer
  | false => exact .inl answer

/-- Deciding twice without a signal in between is deciding once: the second call finds the average
where the first one left it. -/
theorem decided_decided (cfg : Config) (st : ReqState) :
    cfg.decided (cfg.decided st) = cfg.decided st := by
  simp only [Config.decided, cfg.kFor_repeat]

/-- Until a request is observed or evicted, a decision on it stands. -/
theorem decide_stands (policy : Policy) (req : String) (between : List Call)
    (only : ∀ call ∈ between, call.req = req → call = .decide req) :
    (((policy.decide req).2.run cls between).decide req).1 = (policy.decide req).1 ∧
    ((policy.decide req).2.run cls between).peek req = (policy.decide req).2.peek req := by
  have kept : ((policy.decide req).2.run cls between).peek req =
      policy.cfg.decided (policy.peek req) := by
    rw [Policy.peek_run, Policy.peek_decide, if_pos rfl, Policy.decide_cfg]
    refine List.foldlRecOn (motive := fun st => st = policy.cfg.decided (policy.peek req)) _ _
      rfl ?_
    rintro st rfl call own
    obtain ⟨listed, same⟩ := List.mem_filter.mp own
    rw [only call listed (by simpa using same)]
    exact decided_decided policy.cfg _
  rw [Policy.decide_fst, kept, Policy.run_cfg, Policy.decide_cfg, Policy.decide_fst,
    decided_decided, Policy.peek_decide, if_pos rfl]
  exact ⟨rfl, rfl⟩

/-- A request's decisions are made of its own calls. -/
theorem decide_own (policy : Policy) (req : String) (calls others : List Call)
    (same : calls.filter (·.req = req) = others.filter (·.req = req)) :
    ((policy.run cls calls).decide req).1 = ((policy.run cls others).decide req).1 := by
  rw [Policy.decide_fst, Policy.decide_fst, Policy.peek_run, Policy.peek_run, Policy.run_cfg,
    Policy.run_cfg, same]

/-- A comprehension holds no other pairs than it is given. -/
theorem mem_dictOf (entries : List (String × ℤ)) {entry : String × ℤ}
    (stored : entry ∈ dictOf entries) : entry ∈ entries := by
  refine List.foldlRecOn (motive := fun dict => ∀ entry ∈ dict, entry ∈ entries) entries _
    (fun _ listed => absurd listed List.not_mem_nil) ?_ entry stored
  intro dict earlier pair given other listed
  obtain new | old := Dict.mem_assign _ _ _ listed
  · exact new ▸ given
  · exact earlier other old

/-- A comprehension has a key for every pair it is given, and no others. -/
theorem mem_keys_dictOf (entries : List (String × ℤ)) (req : String) :
    req ∈ (dictOf entries).map Prod.fst ↔ req ∈ entries.map Prod.fst := by
  have grown : ∀ (rest dict : List (String × ℤ)),
      req ∈ (rest.foldl (fun dict entry => Dict.assign entry.1 entry.2 dict) dict).map Prod.fst ↔
        req ∈ dict.map Prod.fst ∨ req ∈ rest.map Prod.fst := by
    intro rest
    induction rest with
    | nil => simp
    | cons entry rest ih =>
      intro dict
      rw [List.foldl_cons, ih, Dict.mem_keys_assign, List.map_cons, List.mem_cons]
      tauto
  rw [dictOf, grown]
  simp

/-- A decision for each request of a list. -/
theorem decideEach_length (policy : Policy) (reqIds : List String) :
    (policy.decideEach reqIds).1.length = reqIds.length := by
  induction reqIds generalizing policy with
  | nil => rfl
  | cons req rest ih => exact congrArg Nat.succ (ih (policy.decide req).2)

/-- Lengths of requests on their own are keyed by the requests. -/
theorem ownLengths_keys (policy : Policy) (reqIds : List String) (engineK : ℤ) (req : String) :
    req ∈ (policy.ownLengths reqIds engineK).1.map Prod.fst ↔ req ∈ reqIds := by
  have lengths : reqIds.length ≤
      ((policy.decideEach reqIds).1.map fun k => placeholderLen k engineK).length := by
    rw [List.length_map, decideEach_length]
  rw [Policy.ownLengths]
  dsimp only
  rw [mem_keys_dictOf, List.map_fst_zip lengths]

/-- So are the lengths of one value for all. -/
theorem dictOf_const_keys (reqIds : List String) (value : ℤ) (req : String) :
    req ∈ (dictOf (reqIds.map fun req => (req, value))).map Prod.fst ↔ req ∈ reqIds := by
  rw [mem_keys_dictOf, List.map_map]
  simp

/-- `adaptive_k_scheduler.assign_lengths` hands out a length to every request of the step and to no
other. -/
theorem assignLengths_keys (policy : Policy) (reqIds : List String) (mode : AkMode) (engineK : ℤ)
    (req : String) :
    req ∈ (assignLengths policy reqIds mode engineK).1.map Prod.fst ↔ req ∈ reqIds := by
  unfold assignLengths
  split
  next empty => rw [empty]; rfl
  next =>
    cases mode with
    | batchUniform => exact dictOf_const_keys reqIds _ req
    | perRequest => exact ownLengths_keys policy reqIds engineK req

/-- So does `glm_levers_sched.assign_lengths`: its table has an entry for each request of the batch
and no other. -/
theorem lvAssignLengths_keys (lvMode : Mode) (policy : Policy) (reqIds : List String) (mode : AkMode)
    (engineK : ℤ) (req : String) :
    req ∈ (lvAssignLengths lvMode policy reqIds mode engineK).1.map Prod.fst ↔ req ∈ reqIds := by
  unfold lvAssignLengths
  split
  next empty => rw [empty]; rfl
  next =>
    cases lvMode with
    | batchMax => exact dictOf_const_keys reqIds _ req
    | batchUniform => exact assignLengths_keys policy reqIds .batchUniform engineK req
    | perRequest => exact assignLengths_keys policy reqIds mode engineK req

/-- A placeholder list is no longer than the engine's `k`, whatever length was decided. -/
theorem placeholderLen_le (kReq : ℤ) {engineK : ℤ} (nonneg : 0 ≤ engineK) :
    placeholderLen kReq engineK ≤ engineK := by
  rw [placeholderLen]
  omega

/-- Lengths of requests on their own fit the engine. -/
theorem ownLengths_le (policy : Policy) (reqIds : List String) {engineK : ℤ}
    (nonneg : 0 ≤ engineK) :
    ∀ entry ∈ (policy.ownLengths reqIds engineK).1, entry.2 ≤ engineK := by
  intro entry stored
  have paired := List.of_mem_zip (mem_dictOf _ stored)
  obtain ⟨k, _, length⟩ := List.mem_map.mp paired.2
  exact length.symm.trans_le (placeholderLen_le k nonneg)

/-- A comprehension with one value for all holds that value only. -/
theorem dictOf_const (reqIds : List String) (value : ℤ) :
    ∀ entry ∈ dictOf (reqIds.map fun req => (req, value)), entry.2 = value := by
  intro entry stored
  obtain ⟨req, _, rfl⟩ := List.mem_map.mp (mem_dictOf _ stored)
  rfl

/-- `adaptive_k_scheduler.assign_lengths` hands out lengths that fit the engine, and in
batch-uniform mode one length. -/
theorem assignLengths_fit (policy : Policy) (reqIds : List String) (mode : AkMode) {engineK : ℤ}
    (nonneg : 0 ≤ engineK) :
    (∀ entry ∈ (assignLengths policy reqIds mode engineK).1, entry.2 ≤ engineK) ∧
    (mode = .batchUniform → ∃ k, ∀ entry ∈ (assignLengths policy reqIds mode engineK).1,
      entry.2 = k) := by
  unfold assignLengths
  split
  next => exact ⟨List.forall_mem_nil _, fun _ => ⟨0, List.forall_mem_nil _⟩⟩
  next =>
    cases mode with
    | batchUniform =>
      have uniform := dictOf_const reqIds (placeholderLen (policy.decideBatch reqIds).1 engineK)
      exact ⟨fun entry listed => (uniform entry listed).trans_le (placeholderLen_le _ nonneg),
        fun _ => ⟨_, uniform⟩⟩
    | perRequest => exact ⟨ownLengths_le policy reqIds nonneg, nofun⟩

/-- So does `glm_levers_sched.assign_lengths`, with one length in both batch modes. -/
theorem lvAssignLengths_fit (lvMode : Mode) (policy : Policy) (reqIds : List String) (mode : AkMode)
    {engineK : ℤ} (nonneg : 0 ≤ engineK) :
    (∀ entry ∈ (lvAssignLengths lvMode policy reqIds mode engineK).1, entry.2 ≤ engineK) ∧
    (lvMode = .batchUniform ∨ lvMode = .batchMax ∨ mode = .batchUniform →
      ∃ k, ∀ entry ∈ (lvAssignLengths lvMode policy reqIds mode engineK).1, entry.2 = k) := by
  unfold lvAssignLengths
  split
  next => exact ⟨List.forall_mem_nil _, fun _ => ⟨0, List.forall_mem_nil _⟩⟩
  next =>
    cases lvMode with
    | batchMax =>
      have uniform := dictOf_const reqIds
        ((((policy.ownLengths reqIds engineK).1.map Prod.snd).max?).getD 0)
      have fits : (((policy.ownLengths reqIds engineK).1.map Prod.snd).max?).getD 0 ≤ engineK := by
        cases most : ((policy.ownLengths reqIds engineK).1.map Prod.snd).max? with
        | none => exact nonneg
        | some kMax =>
          obtain ⟨entry, listed, rfl⟩ := List.mem_map.mp (List.max?_mem most)
          exact ownLengths_le policy reqIds nonneg entry listed
      exact ⟨fun entry listed => (uniform entry listed).trans_le fits, fun _ => ⟨_, uniform⟩⟩
    | batchUniform =>
      have fit := assignLengths_fit policy reqIds .batchUniform nonneg
      exact ⟨fit.1, fun _ => fit.2 rfl⟩
    | perRequest =>
      have fit := assignLengths_fit policy reqIds mode nonneg
      exact ⟨fit.1, fun uniform => fit.2 (by simpa using uniform)⟩

/-- Deciding on a list of requests is calling `decide` on each. -/
theorem decideEach_run (policy : Policy) (reqIds : List String) :
    (policy.decideEach reqIds).2 = policy.run cls (reqIds.map .decide) := by
  induction reqIds generalizing policy with
  | nil => rfl
  | cons req rest ih => exact ih (policy.decide req).2

/-- `assign_lengths` leaves the averages and lengths that calls of `decide` leave. -/
theorem assignLengths_run (policy : Policy) (reqIds : List String) (mode : AkMode) (engineK : ℤ) :
    (assignLengths policy reqIds mode engineK).2.state =
      (policy.run cls (reqIds.map .decide)).state := by
  unfold assignLengths
  split
  next empty => rw [empty]; rfl
  next =>
    rw [← decideEach_run]
    cases mode with
    | batchUniform =>
      simp only [Policy.decideBatch]
      split <;> rfl
    | perRequest => rfl

/-- The version of the levers leaves them as well, whatever mode hands the lengths out. -/
theorem lvAssignLengths_run (lvMode : Mode) (policy : Policy) (reqIds : List String) (mode : AkMode)
    (engineK : ℤ) : (lvAssignLengths lvMode policy reqIds mode engineK).2.state =
      (policy.run cls (reqIds.map .decide)).state := by
  unfold lvAssignLengths
  split
  next empty => rw [empty]; rfl
  next =>
    cases lvMode with
    | batchMax => rw [← decideEach_run]; rfl
    | batchUniform => exact assignLengths_run cls policy reqIds .batchUniform engineK
    | perRequest => exact assignLengths_run cls policy reqIds mode engineK

/-- The adaptive draft length is hysteresis on the averages it is decided on. After any calls
every average is between 0 and 1; a decision is high exactly when the latest excursion among the
seed and the averages decided on since the last eviction was high, or when there was none; it
stands until the request is observed or evicted; it is made of the request's own calls; and both
versions of `assign_lengths` hand out a length to exactly the requests of the step, which fits the
engine and is one in the batch modes, and leave the averages and lengths that a decision for each
request leaves. -/
theorem adaptive_length (cfg : Config) (adaptive : cfg.kLo < cfg.kHi) (cls : PolicyClass)
    (calls : List Call) :
    (∀ req st, ((Policy.fresh cfg).run cls calls).state.lookup req = some st →
      0 ≤ st.ema ∧ st.ema ≤ 1) ∧
    (∀ req, ((((Policy.fresh cfg).run cls calls).decide req).1 = cfg.kHi ↔
        ∀ average ∈ lastExcursion cfg.up cfg.down (cfg.seed ::
          (Policy.fresh cfg).averages cls req (calls ++ [.decide req]) []), cfg.up ≤ average) ∧
      ((((Policy.fresh cfg).run cls calls).decide req).1 = cfg.kLo ∨
        (((Policy.fresh cfg).run cls calls).decide req).1 = cfg.kHi)) ∧
    (∀ req, let once := (((Policy.fresh cfg).run cls calls).decide req)
      (once.2.decide req).1 = once.1 ∧ (once.2.decide req).2.state = once.2.state ∧
      ∀ between : List Call, (∀ call ∈ between, call.req = req → call = .decide req) →
        ((once.2.run cls between).decide req).1 = once.1) ∧
    (∀ req others, calls.filter (·.req = req) = others.filter (·.req = req) →
      (((Policy.fresh cfg).run cls calls).decide req).1 =
        (((Policy.fresh cfg).run cls others).decide req).1) ∧
    (∀ reqIds mode numSpecTokens,
      let assigned := assignLengths ((Policy.fresh cfg).run cls calls) reqIds mode
        (akEngineK numSpecTokens)
      (∀ req, req ∈ assigned.1.map Prod.fst ↔ req ∈ reqIds) ∧
      (∀ entry ∈ assigned.1, entry.2 ≤ akEngineK numSpecTokens) ∧
      (mode = .batchUniform → ∃ k, ∀ entry ∈ assigned.1, entry.2 = k) ∧
      assigned.2.state =
        (((Policy.fresh cfg).run cls calls).run cls (reqIds.map .decide)).state) ∧
    ∀ lvMode reqIds mode numSpecTokens,
      let assigned := lvAssignLengths lvMode ((Policy.fresh cfg).run cls calls) reqIds mode
        (akEngineK numSpecTokens)
      (∀ req, req ∈ assigned.1.map Prod.fst ↔ req ∈ reqIds) ∧
      (∀ entry ∈ assigned.1, entry.2 ≤ akEngineK numSpecTokens) ∧
      (lvMode = .batchUniform ∨ lvMode = .batchMax ∨ mode = .batchUniform →
        ∃ k, ∀ entry ∈ assigned.1, entry.2 = k) ∧
      assigned.2.state =
        (((Policy.fresh cfg).run cls calls).run cls (reqIds.map .decide)).state := by
  have engine : ∀ numSpecTokens, 0 ≤ akEngineK numSpecTokens := fun _ => le_max_right _ _
  refine ⟨?_, ?_, ?_, ?_, ?_, ?_⟩
  · intro req st known
    have average := ema_mem cls cfg calls req
    rw [Policy.peek, known] at average
    exact average
  · exact fun req => ⟨decide_settled cls cfg adaptive calls req, decide_lengths cls cfg calls req⟩
  · intro req
    obtain ⟨same, state, _⟩ := Policy.decide_repeat ((Policy.fresh cfg).run cls calls) req
    exact ⟨same, state, fun between only => (decide_stands cls _ req between only).1⟩
  · exact fun req others same => decide_own cls (Policy.fresh cfg) req calls others same
  · intro reqIds mode numSpecTokens
    have fit := assignLengths_fit ((Policy.fresh cfg).run cls calls) reqIds mode (engine numSpecTokens)
    exact ⟨assignLengths_keys _ reqIds mode _, fit.1, fit.2, assignLengths_run cls _ reqIds mode _⟩
  · intro lvMode reqIds mode numSpecTokens
    have fit := lvAssignLengths_fit lvMode ((Policy.fresh cfg).run cls calls) reqIds mode
      (engine numSpecTokens)
    exact ⟨lvAssignLengths_keys lvMode _ reqIds mode _, fit.1, fit.2,
      lvAssignLengths_run cls lvMode _ reqIds mode _⟩

/-- Equal thresholds of one half, a new request in the middle of nothing. -/
def halves : Config where
  kLo := 3
  kHi := 5
  up := 1 / 2
  down := 1 / 2
  alpha := 1 / 2
  seed := 1
  mode := .perRequest
  signal := .pos
  lengths := by decide
  thresholds := by norm_num
  weight := by norm_num
  start := by norm_num

/-- Two failed steps bring a request below equal thresholds of one half. -/
theorem adaptive_length_halves : (3 : ℤ) < 5 ∧
    (((Policy.fresh halves).run .adaptiveK
      [.observe "a" 0 5, .decide "b", .decide "a", .observe "a" 2 5]).decide "a").1 = 3 ∧
    ((((Policy.fresh halves).run .adaptiveK
      [.observe "a" 0 5, .decide "b", .decide "a", .observe "a" 2 5]).decide "a").1 = 5 ↔
      ∀ average ∈ lastExcursion halves.up halves.down (halves.seed ::
        (Policy.fresh halves).averages .adaptiveK "a"
          ([.observe "a" 0 5, .decide "b", .decide "a", .observe "a" 2 5] ++ [.decide "a"]) []),
        halves.up ≤ average) :=
  ⟨by decide, by decide +kernel, ((adaptive_length halves (by decide) .adaptiveK _).2.1 "a").1⟩

end GlmSpark.AdaptiveK
