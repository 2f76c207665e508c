import GlmSpark.LookupPlanner
import GlmSpark.Runs

/-!
# The scheduler that drives the planner

`LookupScheduler` of `glm_lookup_draft.py` calls the planner around the steps of the engine: a
plan when a step is scheduled, `classify` before the tokens of an output are appended, `observe`
after. The steps run ahead of their outputs: the device verifies the drafts it made at the end of
the request's last step, commits, and drafts again, with the rows of `glm_lookup_hooks.py`
written over whatever is in the draft rows.

The device only reads its own history, so a step is executed here as soon as it is scheduled; the
host learns of it when its output is classified. A call that raises ends the run: the planner is
not used any more.
-/

namespace GlmSpark.LookupDriver

open LookupPlanner LookupRows Runs

/-- What the device drafted for a request at the end of a step: the row and the flag of the payload
of this step, the draft row, and the status of the lookup row. -/
structure Draft where
  seq : ℕ
  placeholders : ℕ
  row : Option Row
  skip : Bool
  ids : List ℤ
  status : ℕ

/-- A step of a request whose output the host has not seen: the draft it verified, the tokens it
committed, and whether it carried a plan for the request. -/
structure Flight where
  seq : ℕ
  verified : Option Draft
  emitted : List ℤ
  planned : Bool

/-- `num_accepted`: `max(len(gen) - 1, 0)`, as one token is the target's own. -/
def Flight.accepted (flight : Flight) : ℕ := flight.emitted.length - 1

/-- The number of drafts a step verified: `len(scheduled_spec_decode_tokens)`. -/
def Flight.kSched (flight : Flight) : ℕ :=
  match flight.verified with
  | some draft => draft.placeholders
  | none => 0

/-- How far `update_from_output` is with the next output of a request. -/
inductive Stage
  | waiting
  | classified (flight : Flight)
  | committed (flight : Flight)

/-- A request: `all_token_ids`, the history on the device, the drafts there, and the steps in
flight, the oldest first. -/
structure Request where
  host : List ℤ
  device : List ℤ
  draft : Option Draft
  flights : List Flight
  stage : Stage

/-- A new request. -/
def Request.fresh (prompt : List ℤ) : Request := ⟨prompt, prompt, none, [], .waiting⟩

/-- The placeholders the policy gives a request: how many, and what `PlanEntry` says of them. -/
structure Policy where
  eligible : Bool
  k : ℕ
  fixedK : Bool

universe u

/-- A request's part in a step. Without placeholders for the next step, or in a chunk of a prefill,
it has no policy. -/
structure Share (κ : Type u) where
  rid : κ
  policy : Option Policy
  emitted : List ℤ
  /-- the draft row before lookup rows are written -/
  ids : List ℤ

/-- The planner, the number of the last step, and the requests; `failed` is `_lk_failed`. -/
structure World (κ : Type u) where
  planner : Planner κ
  seq : ℕ
  requests : κ → Option Request
  failed : Bool

variable {κ : Type u} [DecidableEq κ] (engine : Engine)

/-- No step was scheduled. -/
def World.start : World κ := ⟨engine.start, 0, fun _ => none, false⟩

omit [DecidableEq κ] in
/-- The entry of a request in a plan: its committed tokens are those the host knows. -/
def Share.entry (world : World κ) (share : Share κ) : Option (PlanEntry κ) :=
  match world.requests share.rid, share.policy with
  | some r, some policy => some ⟨share.rid, r.host, policy.eligible, policy.k, policy.fixedK⟩
  | _, _ => none

/-- The entries of `_lk_plan`, in the order of the batch. -/
def World.entries (world : World κ) (shares : List (Share κ)) : List (PlanEntry κ) :=
  shares.filterMap (Share.entry world)

/-- The payload of a plan: only in mode `on`, and only with rows. -/
def attach (out : StepPlan κ) : Option (StepPlan κ) :=
  if engine.cfg.mode = .on ∧ out.rows ≠ [] then some out else none

/-- `_lk_plan`: the planner, and the payload unless the plan raises. -/
def World.plan (world : World κ) (shares : List (Share κ)) :
    Planner κ × Option (Option (StepPlan κ)) :=
  match world.entries shares with
  | [] => (world.planner, some none)
  | entries =>
    match world.planner.plan engine (world.seq + 1) entries shares.length with
    | (planner, some out) => (planner, some (attach engine out))
    | (planner, none) => (planner, none)

/-- The parameters the device draws from a payload. -/
def launch : Launch := ⟨engine.cfg.periodic, engine.cfg.maxDelta, 0, false⟩

/-- The row of a request in a payload. -/
def payloadRow (payload : Option (StepPlan κ)) (rid : κ) : Option Row :=
  payload.bind fun out => out.rows.lookup rid

/-- The row `plan_rows_for_batch` makes of it: source, length and number of ids. -/
def batchRow (row : Option Row) : ℤ × ℤ × ℤ :=
  match row with
  | some row => (row.src, row.lhost, max 0 (min row.k engine.engineK))
  | none => (0, 0, 0)

/-- What the device drafts for a request after a step; `none` when a row reads outside the
tokens. -/
def propose (row : Option Row) (tokens : List ℤ) (ids : List ℤ) : Option (List ℤ × ℕ) :=
  let (src, lhost, k) := batchRow engine row
  referenceRow (launch engine) tokens tokens.length src lhost k ids

/-- The length of `spec_token_ids` after the plan: `_ak_placeholders[min(k, _ak_engine_k)]`. -/
def placeholders (payload : Option (StepPlan κ)) (rid : κ) (policy : ℕ) : ℕ :=
  match payload.bind fun out => out.kOverride.lookup rid with
  | some k => min k engine.engineK
  | none => policy

/-- The draft of a request that has placeholders for the next step. -/
def drafted (seq : ℕ) (payload : Option (StepPlan κ)) (share : Share κ) (tokens : List ℤ)
    (policy : Policy) : Option Draft :=
  (propose engine (payloadRow payload share.rid) tokens share.ids).map fun (ids, status) =>
    { seq := seq
      placeholders := placeholders engine payload share.rid policy.k
      row := payloadRow payload share.rid
      skip := payload.any StepPlan.skip
      ids := ids
      status := status }

/-- The step of one request: what it commits is on the device, the drafts for the next step as well,
and the output is on its way. -/
def Request.launched (seq : ℕ) (payload : Option (StepPlan κ)) (share : Share κ) (r : Request) :
    Request :=
  { r with
    device := r.device ++ share.emitted
    draft := share.policy.bind (drafted engine seq payload share (r.device ++ share.emitted))
    flights := r.flights ++ [⟨seq, r.draft, share.emitted, share.policy.isSome⟩] }

/-- The requests after a step. -/
def World.launched (world : World κ) (payload : Option (StepPlan κ)) (shares : List (Share κ))
    (rid : κ) : Option Request :=
  match shares.find? fun share => share.rid = rid with
  | some share =>
    (world.requests rid).map (Request.launched engine (world.seq + 1) payload share)
  | none => world.requests rid

/-- Whether some draft of a step could not be made. -/
def World.crashed (world : World κ) (payload : Option (StepPlan κ)) (shares : List (Share κ)) :
    Bool :=
  shares.any fun share =>
    match world.requests share.rid with
    | some r =>
      (propose engine (payloadRow payload share.rid) (r.device ++ share.emitted) share.ids).isNone
    | none => false

/-- `_update_after_schedule`: the planner plans the step, and the step's drafts go on their way. -/
def World.schedule (world : World κ) (shares : List (Share κ)) : World κ :=
  match world.plan engine shares with
  | (planner, some payload) =>
    ⟨planner, world.seq + 1, world.launched engine payload shares,
      world.crashed engine payload shares⟩
  | (planner, none) => ⟨planner, world.seq + 1, world.launched engine none shares, true⟩

/-- Write a request. -/
def World.set (world : World κ) (rid : κ) (r : Option Request) : World κ :=
  { world with requests := Function.update world.requests rid r }

/-- `_lk_classify` for the next output of a request. -/
def World.classify (world : World κ) (rid : κ) : World κ :=
  match world.requests rid with
  | some ⟨host, device, draft, flight :: rest, .waiting⟩ =>
    let (planner, answer) := world.planner.classify engine flight.seq rid host.length
    { world.set rid (some ⟨host, device, draft, rest, .classified flight⟩) with
      planner := planner
      failed := answer.isNone }
  | _ => world

/-- The tokens of an output are appended; one that verified no drafts is done with. -/
def Request.commit (r : Request) : Request :=
  match r.stage, r.flights with
  | .classified flight, _ => { r with host := r.host ++ flight.emitted, stage := .committed flight }
  | .waiting, flight :: rest => { r with host := r.host ++ flight.emitted, flights := rest }
  | _, _ => r

/-- `_lk_observe` for the output of a request that is not finished. -/
def World.observe (world : World κ) (rid : κ) : World κ :=
  match world.requests rid with
  | some ⟨host, device, draft, flights, .committed flight⟩ =>
    let (planner, answer) := world.planner.observe engine flight.seq rid flight.kSched
      flight.accepted host
    { world.set rid (some ⟨host, device, draft, flights, .waiting⟩) with
      planner := planner
      failed := answer.isNone }
  | _ => world

/-- A finished request is forgotten, whatever is still in flight. -/
def World.finish (world : World κ) (rid : κ) : World κ :=
  let (planner, answer) := world.planner.finish engine rid
  { world.set rid none with planner := planner, failed := answer.isNone }

/-- A preempted request is started again from its committed tokens; its outputs are stale. -/
def Request.preempt (r : Request) : Request :=
  { r with device := r.host, draft := none, flights := [] }

/-- What may happen. -/
inductive Event (κ : Type u)
  | add (rid : κ) (prompt : List ℤ)
  | schedule (shares : List (Share κ))
  | classify (rid : κ)
  | commit (rid : κ)
  | observe (rid : κ)
  | finish (rid : κ)
  | preempt (rid : κ)
  | price (k : ℕ) (drafted : Bool) (ms : ℚ)

/-- One event. -/
def World.after (world : World κ) : Event κ → World κ
  | .add rid prompt => world.set rid (some (Request.fresh prompt))
  | .schedule shares => world.schedule engine shares
  | .classify rid => world.classify engine rid
  | .commit rid => world.set rid ((world.requests rid).map Request.commit)
  | .observe rid => world.observe engine rid
  | .finish rid => world.finish engine rid
  | .preempt rid => world.set rid ((world.requests rid).map Request.preempt)
  | .price k drafted ms =>
    { world with planner := { world.planner with cost := world.planner.cost.observe k drafted ms } }

/-- What a step commits: without drafts at most one token; with drafts the accepted ones and one
more, which differs from the first rejected one. -/
def Verifies (draft : Option Draft) (emitted : List ℤ) : Prop :=
  match draft with
  | none => emitted.length ≤ 1
  | some draft =>
    emitted ≠ [] ∧ emitted.length - 1 ≤ draft.placeholders ∧
      emitted.dropLast = draft.ids.take (emitted.length - 1) ∧
      (emitted.length - 1 < draft.placeholders →
        draft.ids[emitted.length - 1]? ≠ emitted[emitted.length - 1]?)

/-- Whether emitted tokens verify a draft is decided by comparing them with it. -/
instance (draft : Option Draft) (emitted : List ℤ) : Decidable (Verifies draft emitted) := by
  unfold Verifies
  cases draft <;> infer_instance

/-- A share of a known request, whose tokens verify its drafts and whose placeholders the engine can
verify. -/
def World.Takes (world : World κ) (share : Share κ) : Prop :=
  match world.requests share.rid with
  | some r => Verifies r.draft share.emitted ∧ share.ids.length = engine.engineK ∧
      ∀ policy ∈ share.policy, 0 < policy.k ∧ policy.k ≤ engine.engineK
  | none => False

/-- Whether a share can be scheduled is read off its request and the engine's `k`. -/
instance (world : World κ) (share : Share κ) : Decidable (world.Takes engine share) := by
  unfold World.Takes
  cases world.requests share.rid <;> infer_instance

/-- The next output of a request is waiting and verified drafts. -/
def Request.verifying (r : Request) : Bool :=
  match r.stage, r.flights with
  | .waiting, flight :: _ => flight.verified.isSome
  | _, _ => false

/-- The next output of a request is classified or needs no classification. -/
def Request.committing (r : Request) : Bool :=
  match r.stage, r.flights with
  | .waiting, flight :: _ => flight.verified.isNone
  | .classified _, _ => true
  | _, _ => false

/-- The last output of a request is committed and not observed yet. -/
def Request.observing (r : Request) : Bool :=
  match r.stage with
  | .committed _ => true
  | _ => false

/-- No output of a request is half handled. -/
def Request.settled (r : Request) : Bool :=
  match r.stage with
  | .waiting => true
  | _ => false

/-- What the engine does next: the stages of `update_from_output` follow each other, a request is
preempted between outputs, and a step verifies the drafts there are. -/
def World.Allowed (world : World κ) : Event κ → Prop
  | .add rid _ => world.requests rid = none
  | .schedule shares => (shares.map Share.rid).Nodup ∧ ∀ share ∈ shares, world.Takes engine share
  | .classify rid => (world.requests rid).any Request.verifying = true
  | .commit rid => (world.requests rid).any Request.committing = true
  | .observe rid => (world.requests rid).any Request.observing = true
  | .finish _ => True
  | .preempt rid => (world.requests rid).any Request.settled = true
  | .price _ _ _ => True

/-- Whether an event may come next is read off the world too. -/
instance (world : World κ) (event : Event κ) : Decidable (world.Allowed engine event) := by
  unfold World.Allowed
  cases event <;> infer_instance

/-- The runs of the planner under its scheduler. -/
def driver : System (World κ) (Event κ) where
  initial := World.start engine
  step := World.after engine
  allowed world event := world.failed = false ∧ world.Allowed engine event

/-- So driven runs can be evaluated. -/
instance (world : World κ) (event : Event κ) : Decidable ((driver engine).allowed world event) :=
  inferInstanceAs (Decidable (world.failed = false ∧ world.Allowed engine event))

end GlmSpark.LookupDriver
