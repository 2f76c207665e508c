import GlmSpark.LookupShadow
import GlmSpark.LookupTracks

/-!
# Who drafted what a step verified

Along every run of the planner under its scheduler the requests stay tracked, so no call raises and
no step drafted by lookup is accounted for wrongly. What `classify` answers is what the device did,
and a payload skips the draft forward for the whole batch or for no request.
-/

namespace GlmSpark.LookupAttribution

open LookupIndex LookupPlanner LookupPlans LookupAccounting LookupDriver LookupFlights LookupTracks
open Runs

universe u
variable {κ : Type u} [DecidableEq κ] (engine : Engine)

/-- What the planner holds follows a request; of a request that is not there it holds nothing. -/
def Follows (seq : ℕ) (held : Core) : Option Request → Prop
  | some r => Tracks engine seq held r
  | none => held = Core.fresh

/-- No call raised, no mismatch was counted, and every request is followed. -/
structure Consistent (world : World κ) : Prop where
  working : world.failed = false
  counted : world.planner.acctMismatch = 0
  follows : ∀ rid, Follows engine world.seq (view engine world.planner rid) (world.requests rid)

variable {engine}

section Entries

omit [DecidableEq κ] in
/-- An entry is that of a known request with a policy. -/
theorem entry_eq_some {world : World κ} {share : Share κ} {e : PlanEntry κ} :
    share.entry world = some e ↔ ∃ r policy, world.requests share.rid = some r ∧
      share.policy = some policy ∧
      e = ⟨share.rid, r.host, policy.eligible, policy.k, policy.fixedK⟩ := by
  rw [Share.entry]
  cases world.requests share.rid with
  | none =>
    constructor
    · intro none
      cases none
    · rintro ⟨r, policy, none, _⟩
      cases none
  | some r =>
    cases share.policy with
    | none =>
      constructor
      · intro none
        cases none
      · rintro ⟨r, policy, _, none, _⟩
        cases none
    | some policy =>
      constructor
      · exact fun same => ⟨r, policy, rfl, rfl, (Option.some.inj same).symm⟩
      · rintro ⟨r', policy', known, given, rfl⟩
        obtain rfl := Option.some.inj known
        obtain rfl := Option.some.inj given
        rfl

omit [DecidableEq κ] in
/-- The requests of the entries are among those of the step, in the same order. -/
theorem entries_sublist (world : World κ) (shares : List (Share κ)) :
    ((world.entries shares).map PlanEntry.rid).Sublist (shares.map Share.rid) := by
  induction shares with
  | nil => exact List.Sublist.slnil
  | cons share rest ih =>
    rw [World.entries, List.filterMap_cons, List.map_cons]
    cases made : share.entry world with
    | none => exact ih.cons _
    | some e =>
      obtain ⟨_, _, _, _, rfl⟩ := entry_eq_some.mp made
      exact ih.cons_cons _

end Entries

section Schedule

/-- What a scheduled step has of the planner: no entry is lost, records and payload rows agree, and
a payload skips for every request of the batch or for none. -/
structure Attached (engine : Engine) (world : World κ) (shares : List (Share κ))
    (after : Planner κ) (payload : Option (StepPlan κ)) : Prop where
  counted : after.acctMismatch = world.planner.acctMismatch
  others : ∀ rid ∉ (world.entries shares).map PlanEntry.rid,
    view engine after rid = view engine world.planner rid
  entries : ∀ e ∈ world.entries shares, ∃ plan,
    Planned engine (world.seq + 1) e.tokens (view engine world.planner e.rid)
      (view engine after e.rid) plan ∧
      rowOf plan = payloadRow payload e.rid ∧
      (∀ row, rowOf plan = some row → placeholders engine payload e.rid e.kPolicy = row.k) ∧
      (plan.mode = .skip → payload.any StepPlan.skip = true)
  skips : ∀ out ∈ payload, out.skip = true → ∀ share ∈ shares,
    ∃ row, out.rows.lookup share.rid = some row ∧ row.mode = .skip
  runs : ∀ out ∈ payload, out.skip = false → ∀ entry ∈ out.rows, entry.2.mode ≠ .skip

/-- The payload has the row, the placeholders and the flag a record stands for: where a record has a
row, the mode is `on` and the payload is attached. -/
theorem attach_entry {out : StepPlan κ} {rid : κ} {k : ℕ} {plan : PlanRec}
    (sensible : Sensible engine plan) (row : out.rows.lookup rid = rowOf plan)
    (length : ∀ row, rowOf plan = some row → (out.kOverride.lookup rid).getD k = row.k)
    (skip : plan.mode = .skip → out.skip = true) :
    rowOf plan = payloadRow (attach engine out) rid ∧
      (∀ row, rowOf plan = some row → placeholders engine (attach engine out) rid k = row.k) ∧
      (plan.mode = .skip → (attach engine out).any StepPlan.skip = true) := by
  cases stands : rowOf plan with
  | none =>
    refine ⟨?_, fun row none => ?_, fun skips => absurd stands (sensible.skip_row skips)⟩
    · rw [stands] at row
      rw [payloadRow, attach]
      split
      · exact row.symm
      · rfl
    · cases none
  | some found =>
    rw [stands] at row
    obtain ⟨lookup, _, sameLength⟩ := mode_of_row stands
    have some_row : out.rows ≠ [] := by
      intro none
      rw [none] at row
      cases row
    have attached : attach engine out = some out := if_pos ⟨sensible.on lookup, some_row⟩
    rw [attached]
    refine ⟨row.symm, fun other same => ?_, skip⟩
    have most := (sensible.length lookup).2
    have given := length other (stands.trans same)
    obtain rfl := Option.some.inj same
    rw [placeholders, Option.bind_some]
    cases overridden : out.kOverride.lookup rid with
    | none =>
      rw [overridden] at given
      exact given
    | some k =>
      rw [overridden, Option.getD_some] at given
      dsimp only
      rw [given]
      exact Nat.min_eq_left (sameLength ▸ most)

/-- `_lk_plan` never raises in a consistent world. -/
theorem plan_attached {world : World κ} (consistent : Consistent engine world)
    (plain : engine.cfg.force.alternating = false) {shares : List (Share κ)}
    (single : (shares.map Share.rid).Nodup)
    (takes : ∀ share ∈ shares, world.Takes engine share) :
    ∃ payload, (world.plan engine shares).2 = some payload ∧
      Attached engine world shares (world.plan engine shares).1 payload := by
  have sublist := entries_sublist world shares
  have follows : ∀ e ∈ world.entries shares, ∃ r,
      Tracks engine world.seq (view engine world.planner e.rid) r ∧
        0 < e.kPolicy ∧ e.kPolicy ≤ engine.engineK := by
    intro e listed
    obtain ⟨share, there, made⟩ := List.mem_filterMap.mp listed
    obtain ⟨r, policy, known, given, rfl⟩ := entry_eq_some.mp made
    have followed := consistent.follows share.rid
    have taken := takes share there
    rw [known] at followed
    rw [World.Takes, known] at taken
    exact ⟨r, followed, taken.2.2 policy given⟩
  rw [World.plan]
  cases here : world.entries shares with
  | nil =>
    refine ⟨none, rfl, rfl, fun _ _ => rfl, fun e listed => ?_, fun out none => ?_,
      fun out none => ?_⟩
    · rw [here] at listed
      exact absurd listed List.not_mem_nil
    · cases none
    · cases none
  | cons first rest =>
    dsimp only
    rw [← here]
    obtain ⟨out, answered, made⟩ := plan_spec plain world.planner (world.seq + 1)
      (world.entries shares) shares.length (single.sublist sublist)
      (fun e listed => (follows e listed).choose_spec.2)
      (fun e listed => (follows e listed).choose_spec.1.single)
      (fun e listed n recorded => Nat.lt_succ_of_le ((follows e listed).choose_spec.1.newest n
        recorded))
    generalize world.planner.plan engine (world.seq + 1) (world.entries shares) shares.length =
      result at answered made
    obtain ⟨after, answer⟩ := result
    dsimp only at answered made
    subst answered
    dsimp only
    refine ⟨_, rfl, ?_⟩
    have whole : ∀ out' ∈ attach engine out, out' = out := by
      intro out' held
      rw [attach] at held
      split at held
      · exact (Option.some.inj held).symm
      · cases held
    constructor
    case counted => exact made.counted
    case others => exact fun rid absent => (made.others rid absent).1
    case entries =>
      intro e listed
      obtain ⟨plan, planned, row, length, skip⟩ := made.entries e listed
      exact ⟨plan, planned, attach_entry planned.sensible row length skip⟩
    case skips =>
      intro out' held skip share there
      rw [whole out' held] at skip ⊢
      rw [← List.length_map Share.rid] at made
      exact made.covers (fun rid planned => sublist.subset planned) skip share.rid
        (List.mem_map_of_mem there)
    case runs =>
      intro out' held run
      rw [whole out' held] at run ⊢
      exact made.runs run

end Schedule

section Steps

/-- Writing a request and its state keeps the world consistent. -/
theorem Consistent.write {world : World κ} (consistent : Consistent engine world) (rid : κ)
    {planner : Planner κ} {r : Option Request} {held : Core}
    (counted : planner.acctMismatch = world.planner.acctMismatch)
    (seen : ∀ other, view engine planner other =
      if other = rid then held else view engine world.planner other)
    (follows : Follows engine world.seq held r) :
    Consistent engine
      { world with
        planner := planner
        requests := Function.update world.requests rid r } := by
  refine ⟨consistent.working, counted.trans consistent.counted, fun other => ?_⟩
  dsimp only
  rw [seen, Function.update_apply]
  split
  · exact follows
  · exact consistent.follows other

/-- Writing a request alone keeps the world consistent. -/
theorem Consistent.set {world : World κ} (consistent : Consistent engine world) (rid : κ)
    {r : Option Request} (follows : Follows engine world.seq (view engine world.planner rid) r) :
    Consistent engine (world.set rid r) :=
  consistent.write rid rfl (fun other => by
    split
    next own => rw [own]
    next => rfl) follows

/-- A draft is made by the row of its record. -/
theorem drafted_made {payload : Option (StepPlan κ)} {share : Share κ} {tokens : List ℤ}
    {policy : Policy} {seq : ℕ} (width : share.ids.length = engine.engineK) {plan : PlanRec}
    (sensible : Sensible engine plan) (stands : rowOf plan = payloadRow payload share.rid)
    (length : ∀ row, rowOf plan = some row →
      placeholders engine payload share.rid policy.k = row.k) {d : Draft}
    (made : drafted engine seq payload share tokens policy = some d) :
    d.seq = seq ∧ d.row = rowOf plan ∧ d.skip = payload.any StepPlan.skip ∧
      Made engine tokens d := by
  obtain ⟨⟨ids, status⟩, proposed, rfl⟩ := Option.map_eq_some_iff.mp made
  refine ⟨rfl, stands.symm, rfl, ⟨share.ids, width, proposed⟩, fun row own => ?_⟩
  have same : rowOf plan = some row := stands.trans own
  obtain ⟨lookup, _, k⟩ := mode_of_row same
  obtain ⟨positive, most⟩ := sensible.length lookup
  exact ⟨k.symm ▸ positive, k.symm ▸ most, length row same⟩

/-- Drafting never fails: no draft reads outside the tokens of its request. -/
theorem crashed_eq_false (world : World κ) (payload : Option (StepPlan κ))
    (shares : List (Share κ)) : world.crashed engine payload shares = false := by
  rw [World.crashed, List.any_eq_false]
  intro share _
  cases world.requests share.rid with
  | none => exact Bool.false_ne_true
  | some r =>
    obtain ⟨written, made⟩ := propose_some engine (payloadRow payload share.rid)
      (r.device ++ share.emitted) share.ids
    dsimp only
    rw [made]
    exact Bool.false_ne_true

/-- The step of a request with no policy: the planner does not see it. -/
theorem Attached.unplanned {world : World κ} {shares : List (Share κ)} {after : Planner κ}
    {payload : Option (StepPlan κ)} (attached : Attached engine world shares after payload)
    (single : (shares.map Share.rid).Nodup) {share : Share κ} (there : share ∈ shares)
    (none : share.policy = none) :
    view engine after share.rid = view engine world.planner share.rid := by
  refine attached.others share.rid fun planned => ?_
  obtain ⟨e, listed, same⟩ := List.mem_map.mp planned
  obtain ⟨other, also, made⟩ := List.mem_filterMap.mp listed
  obtain ⟨_, policy, _, has, rfl⟩ := entry_eq_some.mp made
  have equal : other = share := List.inj_on_of_nodup_map single also there same
  rw [equal, none] at has
  cases has

/-- The step of a request keeps it tracked. -/
theorem Attached.launched {world : World κ} {shares : List (Share κ)} {after : Planner κ}
    {payload : Option (StepPlan κ)} (attached : Attached engine world shares after payload)
    (single : (shares.map Share.rid).Nodup) {share : Share κ} (there : share ∈ shares)
    {r : Request} (known : world.requests share.rid = some r)
    (tracks : Tracks engine world.seq (view engine world.planner share.rid) r)
    (verifies : Verifies r.draft share.emitted) (width : share.ids.length = engine.engineK) :
    Tracks engine (world.seq + 1) (view engine after share.rid)
      (r.launched engine (world.seq + 1) payload share) := by
  rw [Request.launched]
  cases given : share.policy with
  | none =>
    rw [attached.unplanned single there given]
    exact tracks.launched tracks.indexed (List.prefix_refl _) tracks.initial
      (Carried.refl tracks.single _) rfl rfl verifies _
      (fun listed => absurd (tracks.newest _ listed) (Nat.not_succ_le_self _))
      fun d none => by cases none
  | some policy =>
    have listed : ⟨share.rid, r.host, policy.eligible, policy.k, policy.fixedK⟩ ∈
        world.entries shares :=
      List.mem_filterMap.mpr ⟨share, there, entry_eq_some.mpr ⟨r, policy, known, given, rfl⟩⟩
    obtain ⟨plan, planned, stands, length, skips⟩ := attached.entries _ listed
    dsimp only at planned stands length
    obtain ⟨budget, index⟩ := planned.idx
    obtain ⟨indexed, more, initial, _⟩ := sync_grows budget tracks.indexed tracks.initial
    rw [← index] at indexed more initial
    refine tracks.launched indexed more initial planned.plans.toCarried planned.pending
      planned.cur verifies _ (fun _ => rfl) fun d made => ?_
    obtain ⟨seq, row, skip, right⟩ := drafted_made width planned.sensible stands length made
    refine ⟨seq, right, fun other recorded => ?_, ?_⟩
    · rw [seq, planned.plans.own] at recorded
      obtain rfl := Option.some.inj recorded
      exact ⟨row.symm, fun mode => skip.trans (skips mode)⟩
    · rw [seq]
      exact .inl (mem_numbers_of_lookup planned.plans.own)

/-- A scheduled step keeps the world consistent. -/
theorem schedule_consistent {world : World κ} (consistent : Consistent engine world)
    (plain : engine.cfg.force.alternating = false) {shares : List (Share κ)}
    (single : (shares.map Share.rid).Nodup)
    (takes : ∀ share ∈ shares, world.Takes engine share) :
    Consistent engine (world.schedule engine shares) := by
  obtain ⟨payload, answered, attached⟩ := plan_attached consistent plain single takes
  rw [World.schedule]
  generalize world.plan engine shares = result at answered attached
  obtain ⟨after, answer⟩ := result
  dsimp only at answered attached
  subst answered
  dsimp only
  refine ⟨crashed_eq_false world payload shares, attached.counted.trans consistent.counted,
    fun rid => ?_⟩
  have followed := consistent.follows rid
  dsimp only
  rw [World.launched]
  cases found : shares.find? fun share => share.rid = rid with
  | none =>
    have unplanned : rid ∉ (world.entries shares).map PlanEntry.rid := by
      intro planned
      obtain ⟨share, there, same⟩ :=
        List.mem_map.mp ((entries_sublist world shares).subset planned)
      exact absurd (decide_eq_true same) (List.find?_eq_none.mp found share there)
    dsimp only
    rw [attached.others rid unplanned]
    cases known : world.requests rid with
    | none =>
      rw [known] at followed
      exact followed
    | some r =>
      rw [known] at followed
      exact Tracks.later followed
  | some share =>
    have there := List.mem_of_find?_eq_some found
    have own : share.rid = rid := by simpa using List.find?_some found
    subst own
    have taken := takes share there
    rw [World.Takes] at taken
    cases known : world.requests share.rid with
    | none =>
      rw [known] at taken
      exact taken.elim
    | some r =>
      rw [known] at taken followed
      dsimp only
      rw [Option.map_some]
      exact attached.launched single there known followed taken.1 taken.2.1

/-- Classifying an output keeps the world consistent. -/
theorem classify_consistent {world : World κ} (consistent : Consistent engine world) {rid : κ}
    (verifying : (world.requests rid).any Request.verifying = true) :
    Consistent engine (world.classify engine rid) := by
  have followed := consistent.follows rid
  rw [World.classify]
  split
  case h_2 => exact consistent
  case h_1 host device draft flight rest known =>
    rw [known] at followed verifying
    obtain ⟨d, verified⟩ := Option.isSome_iff_exists.mp (show flight.verified.isSome = true from
      verifying)
    have tracks : Tracks engine world.seq (view engine world.planner rid)
      ⟨host, device, draft, flight :: rest, .waiting⟩ := followed
    obtain ⟨answered, counted, seen⟩ := classify_spec engine world.planner flight.seq
      rid host.length
    dsimp only
    rw [answered]
    have written := consistent.write rid counted seen
      (r := some ⟨host, device, draft, rest, .classified flight⟩)
      (tracks.classified rfl rfl verified)
    exact { written with working := rfl }

/-- Appending an output keeps the world consistent. -/
theorem commit_consistent {world : World κ} (consistent : Consistent engine world) (rid : κ) :
    Consistent engine (world.set rid ((world.requests rid).map Request.commit)) := by
  refine consistent.set rid ?_
  have followed := consistent.follows rid
  cases known : world.requests rid with
  | none =>
    rw [known] at followed
    exact followed
  | some r =>
    rw [known] at followed
    rw [Option.map_some, Request.commit]
    have tracks : Tracks engine world.seq (view engine world.planner rid) r := followed
    split
    next judged => exact tracks.committed judged
    next waiting next => exact tracks.appended waiting next
    next => exact tracks

/-- Observing an output keeps the world consistent when the budget exceeds the draft length. -/
theorem observe_consistent {world : World κ} (consistent : Consistent engine world)
    (budget : engine.engineK < engine.cfg.ingestBudget) (rid : κ) :
    Consistent engine (world.observe engine rid) := by
  have followed := consistent.follows rid
  rw [World.observe]
  split
  case h_2 => exact consistent
  case h_1 host device draft flights flight known =>
    rw [known] at followed
    have tracks : Tracks engine world.seq (view engine world.planner rid)
      ⟨host, device, draft, flights, .committed flight⟩ := followed
    dsimp only
    cases left : (view engine world.planner rid).cur with
    | none =>
      rw [observe_unclassified world.planner flight.seq rid _ _ host fun cur judged => by
        rw [left] at judged
        cases judged]
      have written := consistent.set rid (r := some ⟨host, device, draft, flights, .waiting⟩)
        (tracks.unobserved rfl left)
      exact { written with working := rfl }
    | some cur =>
      obtain ⟨own, fits, observed⟩ := tracks.observed budget rfl left
      obtain ⟨answered, counted, pending, suffix, seen⟩ := observe_spec world.planner flight.seq rid
        flight.kSched flight.accepted host left own fits
      rw [answered]
      have written := consistent.write rid counted seen
        (r := some ⟨host, device, draft, flights, .waiting⟩) (observed pending suffix)
      exact { written with working := rfl }

/-- Finishing a request keeps the world consistent. -/
theorem finish_consistent {world : World κ} (consistent : Consistent engine world) (rid : κ) :
    Consistent engine (world.finish engine rid) := by
  have fits : ∀ pd ∈ (view engine world.planner rid).pending,
      Fits engine (view engine world.planner rid).idx.tokens pd := by
    have followed := consistent.follows rid
    cases known : world.requests rid with
    | none =>
      rw [known] at followed
      intro pd listed
      rw [show view engine world.planner rid = Core.fresh from followed] at listed
      exact absurd listed List.not_mem_nil
    | some r =>
      rw [known] at followed
      exact Tracks.fits followed
  obtain ⟨answered, counted, seen⟩ := finish_spec world.planner rid fits
  rw [World.finish]
  dsimp only
  rw [answered]
  have written := consistent.write rid counted seen (r := none) rfl
  exact { written with working := rfl }

/-- Preempting a request keeps the world consistent. -/
theorem preempt_consistent {world : World κ} (consistent : Consistent engine world) {rid : κ}
    (settled : (world.requests rid).any Request.settled = true) :
    Consistent engine (world.set rid ((world.requests rid).map Request.preempt)) := by
  refine consistent.set rid ?_
  have followed := consistent.follows rid
  cases known : world.requests rid with
  | none =>
    rw [known] at followed
    exact followed
  | some r =>
    rw [known] at followed settled
    have waiting : r.stage = .waiting := by
      rw [Option.any_some, Request.settled] at settled
      split at settled
      next waiting => exact waiting
      next => cases settled
    exact Tracks.preempted followed waiting

/-- Every event of the driver keeps the world consistent, so every driven run is in consistent
states. -/
theorem after_consistent {world : World κ} (consistent : Consistent engine world)
    (plain : engine.cfg.force.alternating = false)
    (budget : engine.engineK < engine.cfg.ingestBudget) (event : Event κ)
    (sent : world.Allowed engine event) : Consistent engine (world.after engine event) := by
  cases event with
  | add rid prompt =>
    have followed := consistent.follows rid
    rw [show world.requests rid = none from sent] at followed
    refine consistent.set rid ?_
    rw [show view engine world.planner rid = Core.fresh from followed]
    exact tracks_fresh world.seq prompt
  | schedule shares => exact schedule_consistent consistent plain sent.1 sent.2
  | classify rid => exact classify_consistent consistent sent
  | commit rid => exact commit_consistent consistent rid
  | observe rid => exact observe_consistent consistent budget rid
  | finish rid => exact finish_consistent consistent rid
  | preempt rid => exact preempt_consistent consistent sent
  | price k drafted ms =>
    exact ⟨consistent.working, consistent.counted, consistent.follows⟩

/-- Every world of a run is consistent. -/
theorem reachable_consistent (plain : engine.cfg.force.alternating = false)
    (budget : engine.engineK < engine.cfg.ingestBudget) {world : World κ}
    (reachable : Reachable (driver engine) world) : Consistent engine world := by
  apply reachable.invariant
  · refine ⟨rfl, rfl, fun rid => ?_⟩
    exact view_unknown rfl
  · intro world event consistent sent
    exact after_consistent consistent plain budget event sent.2

end Steps

section Run

/-- A planner that prefers any lookup draft to a neural one. -/
def eager : Engine :=
  { LookupShadow.copying with
    cfg :=
      { LookupShadow.copying.cfg with
        force := .free
        minObs := 0
        skip := true
        skipStreak := false }
    cost := { LookupShadow.copying.cost with draft := 1000 } }

/-- A step of one request with three placeholders. -/
def stepOf (emitted : List ℤ) : Event ℕ :=
  .schedule [⟨0, some ⟨true, 3, false⟩, emitted, [0, 0, 0]⟩]

/-- A request that repeats itself, after its first token and a step that rejects the first draft. -/
def repeating : List (Event ℕ) := [.add 0 [1, 2, 3, 1, 2], stepOf [3], .commit 0, stepOf [7]]

/-- Seven more steps before the first of these outputs is seen. -/
def delayed : List (Event ℕ) := repeating ++ List.replicate 7 (stepOf [7])

/-- The world after some events. -/
def reached (events : List (Event ℕ)) : World ℕ := (driver eager).run (World.start eager) events

/-- What the next output of the request is answered, with the status of the draft it verified, when
the index holds the committed tokens. -/
def nextAnswer (world : World ℕ) : Option (ℕ × Source) :=
  match world.requests 0 with
  | some ⟨host, _, _, ⟨seq, some d, _, _⟩ :: _, .waiting⟩ =>
    if host.length ≤ (world.planner.state eager 0).idx.tokens.length then
      (world.planner.classify eager seq 0 host.length).2.map fun source => (d.status, source)
    else none
  | _ => none

/-- An answer is about the next output. -/
theorem nextAnswer_spec {world : World ℕ} {status : ℕ} {source : Source}
    (answered : nextAnswer world = some (status, source)) : ∃ r flight rest d,
      world.requests 0 = some r ∧ r.stage = .waiting ∧ r.flights = flight :: rest ∧
        flight.verified = some d ∧ d.status = status ∧
        r.host.length ≤ (world.planner.state eager 0).idx.tokens.length ∧
        (world.planner.classify eager flight.seq 0 r.host.length).2 = some source := by
  rw [nextAnswer] at answered
  split at answered
  next host _ _ seq d _ _ _ known =>
    split at answered
    next indexed =>
      obtain ⟨found, classified, same⟩ := Option.map_eq_some_iff.mp answered
      obtain ⟨rfl, rfl⟩ := Prod.mk.inj same
      exact ⟨_, _, _, d, known, rfl, rfl, rfl, rfl, indexed, classified⟩
    next => cases answered
  next => cases answered

end Run

section Results

/-- In every run of the planner under its scheduler, outside the alternating test modes and with an
ingest budget above the draft length, no call raises and no mismatch is counted. `classify` answers
lookup only where the device wrote a lookup draft, and junk only where the payload skipped the
forward; it answers lookup for every written draft once the index holds the committed tokens, as
long as fewer than eight of the request's steps in flight carried a plan. A payload that skips has a
skip row for every request of the batch, any other has none, and every record stands for the row
handed out. -/
theorem lookup_attribution (plain : engine.cfg.force.alternating = false)
    (budget : engine.engineK < engine.cfg.ingestBudget) {world : World κ}
    (reachable : Reachable (driver engine) world) :
    world.failed = false ∧ world.planner.acctMismatch = 0 ∧
    (∀ rid r flight rest d, world.requests rid = some r → r.stage = .waiting →
      r.flights = flight :: rest → flight.verified = some d →
      ∃ source, (world.planner.classify engine flight.seq rid r.host.length).2 = some source ∧
        (source = .lookup → 0 < d.status) ∧ (source = .junk → d.skip = true) ∧
        (0 < d.status → r.host.length ≤ (world.planner.state engine rid).idx.tokens.length →
          r.flights.countP Flight.planned < 8 → source = .lookup)) ∧
    ∀ shares, (shares.map Share.rid).Nodup → (∀ share ∈ shares, world.Takes engine share) →
      ∃ payload, (world.plan engine shares).2 = some payload ∧
        (∀ out ∈ payload,
          (out.skip = true → ∀ share ∈ shares,
            ∃ row, out.rows.lookup share.rid = some row ∧ row.mode = .skip) ∧
          (out.skip = false → ∀ entry ∈ out.rows, entry.2.mode ≠ .skip)) ∧
        ∀ e ∈ world.entries shares, ∃ st plan,
          (world.plan engine shares).1.states e.rid = some st ∧
            st.plans.lookup (world.seq + 1) = some plan ∧
            rowOf plan = payloadRow payload e.rid ∧
            (plan.mode = .skip → payload.any StepPlan.skip = true) := by
  have consistent := reachable_consistent plain budget reachable
  refine ⟨consistent.working, consistent.counted, ?_, ?_⟩
  · intro rid r flight rest d known waiting next verified
    have followed := consistent.follows rid
    rw [known] at followed
    have tracks : Tracks engine world.seq (view engine world.planner rid) r := followed
    exact ⟨_, (classify_spec engine world.planner flight.seq rid r.host.length).1,
      tracks.answers waiting next verified⟩
  · intro shares single takes
    obtain ⟨payload, answered, attached⟩ := plan_attached consistent plain single takes
    refine ⟨payload, answered, fun out held => ⟨attached.skips out held, attached.runs out held⟩,
      fun e listed => ?_⟩
    obtain ⟨plan, planned, stands, _, skips⟩ := attached.entries e listed
    obtain ⟨st, here, recorded⟩ := state_of_record planned.plans.own
    exact ⟨st, plan, here, recorded, stands, skips⟩

/-- The step that verified the first lookup draft is answered so. -/
theorem lookup_attribution_repeating : Reachable (driver eager) (reached repeating) ∧
    (reached repeating).planner.acctMismatch = 0 ∧ ∃ r flight rest,
      (reached repeating).requests 0 = some r ∧ r.flights = flight :: rest ∧
        ((reached repeating).planner.classify eager flight.seq 0 r.host.length).2 =
          some .lookup := by
  have permitted : (driver eager).Permits (World.start eager) repeating := by decide +kernel
  have reachable : Reachable (driver eager) (reached repeating) :=
    Reachable.initial.run repeating permitted
  have answered : nextAnswer (reached repeating) = some (4, .lookup) := by decide +kernel
  have short : ((reached repeating).requests 0).all (fun r =>
      decide (r.flights.countP Flight.planned < 8)) = true := by decide +kernel
  obtain ⟨r, flight, rest, d, known, waiting, next, verified, status, indexed, _⟩ :=
    nextAnswer_spec answered
  obtain ⟨_, counted, answers, _⟩ := @lookup_attribution ℕ _ eager rfl (by decide) _ reachable
  obtain ⟨source, classified, _, _, lookup⟩ :=
    answers 0 r flight rest d known waiting next verified
  rw [known] at short
  rw [lookup (by omega) indexed (of_decide_eq_true short)] at classified
  exact ⟨reachable, counted, r, flight, rest, known, next, classified⟩

/-- With eight steps in flight the plan of a written draft is pruned, and its step is answered as
nobody's. -/
theorem pruned_plan_unanswered : eager.cfg.force = .free ∧
    eager.engineK < eager.cfg.ingestBudget ∧
    ¬ ∀ world : World ℕ, Reachable (driver eager) world →
      ∀ r flight rest d, world.requests 0 = some r → r.stage = .waiting →
        r.flights = flight :: rest → flight.verified = some d → 0 < d.status →
        r.host.length ≤ (world.planner.state eager 0).idx.tokens.length →
        (world.planner.classify eager flight.seq 0 r.host.length).2 = some .lookup := by
  refine ⟨rfl, by decide, fun always => ?_⟩
  have permitted : (driver eager).Permits (World.start eager) delayed := by decide +kernel
  have reachable : Reachable (driver eager) (reached delayed) :=
    Reachable.initial.run delayed permitted
  have answered : nextAnswer (reached delayed) = some (4, .none) := by decide +kernel
  obtain ⟨r, flight, rest, d, known, waiting, next, verified, status, indexed, classified⟩ :=
    nextAnswer_spec answered
  have lookup := always _ reachable r flight rest d known waiting next verified (by omega) indexed
  rw [classified] at lookup
  cases lookup

/-- A rejected lookup draft is accounted for when the request ends. -/
example : (reached (repeating ++ [.classify 0, .commit 0, .observe 0, .finish 0])).planner.acctOk =
    1 := by decide +kernel

end Results

end GlmSpark.LookupAttribution
