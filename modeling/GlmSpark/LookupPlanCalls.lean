import GlmSpark.LookupPlans
import Mathlib.Data.List.Dedup

/-!
# One call of the planner

`plan` treats the requests of a batch one after another, each on its own state. What a call
leaves of a request is its index after a `sync`, one more record and the steps that were
pending; what it hands out for the request is the row its record stands for. A row that skips
the forward is handed out only when every request of the batch has one.
-/

namespace GlmSpark.LookupPlans

open LookupIndex LookupPlanner

universe u
variable {κ : Type u} [DecidableEq κ]

section View

/-- What the attribution of a request rests on: its index, its records, its pending steps and
what `classify` left. -/
structure Core where
  idx : ContextIndex
  plans : List (ℕ × PlanRec)
  pending : List Pending
  cur : Option Current

/-- The core of a request without a state. -/
def Core.fresh : Core := ⟨ContextIndex.empty, [], [], none⟩

/-- The core of a state. -/
def core (st : ReqState) : Core := ⟨st.idx, st.plans, st.pending, st.cur⟩

variable (engine : Engine)

/-- The core of a request, the one of a fresh state for an unknown request. -/
def view (planner : Planner κ) (rid : κ) : Core := core (planner.state engine rid)

variable {engine}

omit [DecidableEq κ] in
/-- A known state is seen by its core. -/
theorem view_of_state {planner : Planner κ} {rid : κ} {st : ReqState}
    (here : planner.states rid = some st) : view engine planner rid = core st := by
  rw [view, Planner.state, here, Option.getD_some]

omit [DecidableEq κ] in
/-- An unknown request has no record, no pending step and nothing classified. -/
theorem view_unknown {planner : Planner κ} {rid : κ} (unknown : planner.states rid = none) :
    view engine planner rid = Core.fresh := by
  rw [view, Planner.state, unknown, Option.getD_none]
  rfl

/-- Writing a state changes what is seen of its request. -/
theorem view_put (planner : Planner κ) (rid other : κ) (st : ReqState) :
    view engine (planner.put rid st) other =
      if other = rid then core st else view engine planner other := by
  rw [view, Planner.state, Planner.states_put]
  split <;> rfl

/-- A state with the same core leaves every view as it was. -/
theorem view_put_same {planner : Planner κ} {rid : κ} {st next : ReqState}
    (here : planner.states rid = some st) (same : core next = core st) :
    view engine (planner.put rid next) = view engine planner := by
  funext other
  rw [view_put]
  split
  next own => rw [own, view_of_state here, same]
  next => rfl

/-- An evicted request is unknown, and no other view changes. -/
theorem view_evict (planner : Planner κ) (rid other : κ) :
    view engine (planner.evict rid) other =
      if other = rid then Core.fresh else view engine planner other := by
  split
  next own => exact view_unknown (by rw [Planner.states_evict, if_pos own])
  next different => rw [view, view, Planner.state, Planner.state, Planner.states_evict,
      if_neg different]

omit [DecidableEq κ] in
/-- A record that is seen belongs to a known state. -/
theorem state_of_record {planner : Planner κ} {rid : κ} {seq : ℕ} {plan : PlanRec}
    (recorded : (view engine planner rid).plans.lookup seq = some plan) :
    ∃ st, planner.states rid = some st ∧ st.plans.lookup seq = some plan := by
  cases here : planner.states rid with
  | none =>
    rw [view_unknown here] at recorded
    cases recorded
  | some st =>
    rw [view_of_state here] at recorded
    exact ⟨st, rfl, recorded⟩

end View

section Choice

variable {engine : Engine}

/-- The families are verify lengths of the engine. -/
theorem families_bounds (positive : 0 < engine.engineK) {k : ℕ} (listed : k ∈ engine.families) :
    1 ≤ k ∧ k ≤ engine.engineK := by
  rw [Engine.families] at listed
  split at listed
  · rw [List.mem_singleton.mp listed]
    exact ⟨positive, le_rfl⟩
  · rw [List.mem_insertionSort, List.mem_dedup, List.mem_filter] at listed
    exact of_decide_eq_true listed.2

/-- There is at least one family of candidate lengths, whatever is configured. -/
theorem families_ne_nil (engine : Engine) : engine.families ≠ [] := by
  rw [Engine.families]
  split
  · exact List.cons_ne_nil _ _
  next some => exact some

omit [DecidableEq κ] in
/-- The candidate lengths of an entry can be verified. -/
theorem candidates_bounds (call : PlanCall) (e : PlanEntry κ)
    (policy : 0 < e.kPolicy ∧ e.kPolicy ≤ engine.engineK) {k : ℕ}
    (listed : k ∈ candidates engine call e) : 1 ≤ k ∧ k ≤ engine.engineK := by
  have positive := policy.1.trans_le policy.2
  rw [candidates] at listed
  dsimp only at listed
  split at listed
  · exact families_bounds positive listed
  · split at listed
    · rw [List.mem_singleton.mp listed]
      exact policy
    · exact families_bounds positive (List.mem_filter.mp listed).1

omit [DecidableEq κ] in
/-- So there is a candidate length for every entry of a plan. -/
theorem candidates_ne_nil (call : PlanCall) (e : PlanEntry κ) :
    candidates engine call e ≠ [] := by
  rw [candidates]
  dsimp only
  split
  · exact families_ne_nil engine
  · split
    · exact List.cons_ne_nil _ _
    next some => exact some

/-- What is considered best is neural or has a candidate length. -/
theorem consider_length (st : ReqState) (cls : Fin 3) (cost : CostModel) (allow : Bool)
    (cands : List ℕ) (best : Rated) :
    (cands.foldl (consider st cls cost allow) best).2.1 = best.2.1 ∧
        (cands.foldl (consider st cls cost allow) best).2.2 = best.2.2 ∨
      (cands.foldl (consider st cls cost allow) best).2.2 ∈ cands := by
  induction cands generalizing best with
  | nil => exact .inl ⟨rfl, rfl⟩
  | cons k rest ih =>
    have step : consider st cls cost allow best k = best ∨
        (consider st cls cost allow best k).2.2 = k := by
      rw [consider]
      split
      · split
        · exact .inr rfl
        · exact .inr rfl
      · split
        · exact .inr rfl
        · exact .inl rfl
    rw [List.foldl_cons]
    rcases ih (consider st cls cost allow best k) with ⟨mode, length⟩ | later
    · rcases step with same | here
      · rw [same] at mode length ⊢
        exact .inl ⟨mode, length⟩
      · exact .inr (List.mem_cons.mpr (.inl (length.trans here)))
    · exact .inr (List.mem_cons_of_mem _ later)

/-- A chosen lookup has one of the candidate lengths. -/
theorem choose_length (st : ReqState) (cls : Fin 3) (kPolicy : ℕ) {cands : List ℕ}
    (some_length : cands ≠ []) (cost : CostModel) (cfg : LookupConfig) (allow : Bool)
    (lookup : (choose st cls kPolicy cands cost cfg allow).1 ≠ .neural) :
    (choose st cls kPolicy cands cost cfg allow).2 ∈ cands := by
  have largest : cands.foldl max 0 ∈ cands := by
    obtain ⟨found, _, above⟩ := FirstMaximum.foldl_max 0 cands
    rcases found with least | found
    · obtain ⟨k, listed⟩ := List.exists_mem_of_ne_nil _ some_length
      have zero : k = 0 := Nat.le_zero.mp (least ▸ above k listed)
      rwa [least, ← zero]
    · exact found
  have free : (chooseFree st cls kPolicy cands cost cfg allow).1 ≠ .neural →
      (chooseFree st cls kPolicy cands cost cfg allow).2 ∈ cands := by
    intro chosen
    rw [chooseFree] at chosen ⊢
    dsimp only at chosen ⊢
    generalize expectedTokens st.pNeural (max 1 kPolicy) / cost.step (max 1 kPolicy) true *
      (if st.prevLookup = true then 1 - cfg.margin else 1 + cfg.margin) = need at chosen ⊢
    split at chosen
    · exact absurd rfl chosen
    next enough =>
      rw [if_neg enough]
      split at chosen
      next better =>
        rw [if_pos better]
        rcases consider_length st cls cost allow cands (0, .neural, max 1 kPolicy) with
          ⟨mode, _⟩ | listed
        · exact absurd mode better.1
        · exact listed
      · exact absurd rfl chosen
  rw [choose] at lookup ⊢
  cases force : cfg.force with
  | neural =>
    rw [force] at lookup
    exact absurd rfl lookup
  | skip =>
    dsimp only
    split
    · exact largest
    · exact largest
  | override => exact largest
  | free =>
    rw [force] at lookup
    exact free lookup
  | altSkip =>
    rw [force] at lookup
    exact free lookup
  | altOverride =>
    rw [force] at lookup
    exact free lookup

end Choice

section Entry

variable (engine : Engine)

/-- What `plan` records for an entry after its `sync`. -/
def recordOf (call : PlanCall) (cost : CostModel) (e : PlanEntry κ)
    (out : ReqState × Option Shadow × ℕ) : PlanRec :=
  ⟨(decideMode engine call cost e out.1 out.2.1).1, (decideMode engine call cost e out.1 out.2.1).2,
    out.2.1⟩

/-- The row a record stands for. -/
def rowOf (plan : PlanRec) : Option Row :=
  if plan.mode = .neural then none
  else plan.shadow.map fun s => ⟨plan.mode, s.src, s.lhost, plan.k⟩

/-- The rows after an entry. -/
def addRow (e : PlanEntry κ) (plan : PlanRec) (rows : List (κ × Row)) : List (κ × Row) :=
  match rowOf plan with
  | some row => Dict.assign e.rid row rows
  | none => rows

/-- The placeholder lengths after an entry. -/
def addLength (e : PlanEntry κ) (plan : PlanRec) (kOver : List (κ × ℕ)) : List (κ × ℕ) :=
  match rowOf plan with
  | some row => if row.k ≠ e.kPolicy then Dict.assign e.rid row.k kOver else kOver
  | none => kOver

/-- An entry leaves the rows of the other requests alone. -/
theorem addRow_other (e : PlanEntry κ) (plan : PlanRec) (rows : List (κ × Row)) {rid : κ}
    (different : rid ≠ e.rid) : (addRow e plan rows).lookup rid = rows.lookup rid := by
  rw [addRow]
  split
  · rw [Dict.lookup_assign, if_neg different]
  · rfl

/-- The row of an entry whose request had none is the row of its record. -/
theorem addRow_own (e : PlanEntry κ) (plan : PlanRec) {rows : List (κ × Row)}
    (absent : e.rid ∉ rows.map Prod.fst) : (addRow e plan rows).lookup e.rid = rowOf plan := by
  rw [addRow]
  split
  next row stands => rw [Dict.lookup_assign, if_pos rfl, stands]
  next stands => rw [Dict.lookup_eq_none _ _ absent, stands]

/-- A request without a row has none after another request's entry. -/
theorem addRow_absent (e : PlanEntry κ) (plan : PlanRec) {rows : List (κ × Row)} {rid : κ}
    (different : rid ≠ e.rid) (absent : rid ∉ rows.map Prod.fst) :
    rid ∉ (addRow e plan rows).map Prod.fst := by
  rw [addRow]
  split
  · rw [Dict.mem_keys_assign, not_or]
    exact ⟨different, absent⟩
  · exact absent

/-- The rows keep one row for each request. -/
theorem addRow_nodup (e : PlanEntry κ) (plan : PlanRec) {rows : List (κ × Row)}
    (single : (rows.map Prod.fst).Nodup) : ((addRow e plan rows).map Prod.fst).Nodup := by
  rw [addRow]
  split
  · exact Dict.nodup_assign _ _ _ single
  · exact single

/-- An entry leaves the placeholder lengths of the other requests alone. -/
theorem addLength_other (e : PlanEntry κ) (plan : PlanRec) (kOver : List (κ × ℕ)) {rid : κ}
    (different : rid ≠ e.rid) : (addLength e plan kOver).lookup rid = kOver.lookup rid := by
  rw [addLength]
  split
  · split
    · rw [Dict.lookup_assign, if_neg different]
    · rfl
  · rfl

/-- Where the policy's length stands when nothing overrides it, the length of a row is its own. -/
theorem addLength_own (e : PlanEntry κ) {plan : PlanRec} {kOver : List (κ × ℕ)} {row : Row}
    (absent : e.rid ∉ kOver.map Prod.fst) (stands : rowOf plan = some row) :
    ((addLength e plan kOver).lookup e.rid).getD e.kPolicy = row.k := by
  rw [addLength, stands]
  dsimp only
  split
  next => rw [Dict.lookup_assign, if_pos rfl, Option.getD_some]
  next same =>
    rw [Dict.lookup_eq_none _ _ absent, Option.getD_none]
    exact (not_not.mp same).symm

/-- A request without a placeholder length has none after another request's entry. -/
theorem addLength_absent (e : PlanEntry κ) (plan : PlanRec) {kOver : List (κ × ℕ)} {rid : κ}
    (different : rid ≠ e.rid) (absent : rid ∉ kOver.map Prod.fst) :
    rid ∉ (addLength e plan kOver).map Prod.fst := by
  rw [addLength]
  split
  · split
    · rw [Dict.mem_keys_assign, not_or]
      exact ⟨different, absent⟩
    · exact absent
  · exact absent

/-- A core with one more record, and the oldest pruned. -/
def Core.record (held : Core) (seq : ℕ) (plan : PlanRec) : Core :=
  { held with plans := prunePlans (Dict.assign seq plan held.plans) }

/-- Outside the alternating modes an entry writes its state with one more record, and the row the
record stands for. -/
theorem planEntry_eq (plain : engine.cfg.force.alternating = false) (call : PlanCall)
    (loop : PlanLoop κ) (e : PlanEntry κ) {out : ReqState × Option Shadow × ℕ}
    (made : refresh engine.cfg (loop.planner.state engine e.rid) e.tokens loop.budget = out) :
    ∃ st, core st = (core out.1).record call.seq (recordOf engine call loop.planner.cost e out) ∧
      (planEntry engine call loop e).planner = loop.planner.put e.rid st ∧
      (planEntry engine call loop e).rows =
        addRow e (recordOf engine call loop.planner.cost e out) loop.rows ∧
      (planEntry engine call loop e).kOver =
        addLength e (recordOf engine call loop.planner.cost e out) loop.kOver := by
  have chosen : ¬ (engine.cfg.force.alternating = true ∧ call.canPlan engine.cfg = true ∧
      e.eligible = true ∧ 0 < e.kPolicy) := fun all => by
    rw [plain] at all
    exact Bool.false_ne_true all.1
  rw [planEntry, made]
  obtain ⟨st, shadow, used⟩ := out
  dsimp only
  rw [if_neg chosen, planChosen, addRow, addLength, rowOf, recordOf]
  dsimp only
  generalize decideMode engine call loop.planner.cost e st shadow = decided
  obtain ⟨mode, k⟩ := decided
  refine ⟨{ st with plans := prunePlans (Dict.assign call.seq ⟨mode, k, shadow⟩ st.plans) }, rfl,
    ?_⟩
  dsimp only
  cases shadow with
  | none =>
    rw [Option.map_none, ite_self]
    exact ⟨rfl, rfl, rfl⟩
  | some s =>
    dsimp only
    by_cases lookup : mode = .neural
    · rw [if_neg (not_not.mpr lookup), if_pos lookup]
      exact ⟨rfl, rfl, rfl⟩
    · rw [if_pos lookup, if_neg lookup, Option.map_some]
      exact ⟨rfl, rfl, rfl⟩

omit [DecidableEq κ] in
/-- A refreshed state has the index after `sync`, and what else its core held. -/
theorem core_refresh (cfg : LookupConfig) (st : ReqState) (tokens : List ℤ) (budget : ℤ) :
    core (refresh cfg st tokens budget).1 =
      { core st with idx := (sync cfg.settings st.idx tokens budget).1 } := by
  rw [refresh]
  generalize sync cfg.settings st.idx tokens budget = synced
  obtain ⟨idx, caught, used⟩ := synced
  dsimp only
  split <;> rfl

/-- A record that can be carried out: a lookup has a shadow and a length the engine verifies, and is
made in mode `on` only. -/
structure Sensible (plan : PlanRec) : Prop where
  shadowed : plan.mode ≠ .neural → plan.shadow ≠ none
  length : plan.mode ≠ .neural → 1 ≤ plan.k ∧ plan.k ≤ engine.engineK
  on : plan.mode ≠ .neural → engine.cfg.mode = .on

variable {engine}

omit [DecidableEq κ] in
/-- The record of an entry can be carried out. -/
theorem recordOf_sensible (call : PlanCall) (cost : CostModel) (e : PlanEntry κ)
    (out : ReqState × Option Shadow × ℕ) (policy : 0 < e.kPolicy ∧ e.kPolicy ≤ engine.engineK) :
    Sensible engine (recordOf engine call cost e out) := by
  obtain ⟨st, shadow, used⟩ := out
  rw [recordOf]
  dsimp only
  cases shadow with
  | none =>
    exact ⟨fun lookup => absurd rfl lookup, fun lookup => absurd rfl lookup,
      fun lookup => absurd rfl lookup⟩
  | some s =>
    rw [decideMode]
    split
    next planned =>
      refine ⟨fun _ => Option.some_ne_none s, fun lookup => ?_, fun _ => ?_⟩
      · exact candidates_bounds call e policy (choose_length st s.cls e.kPolicy
          (candidates_ne_nil call e) cost engine.cfg (allowSkip engine.cfg call st) lookup)
      · exact (of_decide_eq_true planned.1).1
    next =>
      exact ⟨fun lookup => absurd rfl lookup, fun lookup => absurd rfl lookup,
        fun lookup => absurd rfl lookup⟩

/-- The row of a record that is not neural has the positions of its shadow. -/
theorem rowOf_eq_some {plan : PlanRec} {row : Row} : rowOf plan = some row ↔
    plan.mode ≠ .neural ∧ ∃ s, plan.shadow = some s ∧ row = ⟨plan.mode, s.src, s.lhost, plan.k⟩ := by
  rw [rowOf]
  split
  next neural =>
    constructor
    · intro none
      cases none
    · exact fun both => absurd neural both.1
  next lookup =>
    rw [Option.map_eq_some_iff]
    constructor
    · rintro ⟨s, shadow, rfl⟩
      exact ⟨lookup, s, shadow, rfl⟩
    · rintro ⟨_, s, shadow, rfl⟩
      exact ⟨s, shadow, rfl⟩

/-- A row has the mode of its record, which is not neural. -/
theorem mode_of_row {plan : PlanRec} {row : Row} (stands : rowOf plan = some row) :
    plan.mode ≠ .neural ∧ row.mode = plan.mode ∧ row.k = plan.k := by
  obtain ⟨lookup, s, _, rfl⟩ := rowOf_eq_some.mp stands
  exact ⟨lookup, rfl, rfl⟩

/-- A record that skips the forward has a row. -/
theorem Sensible.skip_row {plan : PlanRec} (sensible : Sensible engine plan)
    (skips : plan.mode = .skip) : rowOf plan ≠ none := by
  have lookup : plan.mode ≠ .neural := by
    rw [skips]
    decide
  obtain ⟨s, shadow⟩ := Option.ne_none_iff_exists'.mp (sensible.shadowed lookup)
  rw [rowOf_eq_some.mpr ⟨lookup, s, shadow, rfl⟩]
  exact Option.some_ne_none _

/-- What a plan leaves of an entry's core: the index after a `sync`, and one more record. -/
structure Planned (engine : Engine) (seq : ℕ) (tokens : List ℤ) (before after : Core)
    (plan : PlanRec) : Prop where
  idx : ∃ budget, after.idx = (sync engine.cfg.settings before.idx tokens budget).1
  plans : Renewed before.plans after.plans seq plan
  pending : after.pending = before.pending
  cur : after.cur = before.cur
  sensible : Sensible engine plan

end Entry

section Loop

variable {engine : Engine}

/-- What the loop of `plan` has done when some entries are treated. -/
structure Looped (engine : Engine) (seq : ℕ) (planner : Planner κ) (treated : List (PlanEntry κ))
    (loop : PlanLoop κ) : Prop where
  counted : loop.planner.acctMismatch = planner.acctMismatch
  others : ∀ rid ∉ treated.map PlanEntry.rid,
    view engine loop.planner rid = view engine planner rid ∧ rid ∉ loop.rows.map Prod.fst ∧
      rid ∉ loop.kOver.map Prod.fst
  entries : ∀ e ∈ treated, ∃ plan,
    Planned engine seq e.tokens (view engine planner e.rid) (view engine loop.planner e.rid) plan ∧
      loop.rows.lookup e.rid = rowOf plan ∧
      ∀ row, rowOf plan = some row → (loop.kOver.lookup e.rid).getD e.kPolicy = row.k
  single : (loop.rows.map Prod.fst).Nodup

/-- Treating one more entry of the plan keeps what is known of the entries treated before, as the
requests are different. -/
theorem Looped.next (plain : engine.cfg.force.alternating = false) (call : PlanCall)
    {planner : Planner κ} {treated : List (PlanEntry κ)} {loop : PlanLoop κ}
    (looped : Looped engine call.seq planner treated loop) (e : PlanEntry κ)
    (first : e.rid ∉ treated.map PlanEntry.rid)
    (policy : 0 < e.kPolicy ∧ e.kPolicy ≤ engine.engineK)
    (distinct : (numbers (view engine planner e.rid).plans).Nodup)
    (newest : ∀ n ∈ numbers (view engine planner e.rid).plans, n < call.seq) :
    Looped engine call.seq planner (treated ++ [e]) (planEntry engine call loop e) := by
  obtain ⟨same, noRow, noLength⟩ := looped.others e.rid first
  generalize made : refresh engine.cfg (loop.planner.state engine e.rid) e.tokens loop.budget = out
  have left : core out.1 = { view engine planner e.rid with
      idx := (sync engine.cfg.settings (view engine planner e.rid).idx e.tokens
        loop.budget).1 } := by
    rw [← made, core_refresh, ← same]
    rfl
  have sensible := recordOf_sensible call loop.planner.cost e out policy
  obtain ⟨st, written, after, rows, kOver⟩ := planEntry_eq engine plain call loop e made
  generalize recordOf engine call loop.planner.cost e out = plan at written rows kOver sensible
  rw [left] at written
  have seen : ∀ rid, view engine (planEntry engine call loop e).planner rid =
      if rid = e.rid then core st else view engine loop.planner rid := fun rid => by
    rw [after, view_put]
  constructor
  case counted =>
    rw [after]
    exact looped.counted
  case single =>
    rw [rows]
    exact addRow_nodup e plan looped.single
  case others =>
    intro rid absent
    rw [List.map_append, List.mem_append, not_or] at absent
    have different : rid ≠ e.rid := fun own => absent.2 (List.mem_singleton.mpr own)
    obtain ⟨kept, row, length⟩ := looped.others rid absent.1
    refine ⟨?_, ?_, ?_⟩
    · rw [seen, if_neg different, kept]
    · rw [rows]
      exact addRow_absent e plan different row
    · rw [kOver]
      exact addLength_absent e plan different length
  case entries =>
    intro other listed
    rcases List.mem_append.mp listed with earlier | now
    · have different : other.rid ≠ e.rid := fun own =>
        first (own ▸ List.mem_map_of_mem earlier)
      obtain ⟨before, planned, row, length⟩ := looped.entries other earlier
      refine ⟨before, ?_, ?_, ?_⟩
      · rw [seen, if_neg different]
        exact planned
      · rw [rows, addRow_other e plan loop.rows different, row]
      · rw [kOver, addLength_other e plan loop.kOver different]
        exact length
    · rw [List.mem_singleton.mp now]
      refine ⟨plan, ?_, ?_, ?_⟩
      · rw [seen, if_pos rfl, written]
        exact ⟨⟨loop.budget, rfl⟩, renewed_prune plan distinct newest, rfl, rfl, sensible⟩
      · rw [rows]
        exact addRow_own e plan noRow
      · intro row stands
        rw [kOver]
        exact addLength_own e noLength stands

/-- The loop of `plan` treats all entries. -/
theorem looped_all (plain : engine.cfg.force.alternating = false) (call : PlanCall)
    {planner : Planner κ} {treated : List (PlanEntry κ)} {loop : PlanLoop κ}
    (looped : Looped engine call.seq planner treated loop) (entries : List (PlanEntry κ))
    (single : ((treated ++ entries).map PlanEntry.rid).Nodup)
    (policy : ∀ e ∈ entries, 0 < e.kPolicy ∧ e.kPolicy ≤ engine.engineK)
    (distinct : ∀ e ∈ entries, (numbers (view engine planner e.rid).plans).Nodup)
    (newest : ∀ e ∈ entries, ∀ n ∈ numbers (view engine planner e.rid).plans, n < call.seq) :
    Looped engine call.seq planner (treated ++ entries)
      (entries.foldl (planEntry engine call) loop) := by
  induction entries generalizing treated loop with
  | nil =>
    rw [List.append_nil]
    exact looped
  | cons e rest ih =>
    have first : e.rid ∉ treated.map PlanEntry.rid := by
      rw [List.map_append, List.nodup_append] at single
      exact fun earlier => single.2.2 _ earlier _ (List.mem_map_of_mem List.mem_cons_self) rfl
    have more := looped.next plain call e first (policy e List.mem_cons_self)
      (distinct e List.mem_cons_self) (newest e List.mem_cons_self)
    have split : treated ++ e :: rest = treated ++ [e] ++ rest := by simp
    rw [split] at single ⊢
    exact ih more single (fun other listed => policy other (List.mem_cons_of_mem _ listed))
      (fun other listed => distinct other (List.mem_cons_of_mem _ listed))
      (fun other listed => newest other (List.mem_cons_of_mem _ listed))

end Loop

section Conversion

variable {engine : Engine}

/-- An override row does not skip the forward. -/
theorem override_runs : Mode.override ≠ Mode.skip := by decide

/-- A record whose forward runs after all. -/
def unskipped (plan : PlanRec) : PlanRec :=
  if plan.mode = .skip then { plan with mode := .override } else plan

/-- The row of a converted record is the converted row. -/
theorem rowOf_unskipped (plan : PlanRec) :
    rowOf (unskipped plan) = (rowOf plan).map Row.converted := by
  rw [unskipped, rowOf, rowOf]
  split
  next skips =>
    have skip : (Mode.skip : Mode) ≠ .neural := by decide
    have override : (Mode.override : Mode) ≠ .neural := by decide
    rw [skips, if_neg skip, if_neg override, Option.map_map]
    rfl
  next runs =>
    split
    · rfl
    · rw [Option.map_map]
      refine Option.map_congr fun s _ => ?_
      rw [Function.comp_apply, Row.converted, if_neg runs]

/-- A record that was converted does not skip the drafter. -/
theorem unskipped_mode (plan : PlanRec) : (unskipped plan).mode ≠ .skip := by
  rw [unskipped]
  split
  · exact override_runs
  next runs => exact runs

/-- A converted record can still be carried out. -/
theorem Sensible.converted {plan : PlanRec} (sensible : Sensible engine plan) :
    Sensible engine (unskipped plan) := by
  rw [unskipped]
  split
  next skips =>
    have lookup : plan.mode ≠ .neural := by
      rw [skips]
      decide
    exact ⟨fun _ => sensible.shadowed lookup, fun _ => sensible.length lookup,
      fun _ => sensible.on lookup⟩
  next => exact sensible

/-- Converting the rows of a plan succeeds where every skip row has a record, and rewrites the
records of these rows. -/
theorem convertPlans_spec (engine : Engine) (seq : ℕ) (rows : List (κ × Row)) (planner : Planner κ)
    (single : (rows.map Prod.fst).Nodup)
    (recorded : ∀ entry ∈ rows, entry.2.mode = .skip →
      ∃ plan, (view engine planner entry.1).plans.lookup seq = some plan ∧ plan.mode = .skip) :
    (convertPlans seq rows planner).2 = true ∧
      (convertPlans seq rows planner).1.acctMismatch = planner.acctMismatch ∧
      (∀ rid, rid ∉ rows.map Prod.fst →
        view engine (convertPlans seq rows planner).1 rid = view engine planner rid) ∧
      ∀ entry ∈ rows, ∀ plan, (view engine planner entry.1).plans.lookup seq = some plan →
        rowOf plan = some entry.2 → view engine (convertPlans seq rows planner).1 entry.1 =
          if plan.mode = .skip then { view engine planner entry.1 with
            plans := Dict.assign seq (unskipped plan) (view engine planner entry.1).plans }
          else view engine planner entry.1 := by
  induction rows generalizing planner with
  | nil => exact ⟨rfl, rfl, fun _ _ => rfl, fun entry none => absurd none List.not_mem_nil⟩
  | cons head rest ih =>
    obtain ⟨rid, row⟩ := head
    obtain ⟨fresh, others⟩ := List.nodup_cons.mp single
    dsimp only at fresh
    rw [convertPlans]
    by_cases skips : row.mode = .skip
    · obtain ⟨plan, held, mode⟩ := recorded (rid, row) List.mem_cons_self skips
      obtain ⟨st, here, own⟩ := state_of_record held
      rw [if_pos skips, here]
      dsimp only
      rw [own]
      dsimp only
      generalize written : planner.put rid { st with
        plans := Dict.assign seq { plan with mode := .override } st.plans } = next
      have seen : ∀ other, view engine next other = if other = rid then
          { core st with plans := Dict.assign seq { plan with mode := .override } st.plans }
          else view engine planner other := fun other => by
        rw [← written, view_put]
        rfl
      have elsewhere : ∀ other, other ≠ rid → view engine next other = view engine planner other :=
        fun other different => by rw [seen, if_neg different]
      have apart : ∀ entry ∈ rest, entry.1 ≠ rid := fun entry listed own =>
        fresh (own ▸ List.mem_map_of_mem listed)
      obtain ⟨done, counted, kept, converted⟩ := ih next others fun entry listed mode => by
        rw [elsewhere _ (apart entry listed)]
        exact recorded entry (List.mem_cons_of_mem _ listed) mode
      refine ⟨done, counted.trans (by rw [← written]; rfl), fun other absent => ?_, ?_⟩
      · rw [List.map_cons, List.mem_cons, not_or] at absent
        rw [kept other absent.2, elsewhere other absent.1]
      · intro entry listed record found stands
        rcases List.mem_cons.mp listed with rfl | later
        · dsimp only at found ⊢
          obtain rfl : plan = record := Option.some.inj (held.symm.trans found)
          rw [kept rid fresh, seen, if_pos rfl, if_pos mode, view_of_state here,
            unskipped, if_pos mode]
          rfl
        · rw [← elsewhere _ (apart entry later)] at found ⊢
          exact converted entry later record found stands
    · rw [if_neg skips]
      obtain ⟨done, counted, kept, converted⟩ := ih planner others fun entry listed mode =>
        recorded entry (List.mem_cons_of_mem _ listed) mode
      refine ⟨done, counted, fun other absent => ?_, ?_⟩
      · rw [List.map_cons, List.mem_cons, not_or] at absent
        exact kept other absent.2
      · intro entry listed record found stands
        rcases List.mem_cons.mp listed with rfl | later
        · have runs : record.mode ≠ .skip := (mode_of_row stands).2.1 ▸ skips
          rw [if_neg runs]
          exact kept rid fresh
        · exact converted entry later record found stands

/-- Noting the previous rows changes no core. -/
theorem view_notePrevious (engine : Engine) (rows : List (κ × Row))
    (entries : List (PlanEntry κ)) (planner : Planner κ) :
    view engine (entries.foldl (notePrevious rows) planner) = view engine planner ∧
      (entries.foldl (notePrevious rows) planner).acctMismatch = planner.acctMismatch := by
  induction entries generalizing planner with
  | nil => exact ⟨rfl, rfl⟩
  | cons e rest ih =>
    obtain ⟨views, counted⟩ := ih (notePrevious rows planner e)
    rw [List.foldl_cons, views, counted, notePrevious]
    cases here : planner.states e.rid with
    | none => exact ⟨rfl, rfl⟩
    | some st => exact ⟨view_put_same here rfl, rfl⟩

end Conversion

section Call

variable {engine : Engine}

/-- What a plan does: every entry has one more record, the rows are those the records stand for, a
payload that skips has a skip row for every request of the batch, and any other has none. -/
structure PlanMade (engine : Engine) (seq : ℕ) (entries : List (PlanEntry κ)) (nBatch : ℕ)
    (before after : Planner κ) (out : StepPlan κ) : Prop where
  counted : after.acctMismatch = before.acctMismatch
  others : ∀ rid ∉ entries.map PlanEntry.rid,
    view engine after rid = view engine before rid ∧ out.rows.lookup rid = none
  entries : ∀ e ∈ entries, ∃ plan,
    Planned engine seq e.tokens (view engine before e.rid) (view engine after e.rid) plan ∧
      out.rows.lookup e.rid = rowOf plan ∧
      (∀ row, rowOf plan = some row → (out.kOverride.lookup e.rid).getD e.kPolicy = row.k) ∧
      (plan.mode = .skip → out.skip = true)
  single : (out.rows.map Prod.fst).Nodup
  skips : out.skip = true → out.rows.length = nBatch ∧ ∀ entry ∈ out.rows, entry.2.mode = .skip
  runs : out.skip = false → ∀ entry ∈ out.rows, entry.2.mode ≠ .skip

omit [DecidableEq κ] in
/-- Nor does a row that was converted. -/
theorem converted_mode (row : Row) : row.converted.mode ≠ .skip := by
  rw [Row.converted]
  split
  · exact override_runs
  next runs => exact runs

/-- Converting all rows converts what is looked up. -/
theorem lookup_converted (rid : κ) (rows : List (κ × Row)) :
    (rows.map fun entry => (entry.1, entry.2.converted)).lookup rid =
      (rows.lookup rid).map Row.converted := by
  induction rows with
  | nil => rfl
  | cons entry rest ih =>
    rw [List.map_cons, List.lookup_cons, List.lookup_cons, ih]
    cases rid == entry.1 <;> rfl

/-- A row of the loop is the one of a record. -/
theorem Looped.recorded {seq : ℕ} {planner : Planner κ} {entries : List (PlanEntry κ)}
    {loop : PlanLoop κ} (looped : Looped engine seq planner entries loop) {entry : κ × Row}
    (listed : entry ∈ loop.rows) : ∃ plan,
      (view engine loop.planner entry.1).plans.lookup seq = some plan ∧
        rowOf plan = some entry.2 := by
  have treated : entry.1 ∈ entries.map PlanEntry.rid := by
    by_contra absent
    exact (looped.others entry.1 absent).2.1 (List.mem_map_of_mem listed)
  obtain ⟨e, there, own⟩ := List.mem_map.mp treated
  obtain ⟨plan, planned, row, _⟩ := looped.entries e there
  rw [own] at planned row
  refine ⟨plan, planned.plans.own, ?_⟩
  rw [← row]
  exact (Dict.lookup_eq_some_iff loop.rows looped.single entry.1 entry.2).mpr listed

/-- When all rows skip the forward, they are handed out. -/
theorem Looped.skipped {seq nBatch : ℕ} {planner : Planner κ} {entries : List (PlanEntry κ)}
    {loop : PlanLoop κ} (looped : Looped engine seq planner entries loop)
    (all : skipsForward loop.rows nBatch = true) :
    PlanMade engine seq entries nBatch planner
      (entries.foldl (notePrevious loop.rows) loop.planner) ⟨seq, loop.rows, true, loop.kOver⟩ := by
  obtain ⟨_, length, modes⟩ := of_decide_eq_true all
  obtain ⟨views, counted⟩ := view_notePrevious engine loop.rows entries loop.planner
  constructor
  case counted => exact counted.trans looped.counted
  case others =>
    intro rid absent
    obtain ⟨kept, row, _⟩ := looped.others rid absent
    exact ⟨by rw [views, kept], Dict.lookup_eq_none rid loop.rows row⟩
  case entries =>
    intro e listed
    obtain ⟨plan, planned, row, length⟩ := looped.entries e listed
    rw [views]
    exact ⟨plan, planned, row, length, fun _ => rfl⟩
  case single => exact looped.single
  case skips => exact fun _ => ⟨length, modes⟩
  case runs =>
    intro none
    cases none

/-- The record of an entry after its row is converted. -/
theorem Looped.entry_converted {seq : ℕ} {planner after : Planner κ}
    {entries : List (PlanEntry κ)} {loop : PlanLoop κ}
    (looped : Looped engine seq planner entries loop)
    (kept : ∀ rid, rid ∉ loop.rows.map Prod.fst →
      view engine after rid = view engine loop.planner rid)
    (converted : ∀ entry ∈ loop.rows, ∀ plan,
      (view engine loop.planner entry.1).plans.lookup seq = some plan →
      rowOf plan = some entry.2 → view engine after entry.1 =
        if plan.mode = .skip then { view engine loop.planner entry.1 with
          plans := Dict.assign seq (unskipped plan) (view engine loop.planner entry.1).plans }
        else view engine loop.planner entry.1) {e : PlanEntry κ} {plan : PlanRec}
    (planned : Planned engine seq e.tokens (view engine planner e.rid)
      (view engine loop.planner e.rid) plan) (row : loop.rows.lookup e.rid = rowOf plan) :
    Planned engine seq e.tokens (view engine planner e.rid) (view engine after e.rid)
      (unskipped plan) := by
  cases here : rowOf plan with
  | none =>
    rw [here] at row
    have absent : e.rid ∉ loop.rows.map Prod.fst := by
      rw [Dict.mem_keys_iff, row]
      rintro ⟨_, none⟩
      cases none
    have runs : ¬ plan.mode = .skip := fun skips => planned.sensible.skip_row skips here
    rw [kept e.rid absent, unskipped, if_neg runs]
    exact planned
  | some first =>
    rw [here] at row
    have there := (Dict.lookup_eq_some_iff loop.rows looped.single e.rid first).mp row
    rw [converted (e.rid, first) there plan planned.plans.own here]
    split
    next skip =>
      exact ⟨planned.idx, planned.plans.rewrite _, planned.pending, planned.cur,
        planned.sensible.converted⟩
    next runs =>
      rw [unskipped, if_neg runs]
      exact planned

/-- Otherwise the rows are converted, which succeeds, and handed out. -/
theorem Looped.converted {seq : ℕ} {planner : Planner κ} {entries : List (PlanEntry κ)}
    {loop : PlanLoop κ} (looped : Looped engine seq planner entries loop) (nBatch : ℕ) :
    (convertPlans seq loop.rows loop.planner).2 = true ∧
      PlanMade engine seq entries nBatch planner
        (entries.foldl (notePrevious (loop.rows.map fun entry => (entry.1, entry.2.converted)))
          (convertPlans seq loop.rows loop.planner).1)
        ⟨seq, loop.rows.map fun entry => (entry.1, entry.2.converted), false, loop.kOver⟩ := by
  obtain ⟨done, counted, kept, converted⟩ := convertPlans_spec engine seq loop.rows loop.planner
    looped.single fun entry listed mode => by
      obtain ⟨plan, held, stands⟩ := looped.recorded listed
      exact ⟨plan, held, (mode_of_row stands).2.1 ▸ mode⟩
  refine ⟨done, ?_⟩
  generalize handed : (loop.rows.map fun entry => (entry.1, entry.2.converted)) = rows
  have keys : rows.map Prod.fst = loop.rows.map Prod.fst := by
    rw [← handed, List.map_map]
    rfl
  obtain ⟨views, noted⟩ := view_notePrevious engine rows entries
    (convertPlans seq loop.rows loop.planner).1
  constructor
  case counted => exact noted.trans (counted.trans looped.counted)
  case others =>
    intro rid absent
    obtain ⟨same, row, _⟩ := looped.others rid absent
    refine ⟨by rw [views, kept rid row, same], Dict.lookup_eq_none rid rows ?_⟩
    rw [keys]
    exact row
  case entries =>
    intro e listed
    obtain ⟨plan, planned, row, length⟩ := looped.entries e listed
    have stands : rows.lookup e.rid = rowOf (unskipped plan) := by
      rw [← handed, lookup_converted, row, rowOf_unskipped]
    have lengths : ∀ row, rowOf (unskipped plan) = some row →
        (loop.kOver.lookup e.rid).getD e.kPolicy = row.k := by
      intro after stands
      rw [rowOf_unskipped] at stands
      obtain ⟨before, first, rfl⟩ := Option.map_eq_some_iff.mp stands
      rw [length before first, Row.converted]
      split <;> rfl
    refine ⟨unskipped plan, ?_, stands, lengths, fun skips => absurd skips (unskipped_mode plan)⟩
    rw [views]
    exact looped.entry_converted kept converted planned row
  case single =>
    rw [keys]
    exact looped.single
  case skips =>
    intro none
    cases none
  case runs =>
    intro _ entry listed
    rw [← handed] at listed
    obtain ⟨before, _, rfl⟩ := List.mem_map.mp listed
    exact converted_mode before.2

/-- A plan outside the alternating modes never fails. -/
theorem plan_spec (plain : engine.cfg.force.alternating = false) (planner : Planner κ) (seq : ℕ)
    (entries : List (PlanEntry κ)) (nBatch : ℕ) (distinct : (entries.map PlanEntry.rid).Nodup)
    (policy : ∀ e ∈ entries, 0 < e.kPolicy ∧ e.kPolicy ≤ engine.engineK)
    (single : ∀ e ∈ entries, (numbers (view engine planner e.rid).plans).Nodup)
    (newest : ∀ e ∈ entries, ∀ n ∈ numbers (view engine planner e.rid).plans, n < seq) :
    ∃ out, (planner.plan engine seq entries nBatch).2 = some out ∧
      PlanMade engine seq entries nBatch planner (planner.plan engine seq entries nBatch).1
        out := by
  have start : Looped engine seq planner [] ⟨planner, engine.cfg.ingestBudget, [], []⟩ :=
    ⟨rfl, fun rid _ => ⟨rfl, List.not_mem_nil, List.not_mem_nil⟩,
      fun e none => absurd none List.not_mem_nil, List.nodup_nil⟩
  have looped := looped_all plain ⟨seq, nBatch, entries.length⟩ start entries distinct policy single
    newest
  rw [List.nil_append] at looped
  rw [Planner.plan]
  generalize entries.foldl (planEntry engine ⟨seq, nBatch, entries.length⟩)
    ⟨planner, engine.cfg.ingestBudget, [], []⟩ = loop at looped ⊢
  dsimp only at looped
  rw [finishPlan]
  split
  next all => exact ⟨_, rfl, looped.skipped all⟩
  next =>
    obtain ⟨done, made⟩ := looped.converted nBatch
    generalize convertPlans seq loop.rows loop.planner = after at done made
    obtain ⟨planner', succeeded⟩ := after
    dsimp only at done made
    subst done
    exact ⟨_, rfl, made⟩

/-- A plan that skips has a skip row for every request of the batch. -/
theorem PlanMade.covers {seq : ℕ} {entries : List (PlanEntry κ)} {before after : Planner κ}
    {out : StepPlan κ} {rids : List κ}
    (made : PlanMade engine seq entries rids.length before after out)
    (inside : ∀ rid ∈ entries.map PlanEntry.rid, rid ∈ rids) (skip : out.skip = true) :
    ∀ rid ∈ rids, ∃ row, out.rows.lookup rid = some row ∧ row.mode = .skip := by
  obtain ⟨length, modes⟩ := made.skips skip
  have owned : ∀ rid ∈ out.rows.map Prod.fst, rid ∈ rids := by
    intro rid listed
    by_contra absent
    obtain ⟨row, found⟩ := (Dict.mem_keys_iff rid out.rows).mp listed
    rw [(made.others rid fun planned => absent (inside rid planned)).2] at found
    cases found
  -- as many distinct requests with a row as there are in the batch
  have all := (List.subperm_of_subset made.single owned).perm_of_length_le (by
    rw [List.length_map, length])
  intro rid there
  obtain ⟨row, found⟩ := (Dict.mem_keys_iff rid out.rows).mp (all.mem_iff.mpr there)
  exact ⟨row, found, modes (rid, row)
    ((Dict.lookup_eq_some_iff out.rows made.single rid row).mp found)⟩

end Call

end GlmSpark.LookupPlans
