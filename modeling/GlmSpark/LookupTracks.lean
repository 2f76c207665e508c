import GlmSpark.LookupFlights

/-!
# A request under its scheduler

What the planner holds of a request follows the request: the index has taken in some of the
committed tokens, the records are those of its steps, the steps in flight form a chain from the
committed tokens to the device, and every queued step fits the indexed tokens. Each event keeps
this.
-/

namespace GlmSpark.LookupTracks

open LookupIndex LookupLevels LookupRows LookupPlanner LookupPlans LookupAccounting LookupDriver
open LookupFlights

/-- The committed tokens, also those of an output that is classified and not appended yet. -/
def known (r : Request) : List ℤ :=
  match r.stage with
  | .classified flight => r.host ++ flight.emitted
  | _ => r.host

section Sync

variable {settings : Settings} {idx : ContextIndex} {host : List ℤ} (budget : ℤ)

/-- A `sync` with more committed tokens takes in the next ones, as many as the budget allows. -/
theorem sync_grows (indexed : Indexed settings idx) (initial : idx.tokens <+: host) :
    Indexed settings (sync settings idx host budget).1 ∧
      idx.tokens <+: (sync settings idx host budget).1.tokens ∧
      (sync settings idx host budget).1.tokens <+: host ∧
      min host.length (idx.tokens.length + budget.toNat) ≤
        (sync settings idx host budget).1.tokens.length := by
  obtain ⟨after, tokens, _⟩ := sync_spec settings idx host budget indexed
  have continued := sync_initial settings idx host budget indexed initial
  rw [startOver_eq idx host initial] at tokens
  refine ⟨after, ?_, continued, ?_⟩
  · rw [tokens]
    exact List.prefix_append _ _
  · have inside := initial.length_le
    rw [tokens, List.length_append, List.length_take, List.length_drop]
    omega

end Sync

variable (engine : Engine)

/-- What is left of the last output: nothing, or a judgement of it. -/
def Staged (held : Core) (r : Request) : Prop :=
  match r.stage with
  | .waiting => held.cur = none
  | .classified flight => Arrived engine r.host flight ∧
      ∀ cur ∈ held.cur, Judged engine held.idx r.host flight cur
  | .committed flight => ∃ here, r.host = here ++ flight.emitted ∧ Arrived engine here flight ∧
      ∀ cur ∈ held.cur, Judged engine held.idx here flight cur

/-- The planner follows a request. -/
structure Tracks (seq : ℕ) (held : Core) (r : Request) : Prop where
  indexed : Indexed engine.cfg.settings held.idx
  initial : held.idx.tokens <+: r.host
  single : (numbers held.plans).Nodup
  newest : ∀ n ∈ numbers held.plans, n ≤ seq
  sent : ∀ flight ∈ r.flights, flight.seq ≤ seq
  last : ∀ d ∈ r.draft, d.seq ≤ seq
  owned : ∀ n ∈ numbers held.plans, ∀ flight ∈ r.flights, flight.seq ≤ n →
    ∃ owner ∈ r.flights, owner.seq = n ∧ owner.planned = true
  flying : Flying engine held.plans 0 (known r) r.flights r.draft r.device
  fits : ∀ pd ∈ held.pending, Fits engine held.idx.tokens pd
  staged : Staged engine held r

variable {engine} {seq : ℕ} {held : Core} {r : Request}

/-- A request the planner does not know. -/
theorem tracks_fresh (seq : ℕ) (prompt : List ℤ) :
    Tracks engine seq Core.fresh (Request.fresh prompt) where
  indexed := empty_indexed engine.cfg.settings
  initial := List.nil_prefix
  single := List.nodup_nil
  newest := fun _ none => absurd none List.not_mem_nil
  sent := fun _ none => absurd none List.not_mem_nil
  last := fun _ none => by cases none
  owned := fun _ none => absurd none List.not_mem_nil
  flying := ⟨rfl, fun _ none => by cases none⟩
  fits := fun _ none => absurd none List.not_mem_nil
  staged := rfl

/-- A step of other requests changes nothing. -/
theorem Tracks.later (tracks : Tracks engine seq held r) : Tracks engine (seq + 1) held r :=
  { tracks with
    newest := fun n listed => (tracks.newest n listed).trans (Nat.le_succ seq)
    sent := fun flight listed => (tracks.sent flight listed).trans (Nat.le_succ seq)
    last := fun d made => (tracks.last d made).trans (Nat.le_succ seq) }

/-- The judgement of the last output stays right when the index grows. -/
theorem Staged.grows (staged : Staged engine held r) {idx : ContextIndex}
    (more : held.idx.tokens <+: idx.tokens) (plans : List (ℕ × PlanRec)) :
    Staged engine { held with idx := idx, plans := plans } r := by
  rw [Staged] at staged ⊢
  split at staged
  · exact staged
  · exact ⟨staged.1, fun cur left => (staged.2 cur left).grows more⟩
  · obtain ⟨here, host, arrived, judged⟩ := staged
    exact ⟨here, host, arrived, fun cur left => (judged cur left).grows more⟩

/-- A step of the request: with a plan, its record stands for the row the draft is made by; without
one there is no draft. -/
theorem Tracks.launched (tracks : Tracks engine seq held r) {after : Core}
    (indexed : Indexed engine.cfg.settings after.idx) (more : held.idx.tokens <+: after.idx.tokens)
    (initial : after.idx.tokens <+: r.host) (carried : Carried held.plans after.plans (seq + 1))
    (pending : after.pending = held.pending) (cur : after.cur = held.cur) {emitted : List ℤ}
    (verifies : Verifies r.draft emitted) (planned : Bool)
    (recorded : seq + 1 ∈ numbers after.plans → planned = true) {next : Option Draft}
    (made : ∀ d ∈ next, d.seq = seq + 1 ∧ Made engine (r.device ++ emitted) d ∧
      Recorded after.plans d) :
    Tracks engine (seq + 1) after
      { r with
        device := r.device ++ emitted
        draft := next
        flights := r.flights ++ [⟨seq + 1, r.draft, emitted, planned⟩] } := by
  have newest : ∀ n ∈ numbers after.plans, n ≤ seq + 1 := by
    intro n listed
    rcases carried.known n listed with same | earlier
    · exact same.le
    · exact (tracks.newest n earlier).trans (Nat.le_succ seq)
  constructor
  case indexed => exact indexed
  case initial => exact initial
  case single => exact carried.distinct
  case newest => exact newest
  case sent =>
    intro flight listed
    rcases List.mem_append.mp listed with earlier | now
    · exact (tracks.sent flight earlier).trans (Nat.le_succ seq)
    · rw [List.mem_singleton.mp now]
  case last => exact fun d held => (made d held).1.le
  case owned =>
    intro n listed flight there below
    rcases carried.known n listed with rfl | earlier
    · exact ⟨_, List.mem_append_right _ (List.mem_singleton_self _), rfl, recorded listed⟩
    · rcases List.mem_append.mp there with before | now
      · obtain ⟨other, found, same⟩ := tracks.owned n earlier flight before below
        exact ⟨other, List.mem_append_left _ found, same⟩
      · have small := tracks.newest n earlier
        rw [List.mem_singleton.mp now] at below
        exact absurd (below.trans small) (Nat.not_succ_le_self seq)
  case flying =>
    refine tracks.flying.launched carried
      (fun flight listed => Nat.lt_succ_of_le (tracks.sent flight listed)) (Nat.succ_pos seq)
      (fun d drafted => Nat.lt_succ_of_le (tracks.last d drafted)) verifies planned
      fun d drafted => ?_
    obtain ⟨number, device, recorded⟩ := made d drafted
    rw [number]
    exact ⟨le_rfl, device, recorded, newest⟩
  case fits =>
    rw [pending]
    exact fun pd listed => (tracks.fits pd listed).mono more
  case staged =>
    have grown := tracks.staged.grows more after.plans
    rw [← pending, ← cur] at grown
    exact grown

section Answers

/-- The record `classify` finds for the next output is that of the step which made its drafts, if it
is not pruned. -/
theorem Tracks.newestBefore_eq (tracks : Tracks engine seq held r) {flight : Flight}
    {rest : List Flight} (waiting : r.stage = .waiting) (next : r.flights = flight :: rest)
    {d : Draft} (verified : flight.verified = some d) :
    newestBefore flight.seq held.plans = held.plans.lookup d.seq ∧ Recorded held.plans d ∧
      Made engine r.host d ∧ Verifies (some d) flight.emitted := by
  have flying := tracks.flying
  rw [next, known, waiting] at flying
  obtain ⟨_, records, arrived, _⟩ := flying
  obtain ⟨_, before, recorded, between⟩ := records d verified
  exact ⟨newestBefore_drafter before between recorded.kept, recorded, arrived d verified⟩

/-- A check that passes on the index compares the committed tokens. -/
theorem replayed_eq {cfg : LookupConfig} {idx : ContextIndex} {host : List ℤ}
    (initial : idx.tokens <+: host) {plan : PlanRec}
    (ok : replayed cfg idx plan host.length = true) :
    idx.tokens = host ∧ ∃ s, plan.shadow = some s ∧
      Continues host host.length s.src s.lhost cfg.maxDelta := by
  rw [replayed] at ok
  split at ok
  next s shadow =>
    obtain ⟨inside, continues⟩ := of_decide_eq_true ok
    have whole := initial.eq_of_length (le_antisymm initial.length_le inside)
    rw [whole] at continues
    exact ⟨whole, s, shadow, continues⟩
  next => cases ok

/-- A step whose plan is answered as a lookup was drafted by the row of this plan. -/
theorem lookup_row {cfg : LookupConfig} {idx : ContextIndex} {host : List ℤ}
    (initial : idx.tokens <+: host) {plan : PlanRec}
    (lookup : sourceOf plan.mode (replayed cfg idx plan host.length) = .lookup) :
    replayed cfg idx plan host.length = true ∧ ∃ row s, rowOf plan = some row ∧
      plan.shadow = some s ∧ row.src = s.src ∧ row.lhost = s.lhost ∧
      Continues host host.length s.src s.lhost cfg.maxDelta := by
  rw [sourceOf] at lookup
  split at lookup
  next both =>
    obtain ⟨mode, ok⟩ := both
    obtain ⟨_, s, shadow, continues⟩ := replayed_eq initial ok
    exact ⟨ok, _, s, rowOf_eq_some.mpr ⟨mode, s, shadow, rfl⟩, shadow, rfl, rfl, continues⟩
  next => split at lookup <;> cases lookup

/-- What `classify` answers for the next output: lookup only where the device wrote a lookup draft,
and junk only where the payload skipped the forward; it answers lookup for every written draft once
the index holds the committed tokens, as long as fewer than eight of the steps in flight carried a
plan. -/
theorem Tracks.answers (tracks : Tracks engine seq held r) {flight : Flight} {rest : List Flight}
    (waiting : r.stage = .waiting) (next : r.flights = flight :: rest) {d : Draft}
    (verified : flight.verified = some d) :
    (answer engine.cfg held flight.seq r.host.length = .lookup → 0 < d.status) ∧
      (answer engine.cfg held flight.seq r.host.length = .junk → d.skip = true) ∧
      (0 < d.status → r.host.length ≤ held.idx.tokens.length → r.flights.countP Flight.planned < 8 →
        answer engine.cfg held flight.seq r.host.length = .lookup) := by
  obtain ⟨found, recorded, made, _⟩ := tracks.newestBefore_eq waiting next verified
  rw [answer, found]
  cases lookup : held.plans.lookup d.seq with
  | none =>
    refine ⟨fun source => ?_, fun source => ?_, fun _ _ few => ?_⟩
    · cases source
    · cases source
    -- the plan was pruned, so eight newer ones are recorded, each by another step in flight
    exfalso
    rcases recorded.kept with listed | ⟨above, many⟩
    · obtain ⟨plan, stored⟩ := (Dict.mem_keys_iff d.seq held.plans).mp listed
      rw [stored] at lookup
      cases lookup
    · have flying := tracks.flying
      rw [next, known, waiting] at flying
      obtain ⟨_, _, _, between⟩ := flying.2.1 d verified
      have flown : ∀ n ∈ numbers held.plans,
          n ∈ (r.flights.filter Flight.planned).map Flight.seq := by
        intro n listed
        have late : flight.seq ≤ n := by
          by_contra early
          exact absurd (between n listed (not_le.mp early)) (not_le_of_gt (above n listed))
        obtain ⟨owner, there, same, planned⟩ := tracks.owned n listed flight
          (next ▸ List.mem_cons_self) late
        exact same ▸ List.mem_map_of_mem (List.mem_filter.mpr ⟨there, planned⟩)
      have count := (List.subperm_of_subset tracks.single flown).length_le
      rw [numbers, List.length_map, List.length_map, ← List.countP_eq_length_filter] at count
      exact absurd few (not_lt.mpr (many.trans count))
  | some plan =>
    obtain ⟨stands, skips⟩ := recorded.stands plan lookup
    dsimp only
    refine ⟨fun source => ?_, fun source => ?_, fun positive indexed _ => ?_⟩
    · obtain ⟨_, row, s, row_stands, _, src, lhost, continues⟩ := lookup_row tracks.initial source
      refine made.status_pos.mpr ⟨row, stands.symm.trans row_stands, ?_⟩
      rw [src, lhost]
      exact continues
    · refine skips ?_
      rw [sourceOf] at source
      split at source
      next => cases source
      next =>
        split at source
        next skip => exact skip
        next => cases source
    · obtain ⟨row, drafted, continues⟩ := made.status_pos.mp positive
      obtain ⟨mode, s, shadow, rfl⟩ := rowOf_eq_some.mp (stands.trans drafted)
      have whole := tracks.initial.eq_of_length (le_antisymm tracks.initial.length_le indexed)
      have ok : replayed engine.cfg held.idx plan r.host.length = true := by
        rw [replayed, shadow]
        refine decide_eq_true ⟨indexed, ?_⟩
        rw [whole]
        exact continues
      rw [sourceOf, if_pos ⟨mode, ok⟩]

end Answers

section Outputs

/-- `classify` keeps the request tracked: the output is judged, and the records of the steps before
are forgotten. -/
theorem Tracks.classified (tracks : Tracks engine seq held r) {flight : Flight}
    {rest : List Flight} (waiting : r.stage = .waiting) (next : r.flights = flight :: rest)
    {d : Draft} (verified : flight.verified = some d) :
    Tracks engine seq (classified engine.cfg held flight.seq r.host.length)
      { r with flights := rest, stage := .classified flight } := by
  obtain ⟨found, recorded, made, verifies⟩ := tracks.newestBefore_eq waiting next verified
  have flying := tracks.flying
  rw [next, known, waiting] at flying
  have arrived := flying.2.2.1
  have further := flying.2.2.2
  have inside : ∀ other ∈ rest, other ∈ r.flights := fun other listed =>
    next ▸ List.mem_cons_of_mem _ listed
  -- a later step in flight is not the one whose output this is
  have others : ∀ n ∈ numbers held.plans, ∀ other ∈ rest, other.seq ≤ n →
      ∃ owner ∈ rest, owner.seq = n ∧ owner.planned = true := by
    intro n listed other there below
    obtain ⟨owner, found, same⟩ := tracks.owned n listed other (inside other there) below
    rw [next] at found
    rcases List.mem_cons.mp found with rfl | later
    · have above := further.above other there
      exact absurd (same.1 ▸ below) (not_le_of_gt above)
    · exact ⟨owner, later, same⟩
  rw [LookupAccounting.classified, found]
  cases lookup : held.plans.lookup d.seq with
  | none =>
    exact
      { indexed := tracks.indexed
        initial := tracks.initial
        single := tracks.single
        newest := tracks.newest
        sent := fun other listed => tracks.sent other (inside other listed)
        last := tracks.last
        owned := others
        flying := further.lower (Nat.zero_le _)
        fits := tracks.fits
        staged := ⟨arrived, fun cur none => by cases none⟩ }
  | some plan =>
    have fewer : ∀ n ∈ numbers (since flight.seq held.plans), n ∈ numbers held.plans := by
      intro n listed
      rw [numbers_since] at listed
      exact (List.mem_filter.mp listed).1
    refine
      { indexed := tracks.indexed
        initial := tracks.initial
        single := ?_
        newest := fun n listed => tracks.newest n (fewer n listed)
        sent := fun other listed => tracks.sent other (inside other listed)
        last := tracks.last
        owned := fun n listed => others n (fewer n listed)
        flying := (further.since le_rfl).lower (Nat.zero_le _)
        fits := tracks.fits
        staged := ⟨arrived, fun cur left => ?_⟩ }
    · dsimp only
      rw [numbers_since]
      exact tracks.single.filter _
    · obtain rfl := Option.some.inj left
      refine ⟨rfl, rfl, fun ok => ?_, fun source => ?_⟩
      · obtain ⟨whole, s, shadow, continues⟩ := replayed_eq tracks.initial ok
        refine ⟨by rw [whole], fun other same => ?_⟩
        obtain rfl := Option.some.inj (shadow.symm.trans same)
        exact continues
      · obtain ⟨ok, row, s, stands, shadow, src, lhost, _⟩ := lookup_row tracks.initial source
        exact ⟨ok, d, verified, row, s, (recorded.stands plan lookup).1.symm.trans stands, shadow,
          src, lhost⟩

/-- A judged output is appended to the tokens, and the planner's records still fit the longer list.
-/
theorem Tracks.committed (tracks : Tracks engine seq held r) {flight : Flight}
    (judged : r.stage = .classified flight) : Tracks engine seq held
      { r with host := r.host ++ flight.emitted, stage := .committed flight } := by
  have flying := tracks.flying
  have staged := tracks.staged
  rw [known, judged] at flying
  rw [Staged, judged] at staged
  exact
    { tracks with
      initial := tracks.initial.trans (List.prefix_append _ _)
      flying := flying
      staged := ⟨r.host, rfl, staged.1, staged.2⟩ }

/-- An output that verified no drafts is appended. -/
theorem Tracks.appended (tracks : Tracks engine seq held r) {flight : Flight} {rest : List Flight}
    (waiting : r.stage = .waiting) (next : r.flights = flight :: rest) : Tracks engine seq held
      { r with host := r.host ++ flight.emitted, flights := rest } := by
  have flying := tracks.flying
  have staged := tracks.staged
  rw [next, known, waiting] at flying
  rw [Staged, waiting] at staged
  have further := flying.2.2.2
  have inside : ∀ other ∈ rest, other ∈ r.flights := fun other listed =>
    next ▸ List.mem_cons_of_mem _ listed
  refine
    { indexed := tracks.indexed
      initial := tracks.initial.trans (List.prefix_append _ _)
      single := tracks.single
      newest := tracks.newest
      sent := fun other listed => tracks.sent other (inside other listed)
      last := tracks.last
      owned := fun n listed other there below => ?_
      flying := ?_
      fits := tracks.fits
      staged := ?_ }
  · obtain ⟨owner, found, same⟩ := tracks.owned n listed other (inside other there) below
    rw [next] at found
    rcases List.mem_cons.mp found with rfl | later
    · have above := further.above other there
      exact absurd (same.1 ▸ below) (not_le_of_gt above)
    · exact ⟨owner, later, same⟩
  · rw [known]
    dsimp only
    rw [waiting]
    exact further.lower (Nat.zero_le _)
  · rw [Staged]
    dsimp only
    rw [waiting]
    exact staged

/-- A preempted request has no step in flight and no draft. -/
theorem Tracks.preempted (tracks : Tracks engine seq held r) (waiting : r.stage = .waiting) :
    Tracks engine seq held r.preempt := by
  refine
    { tracks with
      sent := fun flight none => absurd none List.not_mem_nil
      last := fun d none => by cases none
      owned := fun n listed flight none => absurd none List.not_mem_nil
      flying := ?_ }
  rw [known, Request.preempt]
  dsimp only
  rw [waiting]
  exact ⟨rfl, fun d none => by cases none⟩

/-- The last output was not judged, and is observed. -/
theorem Tracks.unobserved (tracks : Tracks engine seq held r) {flight : Flight}
    (committed : r.stage = .committed flight) (none : held.cur = none) :
    Tracks engine seq held { r with stage := .waiting } := by
  have flying := tracks.flying
  rw [known, committed] at flying
  exact { tracks with flying := flying, staged := none }

/-- The last output was judged, and is observed: with a budget larger than the draft length every
queued step fits, and the request stays tracked. -/
theorem Tracks.observed (tracks : Tracks engine seq held r)
    (budget : engine.engineK < engine.cfg.ingestBudget) {flight : Flight}
    (committed : r.stage = .committed flight) {cur : Current} (left : held.cur = some cur) :
    let idx := (sync engine.cfg.settings held.idx r.host engine.cfg.ingestBudget).1
    cur.seq = flight.seq ∧
      (∀ pd ∈ queued held cur flight.kSched flight.accepted, Fits engine idx.tokens pd) ∧
      ∀ pending, pending <:+ queued held cur flight.kSched flight.accepted →
        Tracks engine seq ⟨idx, held.plans, pending, none⟩ { r with stage := .waiting } := by
  intro idx
  have flying := tracks.flying
  have staged := tracks.staged
  rw [known, committed] at flying
  rw [Staged, committed] at staged
  obtain ⟨here, host, arrived, judged⟩ := staged
  have right := judged cur left
  obtain ⟨indexed, more, initial, taken⟩ := sync_grows engine.cfg.ingestBudget tracks.indexed
    tracks.initial
  have fits : ∀ pd ∈ queued held cur flight.kSched flight.accepted, Fits engine idx.tokens pd := by
    intro pd listed
    have old : ∀ pd ∈ held.pending, Fits engine idx.tokens pd := fun pd listed =>
      (tracks.fits pd listed).mono more
    rw [queued] at listed
    split at listed
    · exact old pd listed
    · split at listed
      next s shadow =>
        rcases List.mem_append.mp listed with before | now
        · exact old pd before
        · rw [List.mem_singleton.mp now]
          refine right.fits arrived more (host ▸ initial) (fun inside some_token most => ?_) shadow
          have total : r.host.length = here.length + flight.emitted.length := by
            rw [host, List.length_append]
          have one_more : flight.accepted + 1 = flight.emitted.length :=
            Nat.sub_add_cancel some_token
          have reached : here.length + flight.accepted < r.host.length := by omega
          have enough : here.length + flight.accepted < held.idx.tokens.length +
              (engine.cfg.ingestBudget : ℤ).toNat := by omega
          exact (lt_min reached enough).trans_le taken
      next => exact old pd listed
  refine ⟨right.own, fits, fun pending suffix => ?_⟩
  exact
    { indexed := indexed
      initial := initial
      single := tracks.single
      newest := tracks.newest
      sent := tracks.sent
      last := tracks.last
      owned := tracks.owned
      flying := flying
      fits := fun pd listed => fits pd (suffix.subset listed)
      staged := rfl }

end Outputs

end GlmSpark.LookupTracks
