import GlmSpark.LookupAccounting
import GlmSpark.LookupDriver

/-!
# Steps in flight

Between two outputs of a request the device is some steps ahead. Every step in flight verified the
draft that was made where the step before it ended, by the row of a plan that is still recorded or
was pruned; the host learns of the steps in the order they were made. This chain holds of a request
through every event, and what `classify` and `observe` conclude from it is stated here.
-/

namespace GlmSpark.LookupFlights

open LookupIndex LookupLevels LookupRows LookupPlanner LookupPlans LookupAccounting LookupDriver

variable (engine : Engine)

section Device

/-- The device made a draft from these tokens, by a row of as many ids as it has placeholders. -/
structure Made (here : List ℤ) (d : Draft) : Prop where
  proposed : ∃ ids, ids.length = engine.engineK ∧
    propose engine d.row here ids = some (d.ids, d.status)
  length : ∀ row, d.row = some row → 1 ≤ row.k ∧ row.k ≤ engine.engineK ∧ d.placeholders = row.k

/-- Drafting never reads outside the tokens, whatever row the planner asked for. -/
theorem propose_some (row : Option Row) (tokens ids : List ℤ) :
    ∃ written, propose engine row tokens ids = some written := by
  rw [propose]
  exact ⟨_, referenceRow_eq le_rfl _ _ _ _ _⟩

variable {engine}

/-- The row the device goes by is the planner's, in the device's integers. -/
theorem batchRow_eq {row : Row} (length : row.k ≤ engine.engineK) :
    batchRow engine (some row) = ((row.src : ℤ), (row.lhost : ℤ), (row.k : ℤ)) := by
  have clamped : max (0 : ℤ) (min (row.k : ℤ) engine.engineK) = row.k := by omega
  rw [batchRow.eq_def]
  dsimp only
  rw [clamped]

/-- A draft made by a row is the result of this row. -/
theorem Made.result {here : List ℤ} {d : Draft} (made : Made engine here d) {row : Row}
    (stands : d.row = some row) : ∃ ids, ids.length = engine.engineK ∧
      rowResult (launch engine) here here.length row.src row.lhost row.k ids =
        (d.ids, d.status) := by
  obtain ⟨ids, width, proposed⟩ := made.proposed
  rw [propose, stands, batchRow_eq (made.length row stands).2.1] at proposed
  exact ⟨ids, width, Option.some.inj
    ((referenceRow_eq le_rfl (launch engine) row.src row.lhost row.k ids).symm.trans proposed)⟩

/-- The status of a draft is positive exactly where the copy of its row went on. -/
theorem Made.status_pos {here : List ℤ} {d : Draft} (made : Made engine here d) :
    0 < d.status ↔ ∃ row, d.row = some row ∧
      Continues here here.length row.src row.lhost engine.cfg.maxDelta := by
  cases stands : d.row with
  | none =>
    obtain ⟨ids, _, proposed⟩ := made.proposed
    rw [propose, stands] at proposed
    have status : 0 = d.status := (Prod.mk.inj (Option.some.inj proposed)).2
    rw [← status]
    constructor
    · exact fun positive => absurd positive (lt_irrefl 0)
    · rintro ⟨row, none, _⟩
      cases none
  | some row =>
    have positive := (made.length row stands).1
    obtain ⟨ids, _, result⟩ := made.result stands
    have status : (rowResult (launch engine) here here.length row.src row.lhost row.k ids).2 =
        d.status := congrArg Prod.snd result
    rw [← status]
    by_cases valid : Continues here here.length row.src row.lhost engine.cfg.maxDelta
    · rw [rowResult_valid ids ⟨valid, by omega⟩]
      exact ⟨fun _ => ⟨row, rfl, valid⟩, fun _ => Nat.add_pos_left Nat.one_pos _⟩
    · have unfilled : ¬ ((launch engine).fill = true ∧ 0 < (here.length : ℤ)) := fun fills =>
        Bool.false_ne_true fills.1
      rw [rowResult_failed ids fun both => valid both.1, if_neg unfilled]
      constructor
      · exact fun none => absurd none (lt_irrefl 0)
      · rintro ⟨other, same, continues⟩
        obtain rfl := Option.some.inj same
        exact absurd continues valid

/-- Where the copy of its row went on, a draft has the ids the host replays. -/
theorem Made.ids {here : List ℤ} {d : Draft} (made : Made engine here d) {row : Row}
    (stands : d.row = some row)
    (valid : Continues here here.length row.src row.lhost engine.cfg.maxDelta) {j : ℕ}
    (below : j < row.k) {t : ℤ}
    (drafted : draftId here here.length row.src row.lhost engine.cfg.periodic j = some t) :
    d.ids[j]? = some t := by
  obtain ⟨positive, most, _⟩ := made.length row stands
  obtain ⟨ids, width, result⟩ := made.result stands
  have written := written_eq_draft (launch engine) row.src row.lhost row.k ids rfl
    ⟨valid, by omega⟩ j (by omega)
  rw [congrArg Prod.fst result, List.getElem?_map, Int.toNat_natCast, List.getElem?_range below,
    Option.map_some, show (launch engine).periodic = engine.cfg.periodic from rfl,
    drafted] at written
  exact written

end Device

section Chain

variable (engine : Engine)

/-- A step verified a draft that was made here. -/
def Arrived (here : List ℤ) (flight : Flight) : Prop :=
  ∀ d ∈ flight.verified, Made engine here d ∧ Verifies (some d) flight.emitted

/-- What the records say of a draft: its plan stands for its row, unless it is pruned. -/
structure Recorded (plans : List (ℕ × PlanRec)) (d : Draft) : Prop where
  stands : ∀ plan, plans.lookup d.seq = some plan →
    rowOf plan = d.row ∧ (plan.mode = .skip → d.skip = true)
  kept : Kept plans d.seq

/-- The steps in flight from these tokens on, each with a larger number than the one before: a step
verified the draft made where it starts, and no plan was recorded between the two. The last draft
is the one on the device. -/
def Flying (plans : List (ℕ × PlanRec)) :
    ℕ → List ℤ → List Flight → Option Draft → List ℤ → Prop
  | low, here, [], draft, device => device = here ∧ ∀ d ∈ draft, low ≤ d.seq ∧
      Made engine here d ∧ Recorded plans d ∧ ∀ n ∈ numbers plans, n ≤ d.seq
  | low, here, flight :: rest, draft, device => low < flight.seq ∧
      (∀ d ∈ flight.verified, low ≤ d.seq ∧ d.seq < flight.seq ∧ Recorded plans d ∧
        ∀ n ∈ numbers plans, n < flight.seq → n ≤ d.seq) ∧
      Arrived engine here flight ∧
      Flying plans flight.seq (here ++ flight.emitted) rest draft device

variable {engine} {plans : List (ℕ × PlanRec)} {low : ℕ} {here device : List ℤ}
  {flights : List Flight} {draft : Option Draft}

/-- The numbers of the steps in flight are all larger. -/
theorem Flying.above (flying : Flying engine plans low here flights draft device) :
    ∀ flight ∈ flights, low < flight.seq := by
  induction flights generalizing low here with
  | nil => exact fun flight none => absurd none List.not_mem_nil
  | cons first rest ih =>
    intro flight listed
    rcases List.mem_cons.mp listed with rfl | later
    · exact flying.1
    · exact flying.1.trans (ih flying.2.2.2 flight later)

/-- The flights are as described from any smaller bound on. -/
theorem Flying.lower (flying : Flying engine plans low here flights draft device) {less : ℕ}
    (below : less ≤ low) : Flying engine plans less here flights draft device := by
  cases flights with
  | nil =>
    exact ⟨flying.1, fun d made => ⟨below.trans (flying.2 d made).1, (flying.2 d made).2⟩⟩
  | cons first rest =>
    obtain ⟨above, verified, further⟩ := flying
    exact ⟨below.trans_lt above, fun d made => ⟨below.trans (verified d made).1,
      (verified d made).2⟩, further⟩

/-- A draft whose plan was carried over stays recorded. -/
theorem Recorded.carried {d : Draft} (recorded : Recorded plans d) {after : List (ℕ × PlanRec)}
    {seq : ℕ} (carried : Carried plans after seq) (earlier : d.seq < seq) : Recorded after d := by
  refine ⟨fun plan found => ?_, carried.kept d.seq earlier recorded.kept⟩
  rcases carried.others d.seq earlier.ne with pruned | same
  · rw [pruned] at found
    cases found
  · exact recorded.stands plan (same ▸ found)

/-- A draft of a later step stays recorded when the records below are forgotten. -/
theorem Recorded.since {d : Draft} (recorded : Recorded plans d) {seq : ℕ} (late : seq ≤ d.seq) :
    Recorded (since seq plans) d := by
  refine ⟨fun plan found => ?_, recorded.kept.since late⟩
  rw [lookup_since seq plans late] at found
  exact recorded.stands plan found

/-- One more step: it verified the draft on the device, and the next draft is made where it ends. -/
theorem Flying.launched (flying : Flying engine plans low here flights draft device)
    {after : List (ℕ × PlanRec)} {seq : ℕ} (carried : Carried plans after seq)
    (newest : ∀ flight ∈ flights, flight.seq < seq) (above : low < seq)
    (last : ∀ d ∈ draft, d.seq < seq) {emitted : List ℤ} (verifies : Verifies draft emitted)
    (planned : Bool) {next : Option Draft} (made : ∀ d ∈ next, seq ≤ d.seq ∧
      Made engine (device ++ emitted) d ∧ Recorded after d ∧ ∀ n ∈ numbers after, n ≤ d.seq) :
    Flying engine after low here (flights ++ [⟨seq, draft, emitted, planned⟩]) next
      (device ++ emitted) := by
  induction flights generalizing low here with
  | nil =>
    obtain ⟨rfl, drafted⟩ := flying
    refine ⟨above, fun d held => ?_, fun d held => ?_, rfl, made⟩
    · obtain ⟨below, _, recorded, largest⟩ := drafted d held
      have earlier := last d held
      refine ⟨below, earlier, recorded.carried carried earlier, fun n listed before => ?_⟩
      rcases carried.known n listed with same | known
      · exact absurd same before.ne
      · exact largest n known
    · obtain rfl : draft = some d := held
      exact ⟨(drafted d rfl).2.1, verifies⟩
  | cons first rest ih =>
    obtain ⟨first_above, verified, arrived, further⟩ := flying
    have first_earlier := newest first List.mem_cons_self
    refine ⟨first_above, fun d held => ?_, arrived, ih further
      (fun flight listed => newest flight (List.mem_cons_of_mem _ listed)) first_earlier⟩
    obtain ⟨below, before, recorded, between⟩ := verified d held
    refine ⟨below, before, recorded.carried carried (before.trans first_earlier),
      fun n listed early => ?_⟩
    rcases carried.known n listed with same | known
    · exact absurd same (early.trans first_earlier).ne
    · exact between n known early

/-- The steps that remain when the records below are forgotten. -/
theorem Flying.since (flying : Flying engine plans low here flights draft device) {seq : ℕ}
    (below : seq ≤ low) :
    Flying engine (LookupPlans.since seq plans) low here flights draft device := by
  have fewer : ∀ n ∈ numbers (LookupPlans.since seq plans), n ∈ numbers plans := by
    intro n listed
    rw [numbers_since] at listed
    exact (List.mem_filter.mp listed).1
  induction flights generalizing low here with
  | nil =>
    refine ⟨flying.1, fun d held => ?_⟩
    obtain ⟨after, made, recorded, largest⟩ := flying.2 d held
    exact ⟨after, made, recorded.since (below.trans after), fun n listed =>
      largest n (fewer n listed)⟩
  | cons first rest ih =>
    obtain ⟨above, verified, arrived, further⟩ := flying
    refine ⟨above, fun d held => ?_, arrived, ih further (below.trans above.le)⟩
    obtain ⟨after, before, recorded, between⟩ := verified d held
    exact ⟨after, before, recorded.since (below.trans after), fun n listed =>
      between n (fewer n listed)⟩

end Chain

section Judgement

variable (engine : Engine)

/-- What `classify` left for a step is right: its check compared the tokens the draft was made from,
and a step said to be drafted by lookup verified the draft of this very shadow. -/
structure Judged (idx : ContextIndex) (here : List ℤ) (flight : Flight) (cur : Current) : Prop where
  own : cur.seq = flight.seq
  length : cur.preLen = here.length
  checked : cur.ok = true → here.length ≤ idx.tokens.length ∧ ∀ s, cur.plan.shadow = some s →
    Continues here here.length s.src s.lhost engine.cfg.maxDelta
  lookup : cur.source = .lookup → cur.ok = true ∧
    ∃ d ∈ flight.verified, ∃ row s, d.row = some row ∧ cur.plan.shadow = some s ∧
      row.src = s.src ∧ row.lhost = s.lhost

variable {engine} {idx after : ContextIndex} {here : List ℤ} {flight : Flight} {cur : Current}

/-- A judgement stays right when the index grows. -/
theorem Judged.grows (judged : Judged engine idx here flight cur)
    (more : idx.tokens <+: after.tokens) : Judged engine after here flight cur :=
  ⟨judged.own, judged.length, fun ok => ⟨(judged.checked ok).1.trans more.length_le,
    (judged.checked ok).2⟩, judged.lookup⟩

/-- A step that was judged fits the committed tokens once it is queued. -/
theorem Judged.fits (judged : Judged engine idx here flight cur)
    (arrived : Arrived engine here flight) (more : idx.tokens <+: after.tokens)
    (initial : after.tokens <+: here ++ flight.emitted)
    (room : here.length ≤ idx.tokens.length → 0 < flight.emitted.length →
      flight.accepted ≤ engine.engineK → here.length + flight.accepted < after.tokens.length)
    {s : Shadow} (shadow : cur.plan.shadow = some s) :
    Fits engine after.tokens
      ⟨cur.preLen, s, cur.ok, cur.source, flight.kSched, flight.accepted⟩ := by
  have early : cur.ok = true → here.length ≤ after.tokens.length ∧
      after.tokens.take here.length = here := by
    intro ok
    have inside := (judged.checked ok).1.trans more.length_le
    obtain ⟨rest, whole⟩ := initial
    refine ⟨inside, ?_⟩
    rw [← List.take_append_of_le_length inside, whole, List.take_left]
  have continues : cur.ok = true → Continues here here.length s.src s.lhost engine.cfg.maxDelta :=
    fun ok => (judged.checked ok).2 s shadow
  -- what a lookup step says of its draft, its tokens and the index
  have lookup : cur.source = .lookup → ∃ d row, flight.verified = some d ∧ d.row = some row ∧
      row.src = s.src ∧ row.lhost = s.lhost ∧ Made engine here d ∧
      Verifies (some d) flight.emitted ∧ here.length + flight.accepted < after.tokens.length ∧
      flight.accepted < flight.emitted.length := by
    intro source
    obtain ⟨ok, d, held, row, s', stands, same, src, lhost⟩ := judged.lookup source
    obtain rfl := Option.some.inj (shadow.symm.trans same)
    obtain ⟨made, verifies⟩ := arrived d held
    have some_token := List.length_pos_iff.mpr verifies.1
    obtain ⟨_, most, placeholders⟩ := made.length row stands
    refine ⟨d, row, held, stands, src, lhost, made, verifies, ?_, Nat.sub_lt some_token Nat.one_pos⟩
    exact room (judged.checked ok).1 some_token
      (verifies.2.1.trans (placeholders.trans_le most))
  have read : ∀ j, here.length + j < after.tokens.length →
      after.tokens[here.length + j]? = flight.emitted[j]? := by
    intro j inside
    obtain ⟨rest, whole⟩ := initial
    have extended : (after.tokens ++ rest)[here.length + j]? = after.tokens[here.length + j]? :=
      List.getElem?_append_left inside
    rw [← extended, whole, List.getElem?_append_right (Nat.le_add_right _ _),
      Nat.add_sub_cancel_left]
  rw [judged.length]
  constructor
  case checked =>
    intro ok
    refine ⟨(early ok).1, ?_⟩
    dsimp only
    rw [(early ok).2]
    exact continues ok
  case settled =>
    intro source
    obtain ⟨d, row, held, stands, _, _, made, verifies, inside, _⟩ := lookup source
    obtain ⟨_, most, placeholders⟩ := made.length row stands
    have scheduled : flight.kSched = d.placeholders := by rw [Flight.kSched, held]
    exact ⟨(judged.lookup source).1, scheduled.symm ▸ verifies.2.1,
      (scheduled.trans placeholders).trans_le most, inside⟩
  case accepted =>
    intro source j below t drafted
    obtain ⟨d, row, held, stands, src, lhost, made, verifies, inside, emitted⟩ := lookup source
    have ok := (judged.lookup source).1
    obtain ⟨_, _, placeholders⟩ := made.length row stands
    dsimp only at below drafted ⊢
    rw [(early ok).2, ← src, ← lhost] at drafted
    have most : flight.accepted ≤ d.placeholders := verifies.2.1
    have id := made.ids stands (src ▸ lhost ▸ continues ok) (by omega) drafted
    have front_index : j < flight.emitted.length - 1 := below
    have same : flight.emitted[j]? = d.ids[j]? := by
      have front : flight.emitted.dropLast[j]? = d.ids[j]? := by
        rw [verifies.2.2.1, List.getElem?_take_of_lt front_index]
      rw [← front, List.getElem?_dropLast, if_pos front_index]
    rw [read j (by omega), same, id]
  case rejected =>
    intro source short t drafted
    obtain ⟨d, row, held, stands, src, lhost, made, verifies, inside, emitted⟩ := lookup source
    have ok := (judged.lookup source).1
    obtain ⟨_, _, placeholders⟩ := made.length row stands
    have scheduled : flight.kSched = d.placeholders := by rw [Flight.kSched, held]
    dsimp only at short drafted ⊢
    rw [(early ok).2, ← src, ← lhost] at drafted
    have id := made.ids stands (src ▸ lhost ▸ continues ok) (by omega) drafted
    rw [read _ inside, ← id]
    exact (verifies.2.2.2 (scheduled ▸ short)).symm

end Judgement

end GlmSpark.LookupFlights
