import GlmSpark.GatedTruncation
import GlmSpark.PriceUpdate
import Mathlib.Data.List.Dedup

/-!
# What a truncation changes

`truncate` writes three tables of a scheduler output: the drafts of each request, the
scheduled tokens of each request and their total. It writes all of them or none, cuts every
draft list to the chosen length, and keeps what each request has scheduled beyond its
drafts. `eligible` tells in advance which outputs it acts on.
-/

namespace GlmSpark.TruncationFrame

open Dict DraftPolicy DraftTruncation GatedTruncation

universe u v w
variable {ρ : Type u} {κ : Type v} {σ : Type w} [DecidableEq ρ]

/-- `scheduler_output.num_scheduled_tokens[r] -= d` after the drafts of `r` are cut; a request
without an entry raises `KeyError`. -/
def cutOrRaise (L : ℕ) (output : SchedulerOutput ρ) (request : ρ) : Except ρ (SchedulerOutput ρ) :=
  if request ∈ output.numScheduledTokens.map Prod.fst then .ok (cutRequest L output request)
  else .error request

/-- `truncate` with the error of a missing entry. -/
def truncateOrRaise (choose : σ → List (List κ) → ℕ → ℕ × σ) (output : SchedulerOutput ρ)
    (confsByReq : ρ → Option (List κ)) (policy : σ) :
    Except ρ (Option ℕ × SchedulerOutput ρ × σ) :=
  if output.hasStructuredOutputRequests then .ok (none, output, policy)
  else
    let rids := liveRequests output
    if rids.isEmpty || rids.any (fun request => (confsByReq request).isNone) then
      .ok (none, output, policy)
    else
      match uniformDrafts output with
      | none => .ok (none, output, policy)
      | some kmax =>
        let (L, policy) := choose policy (rids.map fun request => (confsByReq request).getD []) kmax
        if L ≥ kmax then .ok (some L, output, policy)
        else (rids.foldlM (cutOrRaise L) output).map fun output => (some L, output, policy)

section Requests

/-- The drafts of a request are those of its entry. -/
theorem mem_liveRequests (output : SchedulerOutput ρ) (request : ρ) :
    request ∈ liveRequests output ↔ output.drafts request ≠ [] := by
  rw [liveRequests, SchedulerOutput.drafts, List.mem_map]
  constructor
  · rintro ⟨entry, live, rfl⟩
    obtain ⟨stored, nonempty⟩ := List.mem_filter.mp live
    rw [(lookup_eq_some_iff _ output.distinct_spec entry.1 entry.2).mpr stored, Option.getD_some]
    simpa using nonempty
  · intro nonempty
    cases stored : output.scheduledSpecDecodeTokens.lookup request with
    | none =>
      rw [stored] at nonempty
      exact absurd rfl nonempty
    | some drafts =>
      rw [stored, Option.getD_some] at nonempty
      refine ⟨(request, drafts), List.mem_filter.mpr ⟨?_, by simpa using nonempty⟩, rfl⟩
      exact (lookup_eq_some_iff _ output.distinct_spec request drafts).mp stored

omit [DecidableEq ρ] in
/-- Each live request is listed once, as scheduler dictionaries have one entry a request. -/
theorem liveRequests_nodup (output : SchedulerOutput ρ) : (liveRequests output).Nodup :=
  output.distinct_spec.sublist (List.filter_sublist.map Prod.fst)

/-- A uniform length is the length of every draft list there is, and there is one. -/
theorem uniformDrafts_spec {output : SchedulerOutput ρ} {kmax : ℕ}
    (uniform : uniformDrafts output = some kmax) :
    1 ≤ kmax ∧ ∀ request ∈ liveRequests output, (output.drafts request).length = kmax := by
  rw [uniformDrafts] at uniform
  split at uniform
  next only single =>
    obtain rfl := Option.some.inj uniform
    have lengths : ∀ n, n ∈ (liveRequests output).map
        (fun request => (output.drafts request).length) ↔ n = only := by
      intro n
      rw [← List.mem_dedup, single, List.mem_singleton]
    obtain ⟨request, live, same⟩ := List.mem_map.mp ((lengths only).mpr rfl)
    refine ⟨?_, fun request live => (lengths _).mp (List.mem_map_of_mem live)⟩
    rw [← same]
    exact List.length_pos_iff.mpr ((mem_liveRequests output request).mp live)
  next => exact nomatch uniform

end Requests

section Cuts

/-- The tokens a dictionary schedules. -/
def scheduledSum (output : SchedulerOutput ρ) : ℤ := (output.numScheduledTokens.map Prod.snd).sum

/-- Subtracting from one entry lowers the sum of a dictionary by as much. -/
theorem sum_update (key : ρ) (amount : ℤ) (dict : List (ρ × ℤ))
    (distinct : (dict.map Prod.fst).Nodup) (present : key ∈ dict.map Prod.fst) :
    ((update key (· - amount) dict).map Prod.snd).sum = (dict.map Prod.snd).sum - amount := by
  induction dict with
  | nil => exact absurd present List.not_mem_nil
  | cons entry rest ih =>
    obtain ⟨fresh, others⟩ := List.nodup_cons.mp distinct
    change ((if entry.1 = key then (entry.1, entry.2 - amount) else entry) ::
      update key (· - amount) rest |>.map Prod.snd).sum = _
    rw [List.map_cons, List.sum_cons, List.map_cons, List.sum_cons]
    by_cases here : entry.1 = key
    · have kept : update key (· - amount) rest = rest := update_absent key _ rest (here ▸ fresh)
      rw [kept, if_pos here]
      omega
    · have later := ih others ((List.mem_cons.mp present).resolve_left (Ne.symm here))
      rw [later, if_neg here]
      omega

/-- A cut reads differently only at its request. -/
theorem cutRequest_lookup (L : ℕ) (output : SchedulerOutput ρ) (cut request : ρ) :
    (cutRequest L output cut).scheduledSpecDecodeTokens.lookup request =
        (if request = cut then (output.scheduledSpecDecodeTokens.lookup request).map (List.take L)
          else output.scheduledSpecDecodeTokens.lookup request) ∧
      (cutRequest L output cut).numScheduledTokens.lookup request =
        (if request = cut then (output.numScheduledTokens.lookup request).map
            (· - ((output.drafts cut).length - L : ℤ))
          else output.numScheduledTokens.lookup request) :=
  ⟨lookup_update cut request _ _,
    lookup_update cut request (· - ((output.drafts cut).length - L : ℤ)) output.numScheduledTokens⟩

/-- A cut takes as much from the total as from the entry of its request. -/
theorem cutRequest_total (L : ℕ) (output : SchedulerOutput ρ) (cut : ρ)
    (counted : cut ∈ output.numScheduledTokens.map Prod.fst) :
    (cutRequest L output cut).totalNumScheduledTokens - scheduledSum (cutRequest L output cut) =
      output.totalNumScheduledTokens - scheduledSum output := by
  have sum := sum_update cut ((output.drafts cut).length - L : ℤ) _ output.distinct_scheduled
    counted
  rw [scheduledSum, cutRequest, scheduledSum]
  dsimp only
  rw [sum]
  omega

/-- What cutting a list of requests does to every entry, and to the total. -/
structure Cut (L : ℕ) (cuts : List ρ) (before after : SchedulerOutput ρ) : Prop where
  spec : ∀ request, after.scheduledSpecDecodeTokens.lookup request =
    if request ∈ cuts then (before.scheduledSpecDecodeTokens.lookup request).map (List.take L)
    else before.scheduledSpecDecodeTokens.lookup request
  count : ∀ request, after.numScheduledTokens.lookup request =
    if request ∈ cuts then (before.numScheduledTokens.lookup request).map
      (· - ((before.drafts request).length - L : ℤ))
    else before.numScheduledTokens.lookup request
  names : after.scheduledSpecDecodeTokens.map Prod.fst =
      before.scheduledSpecDecodeTokens.map Prod.fst ∧
    after.numScheduledTokens.map Prod.fst = before.numScheduledTokens.map Prod.fst
  total : after.totalNumScheduledTokens - scheduledSum after =
    before.totalNumScheduledTokens - scheduledSum before
  structured : after.hasStructuredOutputRequests = before.hasStructuredOutputRequests

/-- The loop of `truncate`, when it does not raise. -/
theorem cuts_done (L : ℕ) (cuts : List ρ) (distinct : cuts.Nodup) {before after : SchedulerOutput ρ}
    (done : cuts.foldlM (cutOrRaise L) before = .ok after) : Cut L cuts before after := by
  induction cuts generalizing before with
  | nil =>
    obtain rfl := Except.ok.inj done
    exact ⟨fun _ => rfl, fun _ => rfl, ⟨rfl, rfl⟩, rfl, rfl⟩
  | cons cut cuts ih =>
    obtain ⟨fresh, others⟩ := List.nodup_cons.mp distinct
    rw [List.foldlM_cons, cutOrRaise] at done
    split at done
    next counted =>
      have rest := ih others done
      have drafts : ∀ request ∈ cuts,
          (cutRequest L before cut).drafts request = before.drafts request := by
        intro request later
        have different : request ≠ cut := fun same => fresh (same ▸ later)
        rw [SchedulerOutput.drafts, (cutRequest_lookup L before cut request).1, if_neg different]
        rfl
      constructor
      case spec =>
        intro request
        rw [rest.spec, (cutRequest_lookup L before cut request).1]
        by_cases here : request = cut
        · rw [if_neg (here ▸ fresh), if_pos here, if_pos (here ▸ List.mem_cons_self)]
        · rw [if_neg here]
          simp only [List.mem_cons, here, false_or]
      case count =>
        intro request
        rw [rest.count, (cutRequest_lookup L before cut request).2]
        by_cases here : request = cut
        · rw [if_neg (here ▸ fresh), if_pos here, if_pos (here ▸ List.mem_cons_self), here]
        · rw [if_neg here]
          by_cases later : request ∈ cuts
          · rw [if_pos later, if_pos (List.mem_cons_of_mem cut later), drafts request later]
          · rw [if_neg later, if_neg fun listed =>
              later ((List.mem_cons.mp listed).resolve_left here)]
      case names =>
        exact ⟨rest.names.1.trans (keys_update _ _ _), rest.names.2.trans
          (keys_update cut (· - ((before.drafts cut).length - L : ℤ)) before.numScheduledTokens)⟩
      case total => exact rest.total.trans (cutRequest_total L before cut counted)
      case structured => exact rest.structured
    next => cases done

/-- Where every request is counted, the loop does not raise. -/
theorem cuts_return (L : ℕ) (cuts : List ρ) (output : SchedulerOutput ρ)
    (counted : ∀ request ∈ cuts, request ∈ output.numScheduledTokens.map Prod.fst) :
    ∃ after, cuts.foldlM (cutOrRaise L) output = .ok after := by
  induction cuts generalizing output with
  | nil => exact ⟨output, rfl⟩
  | cons cut cuts ih =>
    rw [List.foldlM_cons, cutOrRaise, if_pos (counted cut List.mem_cons_self)]
    refine ih (cutRequest L output cut) fun request later => ?_
    have names := keys_update cut (· - ((output.drafts cut).length - L : ℤ))
      output.numScheduledTokens
    have held : (cutRequest L output cut).numScheduledTokens.map Prod.fst =
      output.numScheduledTokens.map Prod.fst := names
    rw [held]
    exact counted request (List.mem_cons_of_mem cut later)

end Cuts

section Conservation

/-- Every request keeps its first `L` drafts and what it has scheduled beyond its drafts, and the
total stays the sum of the entries. -/
structure Conserved (L : ℕ) (before after : SchedulerOutput ρ) : Prop where
  drafts : ∀ request, after.drafts request = (before.drafts request).take L
  balance : ∀ request,
    (after.numScheduledTokens.lookup request).map (· - ((after.drafts request).length : ℤ)) =
      (before.numScheduledTokens.lookup request).map (· - ((before.drafts request).length : ℤ))
  others : ∀ request, before.drafts request = [] →
    after.scheduledSpecDecodeTokens.lookup request =
        before.scheduledSpecDecodeTokens.lookup request ∧
      after.numScheduledTokens.lookup request = before.numScheduledTokens.lookup request
  names : after.scheduledSpecDecodeTokens.map Prod.fst =
      before.scheduledSpecDecodeTokens.map Prod.fst ∧
    after.numScheduledTokens.map Prod.fst = before.numScheduledTokens.map Prod.fst
  total : before.totalNumScheduledTokens = scheduledSum before →
    after.totalNumScheduledTokens = scheduledSum after

/-- Cutting all requests with drafts to a length none of them falls short of conserves. -/
theorem Cut.conserved {L : ℕ} {before after : SchedulerOutput ρ}
    (cut : Cut L (liveRequests before) before after)
    (long : ∀ request ∈ liveRequests before, L ≤ (before.drafts request).length) :
    Conserved L before after := by
  have drafts : ∀ request, after.drafts request = (before.drafts request).take L := by
    intro request
    by_cases live : request ∈ liveRequests before
    · rw [SchedulerOutput.drafts, cut.spec, if_pos live, SchedulerOutput.drafts]
      cases before.scheduledSpecDecodeTokens.lookup request with
      | none => exact List.take_nil.symm
      | some drafts => rfl
    · have none : before.drafts request = [] :=
        not_not.mp fun some => live ((mem_liveRequests before request).mpr some)
      rw [none, List.take_nil, SchedulerOutput.drafts, cut.spec, if_neg live]
      exact none
  constructor
  case drafts => exact drafts
  case balance =>
    intro request
    rw [cut.count, drafts]
    by_cases live : request ∈ liveRequests before
    · have enough := long request live
      rw [if_pos live, Option.map_map, List.length_take, min_eq_left enough]
      refine congrArg₂ Option.map (funext fun count => ?_) rfl
      rw [Function.comp_apply]
      omega
    · have none : before.drafts request = [] :=
        not_not.mp fun some => live ((mem_liveRequests before request).mpr some)
      rw [if_neg live, none, List.take_nil]
  case others =>
    intro request none
    have idle : request ∉ liveRequests before := fun live =>
      (mem_liveRequests before request).mp live none
    exact ⟨by rw [cut.spec, if_neg idle], by rw [cut.count, if_neg idle]⟩
  case names => exact cut.names
  case total =>
    intro same
    have kept := cut.total
    omega

/-- An untouched output conserves every length that reaches its drafts. -/
theorem conserved_untouched {L : ℕ} {output : SchedulerOutput ρ}
    (short : ∀ request ∈ liveRequests output, (output.drafts request).length ≤ L) :
    Conserved L output output := by
  refine ⟨fun request => ?_, fun _ => rfl, fun _ _ => ⟨rfl, rfl⟩, ⟨rfl, rfl⟩, id⟩
  by_cases live : request ∈ liveRequests output
  · rw [List.take_of_length_le (short request live)]
  · have none : output.drafts request = [] :=
      not_not.mp fun some => live ((mem_liveRequests output request).mpr some)
    rw [none, List.take_nil]

end Conservation

section Guards

variable {F : Type v}

/-- `truncate` leaves an output alone that `eligible` refuses, and otherwise cuts to the length the
policy gives for the one `eligible` gives. -/
theorem truncateOrRaise_eq (choose : σ → List (List F) → ℕ → ℕ × σ)
    (output : SchedulerOutput ρ) (batch : List (ρ × List F)) (policy : σ) :
    truncateOrRaise choose output (dictOf batch) policy =
      match eligible output (batch.map Prod.fst) with
      | none => .ok (none, output, policy)
      | some kmax =>
        let (L, policy) := choose policy ((liveRequests output).map (rowOf batch)) kmax
        if L ≥ kmax then .ok (some L, output, policy)
        else ((liveRequests output).foldlM (cutOrRaise L) output).map
          fun output => (some L, output, policy) := by
  simp only [truncateOrRaise, eligible, dictOf_isNone]
  split
  next => rfl
  next =>
    split
    next => rfl
    next => rfl

end Guards

section Results

variable {F : Type v} [Field F] [LinearOrder F]

/-- The policy chooses one of the lengths it is given. -/
theorem choose_bounds (policy : Policy F) (confs : List (List F)) {kmax : ℕ} (some : 1 ≤ kmax) :
    1 ≤ (policy.choose confs kmax).1 ∧ (policy.choose confs kmax).1 ≤ kmax := by
  have reached := PriceUpdate.bestLength_outcome policy (policy.price confs.length)
    (PriceUpdate.expectations policy confs kmax) kmax
  rw [PriceUpdate.choose_length, Policy.bestLength]
  generalize (List.range' 1 kmax).foldl _ _ = best at reached ⊢
  cases reached with
  | kept below => exact ⟨some, le_rfl⟩
  | found item there =>
    obtain ⟨low, high⟩ := List.mem_range'_1.mp there
    exact ⟨low, by omega⟩

/-- `truncate` leaves the output alone or cuts every request to one length and conserves the rest,
and `eligible` gives a length exactly where `truncate` asks the policy for that one. -/
theorem truncate_conserves (policy : Policy F) (output : SchedulerOutput ρ)
    (batch : List (ρ × List F)) :
    (∀ chosen after policy',
      truncateOrRaise Policy.choose output (dictOf batch) policy = .ok (chosen, after, policy') →
      (chosen = none → after = output) ∧
      ∀ L, chosen = some L → ∃ kmax, 1 ≤ L ∧ L ≤ kmax ∧
        (∀ request ∈ liveRequests output, (output.drafts request).length = kmax) ∧
        Conserved L output after) ∧
    ((∀ request ∈ liveRequests output, request ∈ output.numScheduledTokens.map Prod.fst) →
      ∃ outcome, truncateOrRaise Policy.choose output (dictOf batch) policy = .ok outcome) ∧
    ∀ kmax, eligible output (batch.map Prod.fst) = some kmax ↔
      (truncate (noted 0) output (dictOf batch) (policy, [])).1.isSome ∧
        (truncate (noted 0) output (dictOf batch) (policy, [])).2.2.2.map Scored.kmax = [kmax] := by
  cases decided : eligible output (batch.map Prod.fst) with
  | none =>
    rw [truncateOrRaise_eq, decided, truncate_refused _ _ _ _ decided]
    refine ⟨fun chosen after policy' done => ?_, fun _ => ⟨_, rfl⟩,
      fun kmax => ⟨fun absent => absurd absent.symm (Option.some_ne_none kmax), ?_⟩⟩
    · obtain ⟨rfl, rfl, _⟩ := by simpa using done
      exact ⟨fun _ => rfl, fun L absent => absurd absent.symm (Option.some_ne_none L)⟩
    · exact fun both => absurd both.1 Bool.false_ne_true
  | some kmax =>
    obtain ⟨positive, lengths⟩ := uniformDrafts_spec (eligible_some decided).2
    obtain ⟨low, high⟩ :=
      choose_bounds policy ((liveRequests output).map (rowOf batch)) positive
    obtain ⟨shaped, acted⟩ := truncate_eligible (noted 0) output batch (policy, []) decided
    rw [truncateOrRaise_eq, decided, acted]
    refine ⟨fun chosen after policy' done => ?_, fun counted => ?_, fun other => ?_⟩
    · dsimp only at done
      split at done
      next full =>
        obtain ⟨rfl, rfl, _⟩ := by simpa using done
        refine ⟨fun absent => absurd absent (Option.some_ne_none _), fun L same => ?_⟩
        obtain rfl := Option.some.inj same
        exact ⟨kmax, low, high, lengths,
          conserved_untouched fun request live => (lengths request live).trans_le full⟩
      next shorter =>
        cases cuts : (liveRequests output).foldlM
            (cutOrRaise (policy.choose ((liveRequests output).map (rowOf batch)) kmax).1) output with
        | error request =>
          rw [cuts] at done
          cases done
        | ok cut =>
          rw [cuts] at done
          obtain ⟨rfl, rfl, _⟩ := by simpa [Except.map] using done
          refine ⟨fun absent => absurd absent (Option.some_ne_none _), fun L same => ?_⟩
          obtain rfl := Option.some.inj same
          exact ⟨kmax, low, high, lengths,
            (cuts_done _ _ (liveRequests_nodup output) cuts).conserved
              fun request live => high.trans (lengths request live).ge⟩
    · dsimp only
      split
      next => exact ⟨_, rfl⟩
      next =>
        obtain ⟨cut, cuts⟩ := cuts_return
          (policy.choose ((liveRequests output).map (rowOf batch)) kmax).1 _ _ counted
        exact ⟨_, congrArg _ cuts⟩
    · simp only [noted, List.nil_append, List.map_singleton, Option.isSome_some, true_and,
        Option.some.injEq, List.cons.injEq, and_true]

/-- `truncate_conserves` where one of two drafts is cut. -/
theorem truncate_conserves_pair :
    ∃ after policy', truncateOrRaise Policy.choose onePair (dictOf [(0, [-1, -1])])
        (PriceUpdate.sample 5) = .ok (some 1, after, policy') ∧
      Conserved 1 onePair after := by
  have pair := truncate_conserves (PriceUpdate.sample 5) onePair [(0, [-1, -1])]
  obtain ⟨⟨chosen, after, policy'⟩, done⟩ := pair.2.1 (by decide)
  have shorter : chosen = some 1 := by
    have computed : (truncateOrRaise Policy.choose onePair (dictOf [(0, [-1, -1])])
      (PriceUpdate.sample 5)).toOption.map Prod.fst = some (some 1) := by decide +kernel
    rw [done] at computed
    exact Option.some.inj computed
  subst shorter
  obtain ⟨_, _, _, _, conserved⟩ := (pair.1 _ _ _ done).2 1 rfl
  exact ⟨after, policy', done, conserved⟩

end Results

end GlmSpark.TruncationFrame
