import GlmSpark.GreedyVerify
import GlmSpark.DraftTruncation

/-!
# Lossless speculation over whole runs

A verify step takes the scheduled drafts of a batch, possibly truncated, and
lays every request out as one input id, its drafts and `-1` padding. The target
draw at a row is a function of the request's committed prefix and the drafts
before that row; the seeded Gumbel draw and the argmax are two such functions.
`greedy_verify` compares the flat arrays and the request's committed tokens grow
by what it returns.

Over any number of steps a request's tokens are the ones its target rule
produces one at a time. The drafts, their truncation, the padding, the backend
and the other requests of the batch only decide how many tokens a step commits.
-/

namespace GlmSpark.LosslessSpeculation

open Ragged Continuation GreedyVerify DraftTruncation

universe u v w
variable {ρ : Type u} {κ : Type v} {σ : Type w} [DecidableEq ρ] {width : Nat}

/-- One verify step: the scheduler output, the records and policy state handed to
`truncate` if it runs, the batch rows in order, each row's input id (the last
committed token) and padding, and the backend of `greedy_verify`. The rows fit
the sampled buffer of width `num_speculative_steps + 1`. -/
structure VerifyStep (ρ : Type u) (κ : Type v) (σ : Type w) [DecidableEq ρ] (width : Nat) where
  output : SchedulerOutput ρ
  truncation : Option ((ρ → Option (List κ)) × σ)
  batch : List ρ
  firstId : ρ → Int
  padding : ρ → Nat
  backend : Backend
  distinct : batch.Nodup
  fits : ∀ request ∈ batch, (output.drafts request).length + padding request + 1 ≤ width
  counts : width < 2 ^ 31

/-- A request's next-token rule on ids. -/
def nextId (T : ρ → List Int → Nat) (request : ρ) (prefixIds : List Int) : Int :=
  T request prefixIds

section Step

variable (T : ρ → List Int → Nat) (choose : σ → List (List κ) → Nat → Nat × σ)
  (step : VerifyStep ρ κ σ width)

/-- The scheduler output the runner reads. -/
def scheduled : SchedulerOutput ρ :=
  match step.truncation with
  | none => step.output
  | some (confsByReq, policy) => (truncate choose step.output confsByReq policy).2.1

/-- The real drafts verified for a request in this step. -/
def drafts (request : ρ) : List Int := (scheduled choose step).drafts request

/-- The draft ids at a request's rows: its drafts, then padding. -/
def draftIds (request : ρ) : List Int :=
  drafts choose step request ++ List.replicate (step.padding request) (-1)

/-- The logits rows of a request whose committed tokens are `history`. -/
def verifyRows (request : ρ) (history : List Int) : VerifyRows where
  ids := step.firstId request :: draftIds choose step request
  targets := drawsAlong (nextId T request) history (draftIds choose step request)
  same_length := by simp
  nonempty := by simp

/-- The batch of a step in the committed state `tokens`. -/
def verifyBatch (tokens : ρ → List Int) : VerifyBatch width where
  members := step.batch.map fun request => verifyRows T choose step request (tokens request)
  fits := by
    intro rows member
    obtain ⟨request, present, rfl⟩ := List.mem_map.mp member
    have shorter : (drafts choose step request).length ≤ (step.output.drafts request).length := by
      unfold drafts scheduled
      split
      · exact Nat.le_refl _
      · exact (truncate_drafts_initial choose step.output _ _ request).length_le
    have room := step.fits request present
    simp only [verifyRows, draftIds, List.length_cons, List.length_append, List.length_replicate]
    omega
  counts := step.counts

/-- The tokens a step commits for a request; a request outside the batch commits
none. -/
def stepCommits (tokens : ρ → List Int) (request : ρ) : List Int :=
  if request ∈ step.batch then
    let batch := verifyBatch T choose step tokens
    committed (greedyVerify step.backend batch.target batch.draft batch.cu batch.members.length
      width) (step.batch.idxOf request)
  else []

/-- The committed tokens after a step. -/
def verifyStep (tokens : ρ → List Int) : ρ → List Int :=
  fun request => tokens request ++ stepCommits T choose step tokens request

end Step

/-- The committed tokens after a run of steps. -/
def run (T : ρ → List Int → Nat) (choose : σ → List (List κ) → Nat → Nat × σ)
    (steps : List (VerifyStep ρ κ σ width)) (tokens : ρ → List Int) : ρ → List Int :=
  steps.foldl (fun current step => verifyStep T choose step current) tokens

/-- One accept loop on its own: the target draws along the drafts, kept up to and
including the first draft that was missed. -/
def acceptAlone (next : List Int → Int) (history draftIds : List Int) : List Int :=
  (drawsAlong next history draftIds).take (leading draftIds (drawsAlong next history draftIds) + 1)

/-- A request's tokens when it is verified alone, step after step, with only its
own draft ids; a step without the request is `none`. -/
def runAlone (next : List Int → Int) (history : List Int) : List (Option (List Int)) → List Int
  | [] => history
  | none :: rest => runAlone next history rest
  | some ids :: rest => runAlone next (history ++ acceptAlone next history ids) rest

/-- What a step gives one request: its own draft ids, if it is in the batch. -/
def ownDrafts (choose : σ → List (List κ) → Nat → Nat × σ) (request : ρ)
    (step : VerifyStep ρ κ σ width) : Option (List Int) :=
  if request ∈ step.batch then some (draftIds choose step request) else none

section Laws

variable (T : ρ → List Int → Nat) (choose : σ → List (List κ) → Nat → Nat × σ)

omit [DecidableEq ρ] in
/-- Every drawn target is a real id. -/
theorem draws_real (request : ρ) (history ids : List Int) :
    ∀ target ∈ drawsAlong (nextId T request) history ids, 0 ≤ target := by
  induction ids generalizing history with
  | nil => simp [drawsAlong, nextId]
  | cons id rest ih =>
    intro target member
    rcases List.mem_cons.mp member with rfl | later
    · simp [nextId]
    · exact ih (history ++ [id]) target later

/-- Guesses that are no real ids are never counted as equal to real values. -/
theorem leading_padding (guesses values : List Int) (padding : Nat)
    (real : ∀ value ∈ values, 0 ≤ value) :
    leading (guesses ++ List.replicate padding (-1)) values ≤ guesses.length := by
  induction guesses generalizing values with
  | nil =>
    cases padding with
    | zero => simp [leading]
    | succ padding =>
      cases values with
      | nil => simp [leading, List.replicate_succ]
      | cons value values =>
        have positive : 0 ≤ value := real value (by simp)
        have different : ¬ (-1 : Int) = value := by omega
        simp [leading, List.replicate_succ, different]
  | cons guess rest ih =>
    cases values with
    | nil => simp [leading]
    | cons value values =>
      have bound := ih values (fun other member => real other (by simp [member]))
      simp only [List.cons_append, leading, List.length_cons]
      split <;> omega

/-- What the flat batch comparison commits for a request of the batch is its own
accept loop on its own draft ids. -/
theorem step_commits_alone (step : VerifyStep ρ κ σ width) (tokens : ρ → List Int) (request : ρ)
    (present : request ∈ step.batch) :
    stepCommits T choose step tokens request =
      acceptAlone (nextId T request) (tokens request) (draftIds choose step request) := by
  have place : step.batch.idxOf request < step.batch.length := List.idxOf_lt_length_of_mem present
  have at_req : (verifyBatch T choose step tokens).members[step.batch.idxOf request]? =
      some (verifyRows T choose step request (tokens request)) := by
    simp [verifyBatch, place]
  simp only [stepCommits, present, if_true]
  rw [greedy_verify_commits step.backend at_req, VerifyRows.commits]
  have accepted := acceptedDrafts_eq_leading (draftIds choose step request)
    (drawsAlong (nextId T request) (tokens request) (draftIds choose step request))
    (draws_real T request (tokens request) _)
  simp only [verifyRows, VerifyRows.drafts, List.tail_cons, accepted, acceptAlone]

/-- A request outside the batch commits nothing. -/
theorem step_commits_absent (step : VerifyStep ρ κ σ width) (tokens : ρ → List Int) (request : ρ)
    (absent : request ∉ step.batch) : stepCommits T choose step tokens request = [] := by
  simp [stepCommits, absent]

/-- One accept loop continues the request's own sequence by at least one and at
most one more token than it had real drafts. -/
theorem accept_continues (step : VerifyStep ρ κ σ width) (request : ρ) (history : List Int) :
    ∃ count, 1 ≤ count ∧ count ≤ (drafts choose step request).length + 1 ∧
      acceptAlone (nextId T request) history (draftIds choose step request) =
        continuation (nextId T request) history count := by
  refine ⟨leading (draftIds choose step request)
    (drawsAlong (nextId T request) history (draftIds choose step request)) + 1, by omega, ?_, ?_⟩
  · have bound := leading_padding (drafts choose step request)
      (drawsAlong (nextId T request) history (draftIds choose step request))
      (step.padding request) (draws_real T request history _)
    exact Nat.succ_le_succ bound
  · exact draws_continue (nextId T request) history (draftIds choose step request)

/-- A run, split at its first step. -/
theorem run_cons (step : VerifyStep ρ κ σ width) (rest : List (VerifyStep ρ κ σ width))
    (tokens : ρ → List Int) :
    run T choose (step :: rest) tokens = run T choose rest (verifyStep T choose step tokens) := rfl

/-- A run gives each request what it would get alone with its own drafts. -/
theorem run_alone (steps : List (VerifyStep ρ κ σ width)) (tokens : ρ → List Int) (request : ρ) :
    run T choose steps tokens request =
      runAlone (nextId T request) (tokens request) (steps.map (ownDrafts choose request)) := by
  induction steps generalizing tokens with
  | nil => rfl
  | cons step rest ih =>
    rw [run_cons, ih, List.map_cons]
    by_cases present : request ∈ step.batch
    · simp only [ownDrafts, present, if_true, runAlone, verifyStep,
        step_commits_alone T choose step tokens request present]
    · simp only [ownDrafts, present, if_false, runAlone, verifyStep,
        step_commits_absent T choose step tokens request present, List.append_nil]

/-- Every run extends a request's tokens by a continuation of its target rule. -/
theorem run_continues (steps : List (VerifyStep ρ κ σ width)) (tokens : ρ → List Int)
    (request : ρ) :
    ∃ count, run T choose steps tokens request =
      tokens request ++ continuation (nextId T request) (tokens request) count := by
  induction steps generalizing tokens with
  | nil => exact ⟨0, by simp [run, continuation]⟩
  | cons step rest ih =>
    obtain ⟨later, extended⟩ := ih (verifyStep T choose step tokens)
    rw [run_cons]
    by_cases present : request ∈ step.batch
    · obtain ⟨count, _, _, committed⟩ := accept_continues T choose step request (tokens request)
      refine ⟨count + later, ?_⟩
      rw [extended, verifyStep, step_commits_alone T choose step tokens request present, committed,
        continuation_add, List.append_assoc]
    · refine ⟨later, ?_⟩
      rw [extended, verifyStep, step_commits_absent T choose step tokens request present,
        List.append_nil]

/-- Speculation is lossless. For every target rule, truncation policy, run of
verify steps and request: the committed tokens are exactly as many tokens of the
sequence produced without speculation; each step of the run commits between one
token and one more than the request's drafts when the request is in its batch,
and none otherwise; and the committed tokens are those of a run that only ever
saw the request's own draft ids. -/
theorem speculation_lossless (steps : List (VerifyStep ρ κ σ width)) (tokens : ρ → List Int)
    (request : ρ) :
    (∃ count, run T choose steps tokens request =
      tokens request ++ continuation (nextId T request) (tokens request) count) ∧
    (∀ index step, steps[index]? = some step →
      let commits := stepCommits T choose step (run T choose (steps.take index) tokens) request
      (request ∈ step.batch → 1 ≤ commits.length ∧
        commits.length ≤ (drafts choose step request).length + 1) ∧
      (request ∉ step.batch → commits = [])) ∧
    run T choose steps tokens request =
      runAlone (nextId T request) (tokens request) (steps.map (ownDrafts choose request)) := by
  refine ⟨run_continues T choose steps tokens request, ?_, run_alone T choose steps tokens request⟩
  intro index step _
  refine ⟨?_, step_commits_absent T choose step _ request⟩
  intro present
  obtain ⟨count, atLeast, atMost, committed⟩ := accept_continues T choose step request
    (run T choose (steps.take index) tokens request)
  rw [step_commits_alone T choose step _ request present, committed, continuation_length]
  exact ⟨atLeast, atMost⟩

end Laws

section Sample

/-- Two requests that count up, each in its own decade. -/
def counting (request : Nat) (history : List Int) : Nat := 10 * request + history.length

/-- A policy that keeps two drafts. -/
def keepTwo (policy : Unit) (_ : List (List Nat)) (_ : Nat) : Nat × Unit := (2, policy)

/-- Both requests have three drafts, which the policy cuts to two; the second one's second draft is
wrong. The request with the later id is first in the batch. -/
def cutStep : VerifyStep Nat Nat Unit 5 where
  output := ⟨[(0, [1, 2, 7]), (1, [11, 9, 9])], [(0, 4), (1, 4)], 8, false, by decide, by decide⟩
  truncation := some (fun _ => some [1], ())
  batch := [1, 0]
  firstId := fun _ => 0
  padding := fun _ => 0
  backend := .torch
  distinct := by decide
  fits := by decide
  counts := by decide

/-- The first request has no drafts left and two padded rows, the second one two right drafts; the
kernel compares, whose output buffer holds anything at first. -/
def paddedStep : VerifyStep Nat Nat Unit 5 where
  output := ⟨[(0, []), (1, [13, 14])], [(0, 1), (1, 3)], 4, false, by decide, by decide⟩
  truncation := none
  batch := [0, 1]
  firstId := fun _ => 0
  padding := fun request => if request = 0 then 2 else 0
  backend := .kernel fun _ => [7, 7, 7, 7, 7]
  distinct := by decide
  fits := by decide
  counts := by decide

/-- `speculation_lossless` over both steps: three tokens and one for the first request, two and three
for the second, and they count up. -/
theorem speculation_lossless_two :
    run counting keepTwo [cutStep, paddedStep] (fun request => [100 + request]) 0 =
        [100, 1, 2, 3, 4] ∧
      run counting keepTwo [cutStep, paddedStep] (fun request => [100 + request]) 1 =
        [101, 11, 12, 13, 14, 15] ∧
      1 ≤ (stepCommits counting keepTwo paddedStep
        (run counting keepTwo [cutStep] fun request => [100 + request]) 0).length :=
  have lossless := speculation_lossless counting keepTwo [cutStep, paddedStep]
    fun request => [100 + request]
  ⟨(lossless 0).2.2.trans (by decide), (lossless 1).2.2.trans (by decide),
    (((lossless 0).2.1 1 paddedStep rfl).1 (by decide)).1⟩

end Sample

end GlmSpark.LosslessSpeculation
