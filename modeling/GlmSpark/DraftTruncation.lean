import GlmSpark.Dict

/-!
# In-place truncation of the scheduled drafts

Before the runner reads a scheduler output, `truncate` may shorten the scheduled
drafts of all requests to one uniform length. It acts only when every request
that has drafts also has a confidence record and all of them have the same number
of drafts; otherwise the output is untouched. The length itself comes from a
policy, which is a parameter here.
-/

namespace GlmSpark.DraftTruncation

open Dict

universe u v w
variable {ρ : Type u} {κ : Type v} {σ : Type w} [DecidableEq ρ]

/-- The fields of a scheduler output that the truncation reads and writes. Both
dictionaries have distinct request ids. -/
structure SchedulerOutput (ρ : Type u) where
  scheduledSpecDecodeTokens : List (ρ × List Int)
  numScheduledTokens : List (ρ × Int)
  totalNumScheduledTokens : Int
  hasStructuredOutputRequests : Bool
  distinct_spec : (scheduledSpecDecodeTokens.map Prod.fst).Nodup
  distinct_scheduled : (numScheduledTokens.map Prod.fst).Nodup

/-- The drafts scheduled for a request; a request without an entry has none. -/
def SchedulerOutput.drafts (output : SchedulerOutput ρ) (request : ρ) : List Int :=
  (output.scheduledSpecDecodeTokens.lookup request).getD []

/-- The requests that have drafts, in the dictionary's order. -/
def liveRequests (output : SchedulerOutput ρ) : List ρ :=
  (output.scheduledSpecDecodeTokens.filter fun entry => !entry.2.isEmpty).map Prod.fst

/-- The uniform number of drafts, when all live requests have the same. -/
def uniformDrafts (output : SchedulerOutput ρ) : Option Nat :=
  match ((liveRequests output).map fun request => (output.drafts request).length).dedup with
  | [kmax] => some kmax
  | _ => none

/-- Shorten one request's drafts to `L` and its scheduled tokens by as many. -/
def cutRequest (L : Nat) (output : SchedulerOutput ρ) (request : ρ) : SchedulerOutput ρ where
  scheduledSpecDecodeTokens :=
    update request (List.take L) output.scheduledSpecDecodeTokens
  numScheduledTokens :=
    update request (· - ((output.drafts request).length - L : Int)) output.numScheduledTokens
  totalNumScheduledTokens :=
    output.totalNumScheduledTokens - ((output.drafts request).length - L : Int)
  hasStructuredOutputRequests := output.hasStructuredOutputRequests
  distinct_spec := by rw [keys_update]; exact output.distinct_spec
  distinct_scheduled := by rw [keys_update]; exact output.distinct_scheduled

/-- `truncate`: the chosen length, or `none` when the output stays untouched, with
the output and the policy afterwards. -/
def truncate (choose : σ → List (List κ) → Nat → Nat × σ) (output : SchedulerOutput ρ)
    (confsByReq : ρ → Option (List κ)) (policy : σ) : Option Nat × SchedulerOutput ρ × σ :=
  if output.hasStructuredOutputRequests then (none, output, policy)
  else
    let rids := liveRequests output
    if rids.isEmpty || rids.any (fun request => (confsByReq request).isNone) then
      (none, output, policy)
    else
      match uniformDrafts output with
      | none => (none, output, policy)
      | some kmax =>
        let decision := choose policy (rids.map fun request => (confsByReq request).getD []) kmax
        let L := decision.1
        if L ≥ kmax then (some L, output, decision.2)
        else (some L, rids.foldl (cutRequest L) output, decision.2)

/-- Cutting one request leaves every request a prefix of its drafts. -/
theorem cut_drafts_initial (L : Nat) (output : SchedulerOutput ρ) (cut request : ρ) :
    (cutRequest L output cut).drafts request <+: output.drafts request := by
  simp only [SchedulerOutput.drafts, cutRequest, lookup_update]
  split
  · cases output.scheduledSpecDecodeTokens.lookup request with
    | none => simp
    | some drafts => simpa using List.take_prefix L drafts
  · exact List.prefix_refl _

/-- So does cutting any list of requests. -/
theorem cuts_drafts_initial (L : Nat) (cuts : List ρ) (output : SchedulerOutput ρ) (request : ρ) :
    (cuts.foldl (cutRequest L) output).drafts request <+: output.drafts request := by
  induction cuts generalizing output with
  | nil => exact List.prefix_refl _
  | cons cut rest ih =>
    exact (ih (cutRequest L output cut)).trans (cut_drafts_initial L output cut request)

/-- Whatever length the policy chooses, truncation only shortens drafts. -/
theorem truncate_drafts_initial (choose : σ → List (List κ) → Nat → Nat × σ)
    (output : SchedulerOutput ρ) (confsByReq : ρ → Option (List κ)) (policy : σ) (request : ρ) :
    (truncate choose output confsByReq policy).2.1.drafts request <+: output.drafts request := by
  simp only [truncate]
  split
  · exact List.prefix_refl _
  · split
    · exact List.prefix_refl _
    · split
      · exact List.prefix_refl _
      · split
        · exact List.prefix_refl _
        · exact cuts_drafts_initial _ _ output request

end GlmSpark.DraftTruncation
