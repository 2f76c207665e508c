import GlmSpark.DraftPolicy
import GlmSpark.DraftTruncation
import GlmSpark.Runs
import Mathlib.Data.List.Induction
import Mathlib.Algebra.Order.Ring.Rat
import Mathlib.Algebra.Field.Rat

/-!
# The gate of the draft truncation

The worker copies the confidences of every draft to one of three pinned slots and, at
the next step, waits for the copy and truncates the scheduled drafts. With a gate it
does not wait where the last decision was clearly the full length: the step keeps its
shape and the draft is scored one step later.

Two workers take the same calls, one with a gate and one without. They make the same
policy calls in the same order; the gated one may be one call behind.
-/

namespace GlmSpark.GatedTruncation

open DraftPolicy DraftTruncation Runs

universe u v
variable {ρ : Type u} {F : Type v} [DecidableEq ρ]

/-- A dictionary built from pairs: the last value of a key counts. -/
def dictOf {β : Type v} (pairs : List (ρ × β)) (key : ρ) : Option β := pairs.reverse.lookup key

/-- `_W.pend`: the draft that waits to be scored, with its requests and its slot in the ring;
`serial` numbers the drafts. -/
structure Pend (ρ : Type u) where
  serial : ℕ
  n : ℕ
  rids : List ρ
  slot : ℕ

/-- `_W.unscored`: a draft whose step went through the gate before it was scored, with what is
needed to score it later. -/
structure Unscored where
  serial : ℕ
  n : ℕ
  idx : List ℕ
  slot : ℕ
  kmax : ℕ

/-- `_W.ring`: the shape of the slots and the rows copied to each. -/
structure Ring (F : Type v) where
  rows : ℕ
  depth : ℕ
  slots : ℕ → List (List F)

/-- `RING`: the slots of pinned confidences. -/
def ringSize : ℕ := 3

/-- A call of the policy: the draft it scores, the confidences and the scheduled length. -/
structure Scored (F : Type v) where
  serial : ℕ
  confs : List (List F)
  kmax : ℕ
  deriving DecidableEq

/-- The fields of `_W` that decide anything, for one variant, and the policy calls so far. -/
structure Worker (ρ : Type u) (F : Type v) where
  pend : Option (Pend ρ)
  ring : Option (Ring F)
  slotI : ℕ
  unscored : Option Unscored
  last : Option (ℕ × WithTop F × ℕ)
  policy : Policy F
  calls : List (Scored F)

/-- A worker before its first draft. -/
def Worker.start (policy : Policy F) : Worker ρ F := ⟨none, none, 0, none, none, policy, []⟩

/-- A call of `propose`: the requests of the batch with the confidences of their drafts. -/
structure ProposeCall (ρ : Type u) (F : Type v) where
  dummy : Bool
  depth : ℕ
  batch : List (ρ × List F)

/-- The ring has room for a batch. -/
def Fits (ring : Option (Ring F)) (n depth : ℕ) : Prop :=
  ∃ held, ring = some held ∧ n ≤ held.rows ∧ held.depth = depth

/-- Whether a ring has room for some rows of a depth is decided by its two sizes. -/
instance (ring : Option (Ring F)) (n depth : ℕ) : Decidable (Fits ring n depth) :=
  match ring with
  | none => isFalse fun ⟨_, absent, _⟩ => nomatch absent
  | some held =>
    decidable_of_iff (n ≤ held.rows ∧ held.depth = depth)
      ⟨fun fits => ⟨held, rfl, fits⟩, fun ⟨_, same, fits⟩ => Option.some.inj same ▸ fits⟩

/-- The ring `propose` writes to, a new one when the batch does not fit. -/
def fittedRing (ring : Option (Ring F)) (n depth : ℕ) : Ring F :=
  match ring with
  | some held => if held.rows < n ∨ held.depth ≠ depth then ⟨max 64 n, depth, fun _ => []⟩ else held
  | none => ⟨max 64 n, depth, fun _ => []⟩

/-- `_W.ring[slot][:n].copy_(conf)`: the rows of a draft into its slot. -/
def Ring.copy (ring : Ring F) (slot : ℕ) (conf : List (List F)) : Ring F :=
  { ring with
    slots := Function.update ring.slots slot (conf ++ (ring.slots slot).drop conf.length) }

/-- A new ring leaves no unread slot behind. -/
def Worker.dropUnscored (worker : Worker ρ F) (n depth : ℕ) : Worker ρ F :=
  match worker.ring with
  | some held =>
    if (held.rows < n ∨ held.depth ≠ depth) ∧ worker.unscored.isSome then
      { worker with unscored := none, last := none }
    else worker
  | none =>
    if worker.unscored.isSome then { worker with unscored := none, last := none } else worker

/-- `propose`: the confidences of a draft go to the next slot, and the draft is pending. After a
dummy or an empty call none is. -/
def Worker.propose (worker : Worker ρ F) (call : ProposeCall ρ F) : Worker ρ F :=
  if call.dummy ∨ call.batch = [] then { worker with pend := none }
  else
    let n := call.batch.length
    let worker := worker.dropUnscored n call.depth
    let slot := worker.slotI % ringSize
    { worker with
      ring := some ((fittedRing worker.ring n call.depth).copy slot (call.batch.map Prod.snd))
      slotI := worker.slotI + 1
      pend := some ⟨worker.slotI, n, call.batch.map Prod.fst, slot⟩ }

variable [Field F] [LinearOrder F]

/-- `arr = _W.ring[slot][:n].tolist()`: the rows that are in the slot when they are read. -/
def Worker.read (worker : Worker ρ F) (slot n : ℕ) : List (List F) :=
  match worker.ring with
  | some ring => (ring.slots slot).take n
  | none => []

/-- `Policy.choose`, with the call noted together with the draft it scores. -/
def noted (serial : ℕ) (state : Policy F × List (Scored F)) (confs : List (List F)) (kmax : ℕ) :
    ℕ × Policy F × List (Scored F) :=
  let (L, policy) := state.1.choose confs kmax
  (L, policy, state.2 ++ [⟨serial, confs, kmax⟩])

/-- A draft gated at the last step is scored now. -/
def Worker.scoreUnscored (worker : Worker ρ F) : Worker ρ F :=
  match worker.unscored with
  | none => worker
  | some late =>
    let arr := worker.read late.slot late.n
    let (L, policy, calls) := noted late.serial (worker.policy, worker.calls)
      (late.idx.map fun i => arr.getD i []) late.kmax
    { worker with
      unscored := none
      policy := policy
      calls := calls
      last := some (L, policy.lastMargin, late.kmax) }

/-- `eligible`: the common number of drafts, where the output schedules the draft's requests and
nothing that cannot be cut. -/
def eligible (output : SchedulerOutput ρ) (rids : List ρ) : Option ℕ :=
  if output.hasStructuredOutputRequests then none
  else
    let live := liveRequests output
    if live.isEmpty || live.any (fun request => request ∉ rids) then none else uniformDrafts output

/-- A call of `execute_model`; `thr` is the gate's threshold, 0 for no gate. -/
structure ExecuteCall (ρ : Type u) (F : Type v) where
  dummy : Bool
  output : SchedulerOutput ρ
  thr : F
  earlySkip : Bool

/-- `mode`: nothing to decide, skipped without waiting, gated, skipped after the wait, waited. -/
inductive Mode
  | idle
  | early
  | gated
  | skipped
  | waited
  deriving DecidableEq, Repr

/-- The test of the gate: the last decision kept all drafts with a margin that reaches the
threshold. -/
def opens (last : Option (ℕ × WithTop F × ℕ)) (kmax : ℕ) (thr : F) : Prop :=
  0 < thr ∧ ∃ L margin k, last = some (L, margin, k) ∧ L = kmax ∧ k = kmax ∧ (thr : WithTop F) ≤ margin

/-- Whether the gate opens is decided by the last price, if there is one. -/
instance (last : Option (ℕ × WithTop F × ℕ)) (kmax : ℕ) (thr : F) :
    Decidable (opens last kmax thr) :=
  match last with
  | none => isFalse fun ⟨_, _, _, _, absent, _⟩ => nomatch absent
  | some (L, margin, k) =>
    decidable_of_iff (0 < thr ∧ L = kmax ∧ k = kmax ∧ (thr : WithTop F) ≤ margin)
      ⟨fun ⟨positive, all⟩ => ⟨positive, L, margin, k, rfl, all⟩,
        fun ⟨positive, _, _, _, same, all⟩ => by
          obtain ⟨rfl, rfl, rfl⟩ := by simpa using same
          exact ⟨positive, all⟩⟩

/-- The late decision: wait for the draft and truncate. -/
def Worker.decide (worker : Worker ρ F) (output : SchedulerOutput ρ) (pend : Pend ρ) :
    Worker ρ F × SchedulerOutput ρ × Mode :=
  let arr := worker.read pend.slot pend.n
  match truncate (noted pend.serial) output (dictOf (pend.rids.zip arr))
      (worker.policy, worker.calls) with
  | (none, output, policy, calls) =>
    ({ worker with policy := policy, calls := calls, last := none }, output, .skipped)
  | (some L, output, policy, calls) =>
    ({ worker with
      policy := policy
      calls := calls
      last := some (L, policy.lastMargin, policy.lastKmax) }, output, .waited)

/-- A step with a draft, after the draft of an earlier gated step is scored. -/
def Worker.step (worker : Worker ρ F) (call : ExecuteCall ρ F) (pend : Pend ρ) :
    Worker ρ F × SchedulerOutput ρ × Mode :=
  match eligible call.output pend.rids with
  | none =>
    if call.earlySkip then ({ worker with last := none }, call.output, .early)
    else worker.decide call.output pend
  | some kmax =>
    if opens worker.last kmax call.thr then
      let live := (liveRequests call.output).map fun request =>
        (dictOf pend.rids.zipIdx request).getD 0
      ({ worker with unscored := some ⟨pend.serial, pend.n, live, pend.slot, kmax⟩ }, call.output,
        .gated)
    else worker.decide call.output pend

/-- `execute_model` without device-side selection: the worker, what the runner gets, the mode. -/
def Worker.executeModel (worker : Worker ρ F) (call : ExecuteCall ρ F) :
    Worker ρ F × SchedulerOutput ρ × Mode :=
  if call.dummy then (worker, call.output, .idle)
  else
    let worker := worker.scoreUnscored
    match worker.pend with
    | none => (worker, call.output, .idle)
    | some pend => { worker with pend := none }.step call pend

section Calls

omit [Field F] [LinearOrder F] in
/-- A request of the batch is found by position and by name, in the same row. -/
theorem dictOf_position (batch : List (ρ × List F)) {request : ρ}
    (listed : request ∈ batch.map Prod.fst) :
    ∃ i row, dictOf (batch.map Prod.fst).zipIdx request = some i ∧
      dictOf batch request = some row ∧ (batch.map Prod.snd)[i]? = some row := by
  induction batch using List.reverseRecOn with
  | nil => exact absurd listed List.not_mem_nil
  | append_singleton batch entry ih =>
    obtain ⟨key, row⟩ := entry
    rw [dictOf, dictOf, List.map_append, List.map_append, List.zipIdx_append, List.reverse_append,
      List.reverse_append]
    simp only [List.map_cons, List.map_nil, List.zipIdx_cons, List.zipIdx_nil, List.reverse_singleton,
      List.singleton_append, List.lookup_cons, Nat.zero_add, List.length_map]
    by_cases same : request = key
    · refine ⟨batch.length, row, by simp [same], by simp [same], ?_⟩
      simp
    · have passed : (request == key) = false := by simpa using same
      have earlier : request ∈ batch.map Prod.fst := by
        rw [List.map_append, List.mem_append] at listed
        exact listed.resolve_right fun last => same (List.mem_singleton.mp last)
      obtain ⟨i, held, position, found, there⟩ := ih earlier
      obtain ⟨below, _⟩ := List.getElem?_eq_some_iff.mp there
      rw [dictOf] at position found
      refine ⟨i, held, by simpa [passed] using position, by simpa [passed] using found, ?_⟩
      rw [List.getElem?_append_left below, there]

/-- The confidences of a request in a batch. -/
def rowOf (batch : List (ρ × List F)) (request : ρ) : List F := (dictOf batch request).getD []

omit [DecidableEq ρ] [Field F] [LinearOrder F] in
/-- An eligible length is the uniform one of an output that acts on the requests of the draft. -/
theorem eligible_some [DecidableEq ρ] {output : SchedulerOutput ρ} {rids : List ρ} {kmax : ℕ}
    (acts : eligible output rids = some kmax) :
    (∀ request ∈ liveRequests output, request ∈ rids) ∧ uniformDrafts output = some kmax := by
  rw [eligible] at acts
  split at acts
  · cases acts
  dsimp only at acts
  split at acts
  · cases acts
  next kept =>
    refine ⟨fun request live => ?_, acts⟩
    by_contra missing
    refine kept (Bool.or_eq_true_iff.mpr (Or.inr ?_))
    exact List.any_eq_true.mpr ⟨request, live, decide_eq_true missing⟩

omit [Field F] [LinearOrder F] in
/-- Only the requests of the batch have confidences. -/
theorem dictOf_isNone (batch : List (ρ × List F)) (request : ρ) :
    (dictOf batch request).isNone = decide (request ∉ batch.map Prod.fst) := by
  rw [Bool.eq_iff_iff, Option.isNone_iff_eq_none, dictOf, List.lookup_eq_none_iff, decide_eq_true_iff]
  constructor
  · intro none listed
    obtain ⟨entry, stored, rfl⟩ := List.mem_map.mp listed
    simpa using none entry (List.mem_reverse.mpr stored)
  · intro missing entry stored
    have different : request ≠ entry.1 := fun same =>
      missing (same ▸ List.mem_map_of_mem (List.mem_reverse.mp stored))
    simpa using different

/-- The policy call for the scheduled requests of a draft. -/
def callFor (pend : Pend ρ) (output : SchedulerOutput ρ) (batch : List (ρ × List F)) (kmax : ℕ) :
    Scored F :=
  ⟨pend.serial, (liveRequests output).map (rowOf batch), kmax⟩

omit [Field F] [LinearOrder F] in
/-- `truncate` leaves an output alone that `eligible` refuses, and otherwise asks the policy. -/
theorem truncate_eq {σ : Type v} (choose : σ → List (List F) → ℕ → ℕ × σ)
    (output : SchedulerOutput ρ) (batch : List (ρ × List F)) (policy : σ) :
    truncate choose output (dictOf batch) policy =
      match eligible output (batch.map Prod.fst) with
      | none => (none, output, policy)
      | some kmax =>
        let (L, policy) := choose policy ((liveRequests output).map (rowOf batch)) kmax
        if L ≥ kmax then (some L, output, policy)
        else (some L, (liveRequests output).foldl (cutRequest L) output, policy) := by
  simp only [truncate, eligible, dictOf_isNone]
  split
  next => rfl
  next =>
    split
    next => rfl
    next => rfl

omit [Field F] [LinearOrder F] in
/-- An output that is not eligible is left alone, and the policy is not asked. -/
theorem truncate_refused {σ : Type v} (choose : σ → List (List F) → ℕ → ℕ × σ)
    (output : SchedulerOutput ρ) (batch : List (ρ × List F)) (policy : σ)
    (refused : eligible output (batch.map Prod.fst) = none) :
    truncate choose output (dictOf batch) policy = (none, output, policy) := by
  rw [truncate_eq, refused]

omit [Field F] [LinearOrder F] in
/-- `truncate` asks the policy where `eligible` gives a length. -/
theorem truncate_eligible {σ : Type v} (choose : σ → List (List F) → ℕ → ℕ × σ)
    (output : SchedulerOutput ρ) (batch : List (ρ × List F)) (policy : σ) {kmax : ℕ}
    (acts : eligible output (batch.map Prod.fst) = some kmax) :
    ∃ shaped, truncate choose output (dictOf batch) policy =
      (some (choose policy ((liveRequests output).map (rowOf batch)) kmax).1, shaped,
        (choose policy ((liveRequests output).map (rowOf batch)) kmax).2) := by
  rw [truncate_eq, acts]
  dsimp only
  split
  · exact ⟨output, rfl⟩
  · exact ⟨_, rfl⟩

end Calls

section Slots

omit [DecidableEq ρ] [Field F] [LinearOrder F] in
/-- A batch that fits goes to the slot in turn; the ring stays. -/
theorem propose_copies (worker : Worker ρ F) {call : ProposeCall ρ F}
    (real : ¬ (call.dummy = true ∨ call.batch = []))
    (fits : worker.ring = none ∨ Fits worker.ring call.batch.length call.depth)
    (allocated : worker.unscored.isSome → worker.ring.isSome) :
    worker.propose call = { worker with
      ring := some ((fittedRing worker.ring call.batch.length call.depth).copy
        (worker.slotI % ringSize) (call.batch.map Prod.snd))
      slotI := worker.slotI + 1
      pend := some ⟨worker.slotI, call.batch.length, call.batch.map Prod.fst,
        worker.slotI % ringSize⟩ } := by
  have kept : worker.dropUnscored call.batch.length call.depth = worker := by
    rw [Worker.dropUnscored]
    rcases fits with none | ⟨held, here, room, depth⟩
    · rw [none]
      have idle : ¬ worker.unscored.isSome = true := fun some => by
        have ring := allocated some
        rw [none] at ring
        exact Bool.false_ne_true ring
      dsimp only
      rw [if_neg idle]
    · rw [here]
      dsimp only
      rw [if_neg]
      rintro ⟨small | other, _⟩
      · omega
      · exact other depth
  rw [Worker.propose, if_neg real]
  dsimp only
  rw [kept]

omit [DecidableEq ρ] [Field F] [LinearOrder F] in
/-- A draft reads back from the slot it was copied to. -/
theorem read_copied (ring : Ring F) (slot : ℕ) (conf : List (List F)) :
    ((ring.copy slot conf).slots slot).take conf.length = conf := by
  dsimp only [Ring.copy]
  rw [Function.update_self, List.take_left]

omit [DecidableEq ρ] [Field F] [LinearOrder F] in
/-- Writing one slot of the ring leaves the rows of the other slots as they were. -/
theorem read_other {ring : Option (Ring F)} {held : Ring F} {n depth : ℕ} (slot : ℕ)
    (conf : List (List F)) {other : ℕ} (here : ring = some held) (fits : Fits ring n depth)
    (different : other ≠ slot) :
    ((fittedRing ring n depth).copy slot conf).slots other = held.slots other := by
  obtain ⟨_, same, room, equal⟩ := fits
  obtain rfl := Option.some.inj (here.symm.trans same)
  have stays : ¬ (held.rows < n ∨ held.depth ≠ depth) := by
    rintro (small | changed)
    · omega
    · exact changed equal
  dsimp only [Ring.copy]
  rw [Function.update_of_ne different, here, fittedRing, if_neg stays]

end Slots

section Twins

/-- A call of either kind. -/
inductive Call (ρ : Type u) (F : Type v)
  | propose (call : ProposeCall ρ F)
  | execute (call : ExecuteCall ρ F)

/-- The same call for a worker without a gate. -/
def ExecuteCall.ungated (call : ExecuteCall ρ F) : ExecuteCall ρ F := { call with thr := 0 }

/-- A gated worker and one without a gate, the drafts so far, and how many of them came after the
last executed step. -/
structure Twins (ρ : Type u) (F : Type v) where
  gated : Worker ρ F
  plain : Worker ρ F
  drafts : List (List (ρ × List F))
  since : ℕ

/-- A propose call that makes a draft. -/
def ProposeCall.real (call : ProposeCall ρ F) : Prop := ¬ (call.dummy = true ∨ call.batch = [])

/-- Whether a propose call makes a draft is read off its flag and its batch. -/
instance (call : ProposeCall ρ F) : Decidable call.real := by
  unfold ProposeCall.real; infer_instance

/-- Both workers take the call; the one without a gate takes it with the threshold zero. -/
def twinStep (twins : Twins ρ F) : Call ρ F → Twins ρ F
  | .propose call =>
    { gated := twins.gated.propose call
      plain := twins.plain.propose call
      drafts := if call.real then twins.drafts ++ [call.batch] else twins.drafts
      since := if call.real then twins.since + 1 else twins.since }
  | .execute call =>
    { twins with
      gated := (twins.gated.executeModel call).1
      plain := (twins.plain.executeModel call.ungated).1
      since := if call.dummy then twins.since else 0 }

/-- A batch fits the pinned ring. -/
def fitting (twins : Twins ρ F) : Call ρ F → Prop
  | .propose call =>
    call.real → twins.plain.ring = none ∨ Fits twins.plain.ring call.batch.length call.depth
  | .execute _ => True

/-- At most two drafts are made between two executed steps; the runner makes one. -/
def driven (twins : Twins ρ F) : Call ρ F → Prop
  | .propose call => call.real → twins.since < 2
  | .execute _ => True

/-- Whether the pinned ring has room for a call, or is not made yet. -/
instance (twins : Twins ρ F) (call : Call ρ F) : Decidable (fitting twins call) :=
  match call with
  | .propose call =>
    decidable_of_iff (call.real → twins.plain.ring.isNone ∨
        Fits twins.plain.ring call.batch.length call.depth)
      (by rw [fitting, Option.isNone_iff_eq_none])
  | .execute _ => isTrue trivial

/-- Whether a call keeps to two drafts between executed steps is read off the count. -/
instance (twins : Twins ρ F) (call : Call ρ F) : Decidable (driven twins call) :=
  match call with
  | .propose call => inferInstanceAs (Decidable (call.real → twins.since < 2))
  | .execute _ => isTrue trivial

/-- Every run of two workers of one policy. -/
def twinRuns (policy : Policy F) : System (Twins ρ F) (Call ρ F) where
  initial := ⟨.start policy, .start policy, [], 0⟩
  step := twinStep
  allowed := fitting

/-- The runs in which the drafts alternate with the steps that score them. -/
def drivenRuns (policy : Policy F) : System (Twins ρ F) (Call ρ F) :=
  { twinRuns policy with allowed := fun twins call => fitting twins call ∧ driven twins call }

/-- So runs of the twins can be evaluated on a list of calls. -/
instance (policy : Policy F) (twins : Twins ρ F) (call : Call ρ F) :
    Decidable ((twinRuns policy).allowed twins call) :=
  inferInstanceAs (Decidable (fitting twins call))

/-- So can the runs in which drafts alternate with executed steps. -/
instance (policy : Policy F) (twins : Twins ρ F) (call : Call ρ F) :
    Decidable ((drivenRuns policy).allowed twins call) :=
  inferInstanceAs (Decidable (fitting twins call ∧ driven twins call))

/-- A policy call scores the rows copied for its draft. -/
def FromDraft (drafts : List (List (ρ × List F))) (call : Scored F) : Prop :=
  ∃ batch, drafts[call.serial]? = some batch ∧ ∃ requests : List ρ,
    (∀ request ∈ requests, request ∈ batch.map Prod.fst) ∧ call.confs = requests.map (rowOf batch)

/-- The pending draft is the latest one, and its slot holds its rows. -/
def Waits (twins : Twins ρ F) : Prop :=
  ∀ pend, twins.plain.pend = some pend → pend.serial + 1 = twins.drafts.length ∧
    pend.slot = pend.serial % ringSize ∧ twins.plain.ring.isSome ∧
      ∃ batch, twins.drafts[pend.serial]? = some batch ∧ pend.rids = batch.map Prod.fst ∧
        twins.plain.read pend.slot pend.n = batch.map Prod.snd

/-- The slot of a gated draft was not reused since. -/
def Unused (twins : Twins ρ F) : Prop :=
  ∀ late, twins.gated.unscored = some late →
    late.serial + 1 + twins.since = twins.drafts.length ∧ late.slot = late.serial % ringSize ∧
      twins.gated.ring.isSome

/-- How the two workers stand to each other. -/
structure Linked (twins : Twins ρ F) : Prop where
  pend : twins.gated.pend = twins.plain.pend
  ring : twins.gated.ring = twins.plain.ring
  serial : twins.gated.slotI = twins.drafts.length ∧ twins.plain.slotI = twins.drafts.length
  prompt : twins.plain.unscored = none
  policy : twins.gated.scoreUnscored.policy = twins.plain.policy
  calls : twins.gated.scoreUnscored.calls = twins.plain.calls
  waits : Waits twins
  unused : Unused twins
  recent : twins.since ≤ 2
  once : (twins.plain.calls.map Scored.serial).Pairwise (· < ·)
  scored : ∀ call ∈ twins.plain.calls, FromDraft twins.drafts call ∧
    ∀ pend, twins.plain.pend = some pend → call.serial < pend.serial

end Twins

section Steps

/-- A worker that has read the draft's rows keeps an output that `eligible` refuses. -/
theorem decide_refused {worker : Worker ρ F} {output : SchedulerOutput ρ} {pend : Pend ρ}
    {batch : List (ρ × List F)} (names : pend.rids = batch.map Prod.fst)
    (rows : worker.read pend.slot pend.n = batch.map Prod.snd)
    (refused : eligible output pend.rids = none) :
    worker.decide output pend = ({ worker with last := none }, output, .skipped) := by
  have paired : pend.rids.zip (worker.read pend.slot pend.n) = batch := by
    rw [names, rows, ← List.unzip_fst, ← List.unzip_snd, List.zip_unzip]
  rw [names] at refused
  rw [Worker.decide, paired, truncate_refused _ _ _ _ refused]

/-- Otherwise it makes one call, on the rows of the scheduled requests. -/
theorem decide_eligible (worker : Worker ρ F) {output : SchedulerOutput ρ} {pend : Pend ρ}
    {batch : List (ρ × List F)} {kmax : ℕ} (names : pend.rids = batch.map Prod.fst)
    (rows : worker.read pend.slot pend.n = batch.map Prod.snd)
    (acts : eligible output pend.rids = some kmax) :
    ∃ shaped last, worker.decide output pend =
      ({ worker with
        policy := (worker.policy.choose ((liveRequests output).map (rowOf batch)) kmax).2
        calls := worker.calls ++ [callFor pend output batch kmax]
        last := last }, shaped, .waited) := by
  have paired : pend.rids.zip (worker.read pend.slot pend.n) = batch := by
    rw [names, rows, ← List.unzip_fst, ← List.unzip_snd, List.zip_unzip]
  rw [names] at acts
  obtain ⟨shaped, cut⟩ :=
    truncate_eligible (noted pend.serial) output batch (worker.policy, worker.calls) acts
  refine ⟨shaped, some ((worker.policy.choose ((liveRequests output).map (rowOf batch)) kmax).1,
    (worker.policy.choose ((liveRequests output).map (rowOf batch)) kmax).2.lastMargin,
    (worker.policy.choose ((liveRequests output).map (rowOf batch)) kmax).2.lastKmax), ?_⟩
  rw [Worker.decide, paired, cut]
  rfl

/-- Without a gate the step never reads the last decision. -/
theorem step_ungated (worker : Worker ρ F) (call : ExecuteCall ρ F) (pend : Pend ρ)
    (last : Option (ℕ × WithTop F × ℕ)) {kmax : ℕ}
    (acts : eligible call.output pend.rids = some kmax) :
    { worker with last := last }.step call.ungated pend = worker.decide call.output pend := by
  have shut : ¬ opens last kmax call.ungated.thr := fun opened => lt_irrefl 0 opened.1
  rw [Worker.step, show call.ungated.output = call.output from rfl, acts]
  dsimp only
  rw [if_neg shut]
  rfl

/-- A gated worker takes the step of the other one, or keeps the draft for later. -/
theorem step_gated (worker : Worker ρ F) (call : ExecuteCall ρ F) (pend : Pend ρ)
    (last : Option (ℕ × WithTop F × ℕ)) :
    { worker with last := last }.step call pend = worker.step call.ungated pend ∨
      ∃ kmax, eligible call.output pend.rids = some kmax ∧
        { worker with last := last }.step call pend =
          ({ worker with
            last := last
            unscored := some ⟨pend.serial, pend.n, (liveRequests call.output).map fun request =>
              (dictOf pend.rids.zipIdx request).getD 0, pend.slot, kmax⟩ }, call.output, .gated) := by
  cases acts : eligible call.output pend.rids with
  | none =>
    left
    rw [Worker.step, Worker.step, show call.ungated.output = call.output from rfl, acts]
    rfl
  | some kmax =>
    by_cases opened : opens last kmax call.thr
    · right
      refine ⟨kmax, rfl, ?_⟩
      rw [Worker.step, acts]
      dsimp only
      rw [if_pos opened]
    · left
      rw [step_ungated worker call pend worker.last acts, Worker.step, acts]
      dsimp only
      rw [if_neg opened]
      rfl

omit [Field F] [LinearOrder F] in
/-- The rows of the scheduled requests, found by position. -/
theorem rows_by_position {batch : List (ρ × List F)} {live : List ρ}
    (listed : ∀ request ∈ live, request ∈ batch.map Prod.fst) :
    (live.map fun request => (dictOf (batch.map Prod.fst).zipIdx request).getD 0).map
        (fun i => (batch.map Prod.snd).getD i []) = live.map (rowOf batch) := by
  rw [List.map_map]
  refine List.map_congr_left fun request named => ?_
  obtain ⟨i, row, position, found, there⟩ := dictOf_position batch (listed request named)
  rw [Function.comp_apply, position, rowOf, found, Option.getD_some, Option.getD_some,
    List.getD_eq_getElem?_getD, there]
  rfl

omit [DecidableEq ρ] in
/-- The late score reads only the slot of the draft. -/
theorem scoreUnscored_congr (worker other : Worker ρ F) (late : other.unscored = worker.unscored)
    (policy : other.policy = worker.policy) (calls : other.calls = worker.calls)
    (reads : ∀ late, worker.unscored = some late →
      other.read late.slot late.n = worker.read late.slot late.n) :
    other.scoreUnscored.policy = worker.scoreUnscored.policy ∧
      other.scoreUnscored.calls = worker.scoreUnscored.calls := by
  rw [Worker.scoreUnscored, Worker.scoreUnscored, late]
  cases kept : worker.unscored with
  | none => exact ⟨policy, calls⟩
  | some late =>
    dsimp only
    rw [reads late kept, policy, calls]
    exact ⟨rfl, rfl⟩

omit [DecidableEq ρ] in
/-- After the late score nothing waits, and only the policy and its calls have changed. -/
theorem scoreUnscored_frame (worker : Worker ρ F) :
    worker.scoreUnscored.unscored = none ∧ worker.scoreUnscored.pend = worker.pend ∧
      worker.scoreUnscored.ring = worker.ring ∧ worker.scoreUnscored.slotI = worker.slotI := by
  rw [Worker.scoreUnscored]
  cases kept : worker.unscored with
  | none => exact ⟨kept, rfl, rfl, rfl⟩
  | some late => exact ⟨rfl, rfl, rfl, rfl⟩

omit [DecidableEq ρ] in
/-- A worker with nothing to score late stays as it is. -/
theorem scoreUnscored_none (worker : Worker ρ F) (prompt : worker.unscored = none) :
    worker.scoreUnscored = worker := by
  rw [Worker.scoreUnscored, prompt]

end Steps

section Simulation

omit [DecidableEq ρ] [Field F] [LinearOrder F] in
/-- Drafts made later leave a call's draft where it was. -/
theorem FromDraft.append [DecidableEq ρ] {drafts : List (List (ρ × List F))} {call : Scored F}
    (known : FromDraft drafts call) (more : List (List (ρ × List F))) :
    FromDraft (drafts ++ more) call := by
  obtain ⟨batch, stored, requests, named, rows⟩ := known
  obtain ⟨below, _⟩ := List.getElem?_eq_some_iff.mp stored
  exact ⟨batch, by rw [List.getElem?_append_left below, stored], requests, named, rows⟩

/-- Once scored, the gated worker is the other one but for the last decision. -/
theorem Linked.scored_same {twins : Twins ρ F} (linked : Linked twins) :
    ∃ last, twins.gated.scoreUnscored = { twins.plain with last := last } := by
  obtain ⟨unscored, pend, ring, slot⟩ := scoreUnscored_frame twins.gated
  refine ⟨twins.gated.scoreUnscored.last, ?_⟩
  have serial := linked.serial.1.trans linked.serial.2.symm
  cases same : twins.gated.scoreUnscored with
  | mk pend' ring' slotI' unscored' last' policy' calls' =>
    have policy := linked.policy
    have calls := linked.calls
    have prompt := linked.prompt
    rw [same] at unscored pend ring slot policy calls
    dsimp only at unscored pend ring slot policy calls
    rw [unscored, pend, ring, slot, policy, calls, linked.pend, linked.ring, serial, ← prompt]

omit [DecidableEq ρ] [Field F] [LinearOrder F] in
/-- A call without a draft only forgets the pending one. -/
theorem propose_idle {worker : Worker ρ F} {call : ProposeCall ρ F} (idle : ¬ call.real) :
    worker.propose call = { worker with pend := none } := by
  rw [Worker.propose, if_pos (not_not.mp idle)]

/-- A propose call keeps the two workers together. -/
theorem Linked.propose {twins : Twins ρ F} (linked : Linked twins) (call : ProposeCall ρ F)
    (fits : fitting twins (.propose call)) (sent : driven twins (.propose call)) :
    Linked (twinStep twins (.propose call)) := by
  by_cases real : call.real
  · have early := sent real
    have fits := fits real
    have serial := linked.serial
    have late_slot : ∀ late, twins.gated.unscored = some late →
        late.slot ≠ twins.gated.slotI % ringSize := by
      intro late kept
      obtain ⟨distance, slot, _⟩ := linked.unused late kept
      rw [slot, serial.1, ← distance, ringSize]
      omega
    have gated := propose_copies twins.gated real (linked.ring ▸ fits)
      (fun some => by
        obtain ⟨late, kept⟩ := Option.isSome_iff_exists.mp some
        exact (linked.unused late kept).2.2)
    have plain := propose_copies twins.plain real fits
      (fun some => by simp [linked.prompt] at some)
    have reads : ∀ late, twins.gated.unscored = some late →
        (twins.gated.propose call).read late.slot late.n = twins.gated.read late.slot late.n := by
      intro late kept
      obtain ⟨held, here⟩ := Option.isSome_iff_exists.mp (linked.unused late kept).2.2
      have room : Fits twins.gated.ring call.batch.length call.depth := by
        rw [linked.ring]
        refine fits.resolve_left fun empty => ?_
        rw [linked.ring, empty] at here
        exact nomatch here
      rw [gated, Worker.read, Worker.read, here]
      dsimp only
      rw [← here, read_other _ _ here room (late_slot late kept)]
    obtain ⟨policy, calls⟩ := scoreUnscored_congr twins.gated
      (twins.gated.propose call) (by rw [gated]) (by rw [gated]) (by rw [gated]) reads
    have next : twinStep twins (.propose call) = ⟨twins.gated.propose call,
        twins.plain.propose call, twins.drafts ++ [call.batch], twins.since + 1⟩ := by
      rw [twinStep, if_pos real, if_pos real]
    rw [next]
    constructor
    case pend => simp only [gated, plain, serial]
    case ring => simp only [gated, plain, serial, linked.ring]
    case serial => simp only [gated, plain, serial, List.length_append, List.length_singleton,
      and_self]
    case prompt => simp only [plain, linked.prompt]
    case policy => simpa only [plain] using policy.trans linked.policy
    case calls => simpa only [plain] using calls.trans linked.calls
    case waits =>
      intro pend made
      simp only [plain, Option.some.injEq] at made
      subst made
      refine ⟨?_, rfl, by simp only [plain, Option.isSome_some], call.batch, ?_, rfl, ?_⟩
      · simp only [serial, List.length_append, List.length_singleton]
      · simp only [serial, List.getElem?_concat_length]
      · simp only [plain, Worker.read]
        simpa only [List.length_map] using read_copied
          (fittedRing twins.plain.ring call.batch.length call.depth)
          (twins.plain.slotI % ringSize) (call.batch.map Prod.snd)
    case unused =>
      intro late kept
      simp only [gated] at kept
      obtain ⟨distance, slot, _⟩ := linked.unused late kept
      refine ⟨?_, slot, ?_⟩
      · simp only [List.length_append, List.length_singleton, ← distance, Nat.add_assoc]
      · simp only [gated, Option.isSome_some]
    case recent => exact early
    case once => simpa only [plain] using linked.once
    case scored =>
      intro scored made
      simp only [plain] at made
      have known := (linked.scored scored made).1
      refine ⟨known.append _, fun pend here => ?_⟩
      obtain ⟨batch, stored, _⟩ := known
      simp only [plain, Option.some.injEq] at here
      rw [← here]
      exact serial.2.symm ▸ (List.getElem?_eq_some_iff.mp stored).1
  · have next : twinStep twins (.propose call) = { twins with
        gated := { twins.gated with pend := none }
        plain := { twins.plain with pend := none } } := by
      rw [twinStep, if_neg real, if_neg real, propose_idle real, propose_idle real]
    obtain ⟨policy, calls⟩ := scoreUnscored_congr twins.gated
      { twins.gated with pend := none } rfl rfl rfl fun _ _ => rfl
    rw [next]
    constructor
    case pend => rfl
    case ring => exact linked.ring
    case serial => exact linked.serial
    case prompt => exact linked.prompt
    case policy => exact policy.trans linked.policy
    case calls => exact calls.trans linked.calls
    case waits => exact fun pend absent => nomatch absent
    case unused => exact linked.unused
    case recent => exact linked.recent
    case once => exact linked.once
    case scored =>
      exact fun scored made => ⟨(linked.scored scored made).1, fun pend absent => nomatch absent⟩

/-- A step without a draft only makes the late score. -/
theorem executeModel_idle (worker : Worker ρ F) (call : ExecuteCall ρ F)
    (real : call.dummy = false) (absent : worker.scoreUnscored.pend = none) :
    worker.executeModel call = (worker.scoreUnscored, call.output, .idle) := by
  rw [Worker.executeModel, if_neg (by rw [real]; exact Bool.false_ne_true)]
  dsimp only
  rw [absent]

/-- A step with a draft follows the late score. -/
theorem executeModel_step (worker : Worker ρ F) (call : ExecuteCall ρ F) {pend : Pend ρ}
    (real : call.dummy = false) (waiting : worker.scoreUnscored.pend = some pend) :
    worker.executeModel call = { worker.scoreUnscored with pend := none }.step call pend := by
  rw [Worker.executeModel, if_neg (by rw [real]; exact Bool.false_ne_true)]
  dsimp only
  rw [waiting]

/-- What an executed step does to the two workers: it has no draft, both take one step, or the gated
worker keeps the draft and the other one decides. -/
theorem Linked.executed {twins : Twins ρ F} (linked : Linked twins) {call : ExecuteCall ρ F}
    (real : call.dummy = false) : ∃ last,
    (twins.plain.pend = none ∧
      twins.gated.executeModel call = ({ twins.plain with last := last }, call.output, .idle) ∧
      twins.plain.executeModel call.ungated = (twins.plain, call.output, .idle)) ∨
    ∃ pend, twins.plain.pend = some pend ∧
      ((twins.gated.executeModel call = twins.plain.executeModel call.ungated ∧
          twins.plain.executeModel call.ungated =
            { twins.plain with pend := none }.step call.ungated pend) ∨
        ∃ kmax, eligible call.output pend.rids = some kmax ∧
          twins.gated.executeModel call = ({ twins.plain with
            pend := none
            last := last
            unscored := some ⟨pend.serial, pend.n, (liveRequests call.output).map fun request =>
              (dictOf pend.rids.zipIdx request).getD 0, pend.slot, kmax⟩ }, call.output, .gated) ∧
          twins.plain.executeModel call.ungated =
            { twins.plain with pend := none }.decide call.output pend) := by
  obtain ⟨last, same⟩ := linked.scored_same
  have prompt := scoreUnscored_none twins.plain linked.prompt
  refine ⟨last, ?_⟩
  cases waiting : twins.plain.pend with
  | none =>
    have gated := executeModel_idle twins.gated call real (by rw [same, waiting])
    have plain := executeModel_idle twins.plain call.ungated real
      (by rw [prompt, waiting])
    rw [same] at gated
    rw [prompt] at plain
    exact Or.inl ⟨rfl, gated, plain⟩
  | some pend =>
    have gated := executeModel_step twins.gated call real (by rw [same, waiting])
    have plain := executeModel_step twins.plain call.ungated real
      (by rw [prompt, waiting])
    rw [same] at gated
    rw [prompt] at plain
    refine Or.inr ⟨pend, rfl, ?_⟩
    obtain stepped | ⟨kmax, acts, kept⟩ :=
      step_gated { twins.plain with pend := none } call pend last
    · exact Or.inl ⟨gated.trans (stepped.trans plain.symm), plain⟩
    · exact Or.inr ⟨kmax, acts, gated.trans kept, plain.trans
        (step_ungated { twins.plain with pend := none } call pend twins.plain.last acts)⟩

/-- The worker without a gate scores the pending draft on the rows copied for it, or not at all. -/
theorem step_scores (worker : Worker ρ F) (call : ExecuteCall ρ F) {pend : Pend ρ}
    {batch : List (ρ × List F)} (names : pend.rids = batch.map Prod.fst)
    (rows : worker.read pend.slot pend.n = batch.map Prod.snd) : ∃ last,
    (worker.step call.ungated pend).1 = { worker with last := last } ∨
    ∃ kmax, eligible call.output pend.rids = some kmax ∧ (worker.step call.ungated pend).1 =
      { worker with
        policy := (worker.policy.choose ((liveRequests call.output).map (rowOf batch)) kmax).2
        calls := worker.calls ++ [callFor pend call.output batch kmax]
        last := last } := by
  cases acts : eligible call.output pend.rids with
  | none =>
    refine ⟨none, Or.inl ?_⟩
    rw [Worker.step, show call.ungated.output = call.output from rfl, acts]
    dsimp only
    rw [decide_refused names rows acts]
    split
    · rfl
    · rfl
  | some kmax =>
    obtain ⟨shaped, last, decided⟩ := decide_eligible worker names rows acts
    exact ⟨last, Or.inr ⟨kmax, rfl, by rw [step_ungated worker call pend worker.last acts, decided]⟩⟩

/-- The calls with one more of the pending draft. -/
theorem Linked.scored_more {twins : Twins ρ F} (linked : Linked twins) {pend : Pend ρ}
    (waiting : twins.plain.pend = some pend) {batch : List (ρ × List F)}
    (stored : twins.drafts[pend.serial]? = some batch) (names : pend.rids = batch.map Prod.fst)
    {output : SchedulerOutput ρ} {kmax : ℕ} (acts : eligible output pend.rids = some kmax) :
    ((twins.plain.calls ++ [callFor pend output batch kmax]).map Scored.serial).Pairwise (· < ·) ∧
      ∀ call ∈ twins.plain.calls ++ [callFor pend output batch kmax],
        FromDraft twins.drafts call := by
  constructor
  · rw [List.map_append, List.pairwise_append, List.map_singleton]
    refine ⟨linked.once, List.pairwise_singleton _ _, ?_⟩
    intro earlier made later last
    obtain ⟨call, listed, rfl⟩ := List.mem_map.mp made
    rw [List.mem_singleton] at last
    rw [last]
    exact (linked.scored call listed).2 pend waiting
  · intro call made
    rw [List.mem_append, List.mem_singleton] at made
    cases made with
    | inl earlier => exact (linked.scored call earlier).1
    | inr new =>
      rw [new]
      exact ⟨batch, stored, liveRequests output, names ▸ (eligible_some acts).1, rfl⟩

/-- The late score of a draft is the call its step would have made. -/
theorem late_scores (worker : Worker ρ F) {output : SchedulerOutput ρ} {pend : Pend ρ}
    {batch : List (ρ × List F)} {kmax : ℕ} (names : pend.rids = batch.map Prod.fst)
    (rows : worker.read pend.slot pend.n = batch.map Prod.snd)
    (acts : eligible output pend.rids = some kmax)
    (kept : worker.unscored = some ⟨pend.serial, pend.n, (liveRequests output).map fun request =>
      (dictOf pend.rids.zipIdx request).getD 0, pend.slot, kmax⟩) :
    worker.scoreUnscored.policy =
        (worker.policy.choose ((liveRequests output).map (rowOf batch)) kmax).2 ∧
      worker.scoreUnscored.calls = worker.calls ++ [callFor pend output batch kmax] := by
  have listed : ∀ request ∈ liveRequests output, request ∈ batch.map Prod.fst :=
    names ▸ (eligible_some acts).1
  rw [Worker.scoreUnscored, kept]
  dsimp only
  rw [rows, names, rows_by_position listed]
  exact ⟨rfl, rfl⟩

/-- Two workers without anything waiting, apart only in the last decision. -/
theorem linked_idle (worker : Worker ρ F) (last : Option (ℕ × WithTop F × ℕ))
    {drafts : List (List (ρ × List F))} (idle : worker.pend = none)
    (prompt : worker.unscored = none) (serial : worker.slotI = drafts.length)
    (once : (worker.calls.map Scored.serial).Pairwise (· < ·))
    (scored : ∀ call ∈ worker.calls, FromDraft drafts call) :
    Linked ⟨{ worker with last := last }, worker, drafts, 0⟩ := by
  have same : { worker with last := last }.scoreUnscored = { worker with last := last } :=
    scoreUnscored_none { worker with last := last } prompt
  constructor
  case pend => rfl
  case ring => rfl
  case serial => exact ⟨serial, serial⟩
  case prompt => exact prompt
  case policy => exact (congrArg Worker.policy same :)
  case calls => exact (congrArg Worker.calls same :)
  case waits => exact fun pend some => nomatch idle.symm.trans some
  case unused => exact fun late some => nomatch prompt.symm.trans some
  case recent => exact Nat.zero_le 2
  case once => exact once
  case scored => exact fun call made => ⟨scored call made, fun pend some =>
      nomatch idle.symm.trans some⟩

/-- An executed step keeps the two workers together. -/
theorem Linked.execute {twins : Twins ρ F} (linked : Linked twins) (call : ExecuteCall ρ F) :
    Linked (twinStep twins (.execute call)) := by
  cases real : call.dummy with
  | true =>
    have still : twinStep twins (.execute call) = twins := by
      rw [twinStep, if_pos real, Worker.executeModel, if_pos real, Worker.executeModel,
        if_pos (show call.ungated.dummy = true from real)]
    rw [still]
    exact linked
  | false =>
    have next : twinStep twins (.execute call) = ⟨(twins.gated.executeModel call).1,
        (twins.plain.executeModel call.ungated).1, twins.drafts, 0⟩ := by
      rw [twinStep, if_neg (by rw [real]; exact Bool.false_ne_true)]
    have from_draft : ∀ call ∈ twins.plain.calls, FromDraft twins.drafts call :=
      fun call made => (linked.scored call made).1
    rw [next]
    obtain ⟨last, ⟨idle, gated, plain⟩ | ⟨pend, waiting, stepped⟩⟩ := linked.executed real
    · rw [gated, plain]
      exact linked_idle twins.plain last idle linked.prompt linked.serial.2 linked.once from_draft
    obtain ⟨distance, slot, allocated, batch, stored, names, rows⟩ := linked.waits pend waiting
    obtain ⟨same, plain⟩ | ⟨kmax, acts, gated, plain⟩ := stepped
    · rw [same, plain]
      obtain ⟨last, unscored | ⟨kmax, acts, scored⟩⟩ :=
        step_scores { twins.plain with pend := none } call names rows
      · rw [unscored]
        exact linked_idle { twins.plain with pend := none, last := last } last rfl
          linked.prompt linked.serial.2 linked.once from_draft
      · obtain ⟨once, more⟩ := linked.scored_more waiting stored names acts
        rw [scored]
        exact linked_idle { twins.plain with
          pend := none
          policy :=
            (twins.plain.policy.choose ((liveRequests call.output).map (rowOf batch)) kmax).2
          calls := twins.plain.calls ++ [callFor pend call.output batch kmax]
          last := last } last rfl linked.prompt linked.serial.2 once more
    · obtain ⟨once, more⟩ := linked.scored_more waiting stored names acts
      obtain ⟨shaped, last', decided⟩ :=
        decide_eligible { twins.plain with pend := none } names rows acts
      obtain ⟨policy, calls⟩ := late_scores { twins.plain with
        pend := none
        last := last
        unscored := some ⟨pend.serial, pend.n, (liveRequests call.output).map fun request =>
          (dictOf pend.rids.zipIdx request).getD 0, pend.slot, kmax⟩ } names rows acts rfl
      rw [gated, plain, decided]
      constructor
      case pend => rfl
      case ring => rfl
      case serial => exact ⟨linked.serial.2, linked.serial.2⟩
      case prompt => exact linked.prompt
      case policy => exact policy
      case calls => exact calls
      case waits => exact fun pend absent => nomatch absent
      case unused =>
        intro late kept
        obtain rfl := Option.some.inj kept
        exact ⟨distance, slot, allocated⟩
      case recent => exact Nat.zero_le 2
      case once => exact once
      case scored => exact fun call made => ⟨more call made, fun pend absent => nomatch absent⟩

/-- The two workers stay together in every run. -/
theorem linked_throughout (policy : Policy F) {twins : Twins ρ F}
    (reachable : Reachable (drivenRuns policy) twins) : Linked twins := by
  refine reachable.invariant ?_ ?_
  · exact linked_idle (.start policy) none rfl rfl rfl List.Pairwise.nil
      fun call made => nomatch made
  · intro twins call linked sent
    cases call with
    | propose call => exact linked.propose call sent.1 sent.2
    | execute call => exact linked.execute call

end Simulation

section Results

/-- The gate changes nothing but when a draft is scored. With its waiting draft scored, the gated
worker has made the calls of the other one, each on the rows copied for its draft and at most one
for each draft, and has its policy; a gated step keeps the output and is otherwise the same. -/
theorem gate_transparent (policy : Policy F) {twins : Twins ρ F}
    (reachable : Reachable (drivenRuns policy) twins) :
    twins.gated.scoreUnscored.policy = twins.plain.policy ∧
      twins.gated.scoreUnscored.calls = twins.plain.calls ∧
      (twins.plain.calls.map Scored.serial).Pairwise (· < ·) ∧
      (∀ call ∈ twins.plain.calls, FromDraft twins.drafts call) ∧
      ∀ call : ExecuteCall ρ F,
        (twins.gated.executeModel call).2 = (twins.plain.executeModel call.ungated).2 ∨
          (twins.gated.executeModel call).2 = (call.output, .gated) ∧
            (twins.plain.executeModel call.ungated).2.2 = .waited := by
  have linked := linked_throughout policy reachable
  refine ⟨linked.policy, linked.calls, linked.once,
    fun call made => (linked.scored call made).1, fun call => ?_⟩
  cases real : call.dummy with
  | true =>
    left
    rw [Worker.executeModel, if_pos real, Worker.executeModel,
      if_pos (show call.ungated.dummy = true from real)]
    rfl
  | false =>
    obtain ⟨last, ⟨idle, gated, plain⟩ | ⟨pend, waiting, stepped⟩⟩ := linked.executed real
    · left
      rw [gated, plain]
    obtain ⟨same, _⟩ | ⟨kmax, acts, gated, plain⟩ := stepped
    · left
      rw [same]
    · right
      obtain ⟨_, _, _, batch, _, names, rows⟩ := linked.waits pend waiting
      obtain ⟨shaped, last, decided⟩ :=
        decide_eligible { twins.plain with pend := none } names rows acts
      rw [gated, plain, decided]
      exact ⟨rfl, rfl⟩

/-- A policy that likes confident drafts at their full length. -/
def eager : Policy ℚ where
  edges := [0]
  g := [[1 / 10, 9 / 10], [1 / 10, 9 / 10]]
  t1 := fun _ => 1
  rowMs := 1 / 100
  power := fun _ => 0
  lam := fun _ => none
  lastMargin := ⊤
  lastKmax := 0

/-- One request with two drafts. -/
def onePair : SchedulerOutput ℕ where
  scheduledSpecDecodeTokens := [(0, [5, 6])]
  numScheduledTokens := [(0, 3)]
  totalNumScheduledTokens := 3
  hasStructuredOutputRequests := false
  distinct_spec := by decide
  distinct_scheduled := by decide

/-- Its draft with one confidence throughout. -/
def drafted (confidence : ℚ) : Call ℕ ℚ := .propose ⟨false, 2, [(0, [confidence, confidence])]⟩

/-- A step with a gate. -/
def executed : Call ℕ ℚ := .execute ⟨false, onePair, 1 / 100, false⟩

/-- The second step is gated, and another draft follows. -/
def gatedCalls : List (Call ℕ ℚ) := [drafted 1, executed, drafted 2, executed, drafted (-1)]

/-- `gate_transparent` at a run with a draft that still waits for its score. -/
theorem gate_transparent_late :
    ((drivenRuns eager).run (drivenRuns eager).initial gatedCalls).gated.unscored.isSome ∧
      ((drivenRuns eager).run (drivenRuns eager).initial gatedCalls).gated.scoreUnscored.calls =
        ((drivenRuns eager).run (drivenRuns eager).initial gatedCalls).plain.calls :=
  ⟨by decide +kernel, (gate_transparent eager
    (Reachable.initial.run gatedCalls (by decide +kernel))).2.1⟩

/-- Three drafts in a row after a gated step reuse the slot of the waiting one: the late score is
made on other rows than without a gate. -/
theorem overwritten_slot :
    ¬ ∀ twins, Reachable (twinRuns (ρ := ℕ) eager) twins →
      twins.gated.scoreUnscored.calls = twins.plain.calls := by
  intro same
  have overwritten := same _ (Reachable.initial.run (gatedCalls ++ [drafted (-2), drafted (-3)])
    (by decide +kernel))
  revert overwritten
  decide +kernel

end Results

end GlmSpark.GatedTruncation
