import GlmSpark.Collectives

/-!
# Setting up the RoCE collectives

`GlmRoceAllReduce.__init__` of `adapter.py` runs on every rank. It probes whether all
ranks share a node, votes with this rank's capability and size limits, constructs the
runtime, prepares it, and gathers the errors. In between a rank may find that it cannot
take part; it says so in the next exchange and leaves only on a verdict all ranks share.

What a host answers locally, the probe and the runtime's own constructor, which raises
on all ranks or on none, are parameters. An exception is its text.
-/

namespace GlmSpark.RoceSetup

open Collectives Runs

/-- All-reduce and all-gather size limits. -/
abbrev Limits : Type := ℤ × ℤ

/-- `PACK_BYTES`. -/
def packBytes : ℤ := 16

/-- `REQUIRED_B12X_ROCE_API_VERSION`. -/
def requiredApiVersion : ℤ := 1

/-- What one rank finds on its host. -/
structure Host where
  /-- `_import_roce` and the module's `API_VERSION`. -/
  importRoce : Except String (Option ℤ)
  /-- `roce.is_supported`. -/
  isSupported : Except String Bool
  /-- `_parse_byte_size` of `GLM_ROCE_MAX_SIZE`. -/
  maxSize : Except String ℤ
  /-- `_parse_byte_size` of `GLM_ROCE_GATHER_MAX_SIZE`. -/
  maxGather : Except String ℤ
  /-- What `prepare` raises, if it does. -/
  prepare : Option String

/-- All ranks, and what they find together. -/
structure Fleet where
  worldSize : ℕ
  hosts : Fin worldSize → Host
  /-- `device_group is not None`. -/
  deviceGroup : Bool
  /-- `require_enabled`. -/
  required : Bool
  /-- `_in_the_same_node_as`, the same on every rank. -/
  sameNode : List Bool
  /-- What the collective constructor raises on the ranks, if it does. -/
  construct : (Fin worldSize → Limits) → Option (Fin worldSize → String)
  /-- There is a rank. -/
  worldPos : 0 < worldSize

/-- `read_limits`. -/
def readLimits (host : Host) : Except String Limits := do
  let maxSize ← host.maxSize
  let maxGather ← host.maxGather
  if maxSize < packBytes ∨ maxSize % packBytes ≠ 0 then
    .error s!"GLM_ROCE_MAX_SIZE={maxSize} must be a positive multiple of 16 bytes"
  else if maxGather < 0 ∨ maxGather % packBytes ≠ 0 then
    .error s!"GLM_ROCE_GATHER_MAX_SIZE={maxGather} must be 0 or a multiple of 16 bytes"
  else .ok (maxSize, maxGather)

/-- An optional number as Python prints it. -/
def showApi : Option ℤ → String
  | none => "None"
  | some api => toString api

/-- Optional limits as Python prints them. -/
def showLimits : Option Limits → String
  | none => "None"
  | some (maxSize, maxGather) => s!"({maxSize}, {maxGather})"

/-- `_local_capability`: the limits this rank's installation offers, or why it has none. -/
def localCapability (host : Host) : Option String × Option Limits :=
  match host.importRoce with
  | .error exc => (some s!"b12x.comm.roce is not importable: {exc}", none)
  | .ok api =>
    if api ≠ some requiredApiVersion then
      let found := showApi api
      (some s!"b12x.comm.roce API version {found}, adapter needs {requiredApiVersion}", none)
    else match host.isSupported with
      | .error exc => (some s!"b12x.comm.roce.is_supported raised: {exc}", none)
      | .ok false => (some "needs an integrated GPU with an active RDMA device", none)
      | .ok true =>
        match readLimits host with
        | .error exc => (some s!"invalid RoCEnante size limit: {exc}", none)
        | .ok limits => (none, some limits)

/-- Whether an optional text counts as true. -/
def truthy : Option String → Bool
  | none => false
  | some text => !text.isEmpty

/-- The true ones of gathered texts. -/
def present (texts : List (Option String)) : List String :=
  (texts.filter truthy).filterMap id

/-- What `_exchange_vote` makes of the gathered votes. -/
def exchangeVote (votes : List (Option String × Option Limits)) : Option String :=
  let failures := votes.zipIdx.filterMap fun ((reason, _), i) =>
    reason.bind fun r => if truthy reason then some s!"rank {i}: {r}" else none
  if failures ≠ [] then some ("; ".intercalate failures)
  else
    let reference := (votes.head?.map Prod.snd).join
    let differing := votes.zipIdx.filterMap fun ((_, lim), i) =>
      if lim ≠ reference then some (s!"rank {i}: " ++ showLimits lim) else none
    if differing ≠ [] then
      some ("size limits differ across ranks (rank 0: " ++ showLimits reference ++ "; " ++
        "; ".intercalate differing ++ ")")
    else none

/-- The collectives of the setup. -/
inductive Collective
  | sameNode
  | votes
  | construct
  | errors
  deriving DecidableEq, Repr

/-- What a rank gives to a collective. -/
def Give : Collective → Type
  | .sameNode => Unit
  | .votes => Option String × Option Limits
  | .construct => Limits
  | .errors => Option String

/-- What a rank gets out of it. -/
def Get : Collective → Type
  | .sameNode => List Bool
  | .votes => List (Option String × Option Limits)
  | .construct => Except String Unit
  | .errors => List (Option String)

/-- The adapter's fields when `__init__` ends, how many runtimes are open, and what it raises. -/
structure Adapter where
  disabled : Bool
  maxSize : ℤ
  maxGather : ℤ
  runtime : Option Limits
  verdict : Option String
  live : ℕ
  raised : Option String
  deriving DecidableEq, Repr

/-- The fields `__init__` starts with. -/
def Adapter.fresh : Adapter := ⟨true, 0, 0, none, none, 0, none⟩

/-- `_give_up`: the verdict is recorded and the adapter disabled; where RoCE is required it raises.
-/
def Adapter.giveUp (required : Bool) (adapter : Adapter) (why : String) : Adapter :=
  { adapter with
    verdict := some why
    disabled := true
    raised :=
      if required then
        some (s!"GLM_ROCE_ALLREDUCE=1 but RoCEnante is {why} " ++
          "(set GLM_ROCE_REQUIRE=0 to serve on NCCL instead)")
      else none }

/-- An adapter's program. -/
abbrev Setup : Type := Program Give Get Adapter

/-- `__init__` after the errors are gathered: any rank's error makes every rank give up. -/
def afterErrors (required : Bool) (limits : Limits) (adapter : Adapter)
    (gathered : List (Option String)) : Adapter :=
  let errors := present gathered
  if errors ≠ [] then
    -- `close` ends an open runtime.
    let closed :=
      if adapter.runtime ≠ none then { adapter with runtime := none, live := adapter.live - 1 }
      else adapter
    closed.giveUp required ("initialization failed: " ++ "; ".intercalate errors)
  else { adapter with maxSize := limits.1, maxGather := limits.2, disabled := false }

/-- `__init__` after the constructor: `prepare`, then the errors are gathered. -/
def afterConstruct (required : Bool) (rank : ℕ) (host : Host) (limits : Limits)
    (built : Except String Unit) : Setup :=
  match built with
  | .error exc =>
    .collective .errors (some s!"rank {rank}: {exc}")
      fun gathered => .done (afterErrors required limits .fresh gathered)
  | .ok _ =>
    .collective .errors (host.prepare.map fun exc => s!"rank {rank}: {exc}") fun gathered =>
      .done (afterErrors required limits { Adapter.fresh with runtime := some limits, live := 1 }
        gathered)

/-- `__init__` after the votes are gathered: equal limits on all ranks, or nobody constructs a
runtime. -/
def afterVotes (required : Bool) (rank : ℕ) (host : Host) (limits : Option Limits)
    (votes : List (Option String × Option Limits)) : Setup :=
  match exchangeVote votes with
  | some verdict => .done (Adapter.fresh.giveUp required s!"disabled on every rank: {verdict}")
  | none =>
    match limits, host.importRoce with
    | none, _ =>
      .done { Adapter.fresh with raised := some "cannot unpack non-iterable NoneType object" }
    | some _, .error exc => .done { Adapter.fresh with raised := some exc }
    | some limits, .ok _ =>
      .collective .construct limits (afterConstruct required rank host limits)

/-- `__init__` after the probe: ranks on one node have no use for RoCE. -/
def afterProbe (required : Bool) (rank : ℕ) (host : Host) (sameNode : List Bool) : Setup :=
  if sameNode.all id then .done .fresh
  else .collective .votes (localCapability host)
    (afterVotes required rank host (localCapability host).2)

/-- `__init__`. -/
def init (deviceGroup required : Bool) (rank : ℕ) (host : Host) : Setup :=
  if deviceGroup = false then
    .done (Adapter.fresh.giveUp required "RoCEnante requires a CUDA process group")
  else .collective .sameNode () (afterProbe required rank host)

namespace Fleet

variable (fleet : Fleet)

/-- What the constructor ends with on a rank. -/
def build (limits : Fin fleet.worldSize → Limits) (rank : Fin fleet.worldSize) :
    Except String Unit :=
  match fleet.construct limits with
  | none => .ok ()
  | some raises => .error (raises rank)

/-- What the collectives answer: gathers list what the ranks gave in order. -/
def answer : (kind : Collective) → (Fin fleet.worldSize → Give kind) → Fin fleet.worldSize →
    Get kind
  | .sameNode, _, _ => fleet.sameNode
  | .votes, votes, _ => List.ofFn votes
  | .construct, limits, rank => fleet.build limits rank
  | .errors, errors, _ => List.ofFn errors

/-- Every rank's program. -/
def programs (rank : Fin fleet.worldSize) : Setup :=
  init fleet.deviceGroup fleet.required rank (fleet.hosts rank)

/-- The ranks set up in any order. -/
def setup : System (Fin fleet.worldSize → Place Give Get Adapter)
    (Event (Fin fleet.worldSize) Give Get Adapter) :=
  spmd fleet.answer fleet.programs

end Fleet

section Votes

/-- A rank that cannot take part has a reason; one that can has limits and the module. -/
theorem localCapability_cases (host : Host) :
    (∃ reason, truthy (some reason) = true ∧ localCapability host = (some reason, none)) ∨
      ∃ limits api, localCapability host = (none, some limits) ∧ host.importRoce = .ok api := by
  rw [localCapability]
  cases host.importRoce with
  | error exc => exact Or.inl ⟨_, by simp [truthy, toString], rfl⟩
  | ok api =>
    dsimp only
    split
    next => exact Or.inl ⟨_, by simp [truthy, toString], rfl⟩
    next =>
      cases host.isSupported with
      | error exc => exact Or.inl ⟨_, by simp [truthy, toString], rfl⟩
      | ok supported =>
        cases supported with
        | false => exact Or.inl ⟨_, by simp [truthy], rfl⟩
        | true =>
          cases readLimits host with
          | error exc => exact Or.inl ⟨_, by simp [truthy, toString], rfl⟩
          | ok limits => exact Or.inr ⟨limits, api, rfl, rfl⟩

/-- The vote passes when no rank gave a reason and all gave the limits of the first. -/
theorem exchangeVote_eq_none (votes : List (Option String × Option Limits)) :
    exchangeVote votes = none ↔
      ∀ vote ∈ votes, truthy vote.1 = false ∧ vote.2 = (votes.head?.map Prod.snd).join := by
  have listed : ∀ vote ∈ votes, ∃ i, (vote, i) ∈ votes.zipIdx := by
    intro vote member
    obtain ⟨i, here⟩ := List.getElem?_of_mem member
    exact ⟨i, List.mk_mem_zipIdx_iff_getElem?.mpr here⟩
  have failures : votes.zipIdx.filterMap (fun ((reason, _), i) =>
        reason.bind fun r => if truthy reason then some s!"rank {i}: {r}" else none) = [] ↔
      ∀ vote ∈ votes, truthy vote.1 = false := by
    rw [List.filterMap_eq_nil_iff]
    constructor
    · intro none vote member
      obtain ⟨i, here⟩ := listed vote member
      have passed := none _ here
      obtain ⟨reason, limits⟩ := vote
      cases reason with
      | none => rfl
      | some r => simpa using passed
    · rintro quiet ⟨⟨reason, limits⟩, i⟩ here
      have silent := quiet _ (List.fst_mem_of_mem_zipIdx here)
      cases reason with
      | none => rfl
      | some r => simpa using silent
  have differing : votes.zipIdx.filterMap (fun ((_, lim), i) =>
        if lim ≠ (votes.head?.map Prod.snd).join then some (s!"rank {i}: " ++ showLimits lim)
        else none) = [] ↔
      ∀ vote ∈ votes, vote.2 = (votes.head?.map Prod.snd).join := by
    rw [List.filterMap_eq_nil_iff]
    constructor
    · intro none vote member
      obtain ⟨i, here⟩ := listed vote member
      simpa using none _ here
    · rintro same ⟨vote, i⟩ here
      have equal := same vote (List.fst_mem_of_mem_zipIdx here)
      simp [equal]
  rw [exchangeVote]
  dsimp only
  split
  next failed =>
    constructor
    · exact fun none => nomatch none
    · exact fun all => absurd (failures.mpr fun vote member => (all vote member).1) failed
  next passed =>
    have quiet := failures.mp (of_not_not passed)
    split
    next apart =>
      constructor
      · exact fun none => nomatch none
      · exact fun all => absurd (differing.mpr fun vote member => (all vote member).2) apart
    next equal =>
      have same := differing.mp (of_not_not equal)
      exact ⟨fun _ vote member => ⟨quiet vote member, same vote member⟩, fun _ => rfl⟩

/-- No error is gathered when no rank gave one. -/
theorem present_eq_nil (texts : List (Option String)) :
    present texts = [] ↔ ∀ text ∈ texts, truthy text = false := by
  rw [present, List.filterMap_eq_nil_iff]
  constructor
  · intro none text listed
    by_contra reported
    have kept : text ∈ texts.filter truthy :=
      List.mem_filter.mpr ⟨listed, Bool.of_not_eq_false reported⟩
    cases text with
    | none => exact reported rfl
    | some error => exact nomatch none (some error) kept
  · intro quiet text kept
    obtain ⟨listed, reported⟩ := List.mem_filter.mp kept
    rw [quiet text listed] at reported
    exact nomatch reported

end Votes

section Agreement

/-- Enabled with these limits and one open runtime. -/
def Adapter.enabled (limits : Limits) : Adapter :=
  ⟨false, limits.1, limits.2, some limits, none, 1, none⟩

variable (fleet : Fleet)

/-- Several nodes, every rank capable with the same limits, and nothing fails. -/
structure Ready (limits : Limits) : Prop where
  group : fleet.deviceGroup = true
  nodes : fleet.sameNode.all id = false
  capable : ∀ rank, localCapability (fleet.hosts rank) = (none, some limits)
  constructed : fleet.construct (fun _ => limits) = none
  prepared : ∀ rank, (fleet.hosts rank).prepare = none

/-- What all ranks end with: enabled where the fleet is ready, otherwise disabled and closed. -/
def Agreed (outcome : Adapter) : Prop :=
  (∃ limits, Ready fleet limits ∧ outcome = .enabled limits) ∨
    (∀ limits, ¬ Ready fleet limits) ∧ outcome.disabled = true ∧ outcome.runtime = none ∧
      outcome.live = 0

/-- The vote passes when every rank is capable with one and the same limits. -/
theorem vote_passes : exchangeVote (List.ofFn fun rank => localCapability (fleet.hosts rank)) = none ↔
    ∃ limits, ∀ rank, localCapability (fleet.hosts rank) = (none, some limits) := by
  rw [exchangeVote_eq_none]
  have listed : ∀ rank, localCapability (fleet.hosts rank) ∈
      List.ofFn fun rank => localCapability (fleet.hosts rank) :=
    fun rank => (List.mem_ofFn' _ _).mpr ⟨rank, rfl⟩
  constructor
  · intro passed
    obtain ⟨reason, given, silent⟩ | ⟨limits, api, first, _⟩ :=
      localCapability_cases (fleet.hosts ⟨0, fleet.worldPos⟩)
    · have quiet := (passed _ (listed ⟨0, fleet.worldPos⟩)).1
      rw [silent, given] at quiet
      exact nomatch quiet
    · refine ⟨limits, fun rank => ?_⟩
      obtain ⟨quiet, same⟩ := passed _ (listed rank)
      have agreed := (passed _ (listed ⟨0, fleet.worldPos⟩)).2
      rw [← agreed, first] at same
      obtain ⟨reason, given, silent⟩ | ⟨limits', api', capable, _⟩ :=
        localCapability_cases (fleet.hosts rank)
      · rw [silent, given] at quiet
        exact nomatch quiet
      · rw [capable] at same ⊢
        exact congrArg (Prod.mk none) same
  · rintro ⟨limits, capable⟩ vote member
    obtain ⟨rank, rfl⟩ := (List.mem_ofFn' _ _).mp member
    have head : ((List.ofFn fun rank => localCapability (fleet.hosts rank)).head?.map
        Prod.snd).join = some limits := by
      rw [List.head?_eq_getElem?, List.getElem?_ofFn, dif_pos fleet.worldPos, capable]
      rfl
    dsimp only
    rw [head, capable rank]
    exact ⟨rfl, rfl⟩

/-- The last exchange ends all ranks alike. -/
theorem errors_settle (limits : Limits) (adapter : Adapter)
    (errors : Fin fleet.worldSize → Option String) :
    Settles fleet.answer (fun rank => (.collective .errors (errors rank) fun gathered =>
        .done (afterErrors fleet.required limits adapter gathered) : Setup)) [.errors]
      fun _ => afterErrors fleet.required limits adapter (List.ofFn errors) := by
  refine Settles.round Collective.errors errors
    (fun _ (gathered : Get .errors) =>
      (.done (afterErrors fleet.required limits adapter gathered) : Setup)) ?_
  exact Settles.done fun _ => afterErrors fleet.required limits adapter (List.ofFn errors)

/-- A reported error disables an adapter and closes its runtime. -/
theorem afterErrors_failed (required : Bool) (limits : Limits) (adapter : Adapter)
    (gathered : List (Option String)) (failed : present gathered ≠ [])
    (opened : adapter.runtime = none ∧ adapter.live = 0 ∨
      adapter.runtime ≠ none ∧ adapter.live = 1) :
    (afterErrors required limits adapter gathered).disabled = true ∧
      (afterErrors required limits adapter gathered).runtime = none ∧
      (afterErrors required limits adapter gathered).live = 0 := by
  rw [afterErrors]
  dsimp only
  rw [if_pos failed]
  rcases opened with ⟨closed, none⟩ | ⟨built, one⟩
  · rw [if_neg (not_not.mpr closed)]
    exact ⟨rfl, closed, none⟩
  · rw [if_pos built]
    exact ⟨rfl, rfl, by simp [Adapter.giveUp, one]⟩

/-- After a passed vote the ranks construct, report and agree. -/
theorem construct_settles (limits : Limits) (group : fleet.deviceGroup = true)
    (nodes : fleet.sameNode.all id = false)
    (capable : ∀ rank, localCapability (fleet.hosts rank) = (none, some limits)) :
    ∃ outcome, Agreed fleet outcome ∧
      Settles fleet.answer (fun rank => (.collective .construct limits
        (afterConstruct fleet.required rank (fleet.hosts rank) limits) : Setup))
        [.construct, .errors] fun _ => outcome := by
  have same : ∀ limits', Ready fleet limits' → limits' = limits := by
    intro limits' ready
    have both := (ready.capable ⟨0, fleet.worldPos⟩).symm.trans (capable ⟨0, fleet.worldPos⟩)
    exact Option.some.inj (Prod.mk.inj both).2
  have some_ : ∀ errors : Fin fleet.worldSize → Option String, ∀ rank,
      truthy (errors rank) = true → present (List.ofFn errors) ≠ [] := by
    intro errors rank reported none
    have quiet := (present_eq_nil _).mp none _ ((List.mem_ofFn' _ _).mpr ⟨rank, rfl⟩)
    rw [reported] at quiet
    exact nomatch quiet
  cases built : fleet.construct fun _ => limits with
  | some raises =>
    -- The constructor raised on all ranks; nothing is open.
    let errors : Fin fleet.worldSize → Option String := fun rank =>
      some s!"rank {rank.val}: {raises rank}"
    refine ⟨afterErrors fleet.required limits .fresh (List.ofFn errors), Or.inr ⟨?_, ?_⟩, ?_⟩
    · intro limits' ready
      have constructed := ready.constructed
      rw [same limits' ready, built] at constructed
      exact nomatch constructed
    · refine afterErrors_failed _ _ _ _ ?_ (Or.inl ⟨rfl, rfl⟩)
      exact some_ errors ⟨0, fleet.worldPos⟩ (by simp [errors, truthy, toString])
    · refine Settles.round Collective.construct _ _ ?_
      have raised : ∀ rank, fleet.build (fun _ => limits) rank = .error (raises rank) := by
        intro rank
        rw [Fleet.build, built]
      simp only [Fleet.answer, raised, afterConstruct]
      exact errors_settle fleet limits .fresh errors
  | none =>
    let adapter : Adapter := { Adapter.fresh with runtime := some limits, live := 1 }
    let errors : Fin fleet.worldSize → Option String := fun rank =>
      (fleet.hosts rank).prepare.map fun exc => s!"rank {rank.val}: {exc}"
    refine ⟨afterErrors fleet.required limits adapter (List.ofFn errors), ?_, ?_⟩
    · by_cases prepared : ∀ rank, (fleet.hosts rank).prepare = none
      · left
        refine ⟨limits, ⟨group, nodes, capable, built, prepared⟩, ?_⟩
        have none : present (List.ofFn errors) = [] := by
          rw [present_eq_nil]
          intro text listed
          obtain ⟨rank, rfl⟩ := (List.mem_ofFn' _ _).mp listed
          simp only [errors, prepared rank, Option.map_none, truthy]
        rw [afterErrors]
        dsimp only
        rw [if_neg (not_not.mpr none)]
        rfl
      · right
        obtain ⟨rank, raised⟩ := not_forall.mp prepared
        obtain ⟨exc, raises⟩ := Option.ne_none_iff_exists'.mp raised
        refine ⟨fun limits' ready => raised (ready.prepared rank), ?_⟩
        refine afterErrors_failed _ _ _ _ ?_ (Or.inr ⟨Option.some_ne_none _, rfl⟩)
        exact some_ errors rank (by simp [errors, raises, truthy, toString])
    · refine Settles.round Collective.construct _ _ ?_
      have ok : ∀ rank, fleet.build (fun _ => limits) rank = .ok () := by
        intro rank
        rw [Fleet.build, built]
      simp only [Fleet.answer, ok, afterConstruct]
      exact errors_settle fleet limits adapter errors

/-- After the probe of several nodes the ranks vote. -/
theorem votes_settle (group : fleet.deviceGroup = true) (nodes : fleet.sameNode.all id = false) :
    ∃ log outcome, Agreed fleet outcome ∧
      Settles fleet.answer (fun rank => (.collective .votes (localCapability (fleet.hosts rank))
        (afterVotes fleet.required rank (fleet.hosts rank)
          (localCapability (fleet.hosts rank)).2) : Setup)) log fun _ => outcome := by
  cases vote : exchangeVote (List.ofFn fun rank => localCapability (fleet.hosts rank)) with
  | some verdict =>
    refine ⟨[.votes], Adapter.fresh.giveUp fleet.required s!"disabled on every rank: {verdict}",
      Or.inr ⟨fun limits ready => ?_, rfl, rfl, rfl⟩, ?_⟩
    · rw [(vote_passes fleet).mpr ⟨limits, ready.capable⟩] at vote
      exact nomatch vote
    · refine Settles.round Collective.votes _ _ ?_
      simp only [Fleet.answer, afterVotes, vote]
      exact Settles.done _
  | none =>
    obtain ⟨limits, capable⟩ := (vote_passes fleet).mp vote
    obtain ⟨outcome, agreed, settles⟩ := construct_settles fleet limits group nodes capable
    refine ⟨[.votes, .construct, .errors], outcome, agreed,
      Settles.round Collective.votes _ _ ?_⟩
    -- Every rank has its limits, and imports the module again.
    have onward : ∀ rank : Fin fleet.worldSize, afterVotes fleet.required rank (fleet.hosts rank)
        (localCapability (fleet.hosts rank)).2
        (List.ofFn fun rank => localCapability (fleet.hosts rank)) =
        .collective .construct limits
          (afterConstruct fleet.required rank (fleet.hosts rank) limits) := by
      intro rank
      obtain ⟨reason, _, silent⟩ | ⟨_, api, _, imported⟩ :=
        localCapability_cases (fleet.hosts rank)
      · rw [capable rank] at silent
        exact nomatch silent
      · unfold afterVotes
        rw [vote, capable rank, imported]
    simp only [Fleet.answer, onward]
    exact settles

/-- The setup settles, and all ranks end alike. -/
theorem setup_settles : ∃ log outcome, Agreed fleet outcome ∧
    Settles fleet.answer fleet.programs log fun _ => outcome := by
  cases group : fleet.deviceGroup with
  | false =>
    have programs : fleet.programs = fun _ => .done (Adapter.fresh.giveUp fleet.required
        "RoCEnante requires a CUDA process group") := by
      funext rank
      rw [Fleet.programs, init, if_pos group]
    refine ⟨[], _, Or.inr ⟨fun limits ready => ?_, rfl, rfl, rfl⟩, programs ▸ Settles.done _⟩
    rw [ready.group] at group
    exact nomatch group
  | true =>
    have programs : fleet.programs = fun rank => .collective .sameNode ()
        (afterProbe fleet.required rank (fleet.hosts rank)) := by
      funext rank
      rw [Fleet.programs, init, group, if_neg Bool.noConfusion]
    rw [programs]
    cases nodes : fleet.sameNode.all id with
    | true =>
      refine ⟨[.sameNode], .fresh, Or.inr ⟨fun limits ready => ?_, rfl, rfl, rfl⟩, ?_⟩
      · rw [ready.nodes] at nodes
        exact nomatch nodes
      · refine Settles.round Collective.sameNode _ _ ?_
        simp only [Fleet.answer, afterProbe, nodes, if_true]
        exact Settles.done _
    | false =>
      obtain ⟨log, outcome, agreed, settles⟩ := votes_settle fleet group nodes
      refine ⟨.sameNode :: log, outcome, agreed, Settles.round Collective.sameNode _ _ ?_⟩
      simp only [Fleet.answer, afterProbe, nodes, Bool.false_eq_true, if_false]
      exact settles

end Agreement

/-- In whatever order the ranks run: all enter the same collectives, no rank is left waiting, and
all end alike, enabled with the same limits and their runtime open exactly when every rank was
capable with these limits and nothing failed, and else disabled with the runtime closed. -/
theorem setup_agreement (fleet : Fleet) : ∃ log outcome,
    (∀ places, Reachable fleet.setup places →
      (∀ rank, (places rank).log <+: log ∧ ∀ adapter, (places rank).program = .done adapter →
        (places rank).log = log ∧ adapter = outcome) ∧
      ((∀ rank, ∃ adapter, (places rank).program = .done adapter) ∨
        ∃ event, fleet.setup.allowed places event)) ∧
    (∀ events, fleet.setup.Permits fleet.setup.initial events →
      events.length ≤ log.length * (fleet.worldSize + 1)) ∧
    ((∃ limits, Ready fleet limits ∧ outcome = .enabled limits) ∨
      (∀ limits, ¬ Ready fleet limits) ∧ outcome.disabled = true ∧ outcome.runtime = none ∧
        outcome.live = 0) := by
  obtain ⟨log, outcome, agreed, settles⟩ := setup_settles fleet
  have someone : Nonempty (Fin fleet.worldSize) := ⟨⟨0, fleet.worldPos⟩⟩
  refine ⟨log, outcome, fun places reachable => ?_, fun events permitted => ?_, agreed⟩
  · obtain ⟨past, rest, rounds, fits⟩ := settles.reachable reachable
    exact ⟨fun rank => rounds ▸ fits.place rank, fits.progress⟩
  · have bound := settles.fits.length_le events permitted
    rw [Fintype.card_fin] at bound
    omega

/-- A host that can take part, with limits of 4 and 16 MiB. -/
def capableHost : Host := ⟨.ok (some 1), .ok true, .ok 4194304, .ok 16777216, none⟩

/-- Two hosts on two nodes. -/
def twoHosts (hosts : Fin 2 → Host) : Fleet where
  worldSize := 2
  hosts := hosts
  deviceGroup := true
  required := true
  sameNode := [true, false]
  construct _ := none
  worldPos := by decide

example : Ready (twoHosts fun _ => capableHost) (4194304, 16777216) :=
  ⟨rfl, rfl, fun _ => rfl, rfl, fun _ => rfl⟩

end GlmSpark.RoceSetup
