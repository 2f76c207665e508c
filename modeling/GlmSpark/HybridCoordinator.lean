import GlmSpark.Blocks
import Mathlib.Data.List.Basic

/-!
# The hybrid prefix-cache lookup

The coordinator groups its KV cache groups by spec, full attention first, and
reconciles their prefix-cache hits: every group accepts the candidate length or
reduces it, and rounds repeat until no group reduces it. Full-attention groups are
looked up once and only trimmed afterwards. A draft sliding-window group never
reduces the candidate; when its own hit is shorter, its lookup is dropped.

The lookup of one group is code outside the repository. It enters as a finder,
which answers a call with an aligned hit and block lists that cover it. Answers may
depend on the round, so a finder may change its mind between rounds.
-/

namespace GlmSpark.HybridCoordinator

open Blocks

universe u

/-- What the coordinator distinguishes in a spec's type. A draft group is exactly of
the sliding-window type, bare or as the first spec of a uniform group. -/
inductive SpecKind where
  | fullAttention
  | mamba
  | slidingWindow
  | other
deriving DecidableEq, Repr

/-- A KV cache spec. Specs are compared as a whole; `fields` stands for the fields that
only this comparison reads. -/
structure KVCacheSpec where
  kind : SpecKind
  blockSize : Nat
  mambaAlign : Bool
  participatesInPrefixCaching : Bool
  fields : Nat
deriving DecidableEq, Repr

/-- The manager a spec gets. Its block size exceeds the spec's under context
parallelism. -/
structure Manager where
  blockSize : Nat
  supportsFineGrainedHashLookup : Bool
deriving DecidableEq, Repr

/-- A KV cache group as the coordinator reads it: the spec its layers share, and whether the
drafter's layers are in it. -/
structure KVCacheGroup where
  spec : KVCacheSpec
  isEagleGroup : Bool
deriving DecidableEq, Repr

/-- What the constructor is given: the groups with their specs and managers, and the block sizes. -/
structure Config where
  kvCacheGroups : List KVCacheGroup
  useEagle : Bool
  schedulerBlockSize : Nat
  hashBlockSize : Nat
  dcpWorldSize : Nat
  manager : KVCacheSpec → Manager

/-- Groups of one spec; `groupIds` index the KV cache groups. -/
structure SpecGroup where
  spec : KVCacheSpec
  groupIds : List Nat
  useEagle : Bool
deriving DecidableEq, Repr

/-- `isinstance(spec, FullAttentionSpec)`. -/
def KVCacheSpec.isFull (spec : KVCacheSpec) : Bool := decide (spec.kind = .fullAttention)

/-- `_glm53_is_draft_swa_spec`. -/
def KVCacheSpec.isDraftSwa (spec : KVCacheSpec) : Bool := decide (spec.kind = .slidingWindow)

namespace Config

variable (config : Config)

/-- The flagged eagle groups, else the draft groups, else all groups. -/
def eagleGroupIds : List Nat :=
  let flagged := (config.kvCacheGroups.zipIdx.filter fun entry => entry.1.isEagleGroup).map Prod.snd
  if config.useEagle && flagged.isEmpty then
    let draftSwaIds :=
      (config.kvCacheGroups.zipIdx.filter fun entry => entry.1.spec.isDraftSwa).map Prod.snd
    if draftSwaIds.isEmpty then List.range config.kvCacheGroups.length else draftSwaIds
  else flagged

/-- Whether hits may end inside a block, at a hash block. -/
def enablePartialHashHits : Bool :=
  let hasPartialMambaGroup := config.kvCacheGroups.any fun group =>
    group.spec.kind = .mamba && group.spec.mambaAlign &&
      decide (group.spec.blockSize > config.hashBlockSize)
  let unsupported := config.kvCacheGroups.any fun group =>
    !(config.manager group.spec).supportsFineGrainedHashLookup &&
      (config.manager group.spec).blockSize != config.hashBlockSize
  decide (config.dcpWorldSize = 1) && hasPartialMambaGroup && !unsupported

/-- `_cache_hit_alignment_tokens`. -/
def cacheHitAlignmentTokens : Nat :=
  if config.enablePartialHashHits then config.hashBlockSize else config.schedulerBlockSize

/-- One group joins the first attention group of its spec, or opens a new one. -/
def addToGroups (i : Nat) (spec : KVCacheSpec) (useEagle : Bool) : List SpecGroup → List SpecGroup
  | [] => [{ spec := spec, groupIds := [i], useEagle := useEagle }]
  | group :: rest =>
    if group.spec = spec then
      { group with groupIds := group.groupIds ++ [i], useEagle := group.useEagle || useEagle } :: rest
    else group :: addToGroups i spec useEagle rest

/-- The attention groups in the order they are met; groups that opt out are left
out. -/
def collectGroups : List SpecGroup :=
  config.kvCacheGroups.zipIdx.foldl (fun groups (g, i) =>
    if g.spec.participatesInPrefixCaching then
      addToGroups i g.spec (decide (i ∈ config.eagleGroupIds)) groups
    else groups) []

/-- `verify_and_split_kv_cache_groups`: the stable sort puts full attention first. -/
def attentionGroups : List SpecGroup :=
  config.collectGroups.filter (fun group => group.spec.isFull) ++
    config.collectGroups.filter (fun group => !group.spec.isFull)

/-- The block size of a group's manager. -/
def groupBlockSize (spec : KVCacheSpec) : Nat := (config.manager spec).blockSize

/-- One full-attention group and one other: one round suffices. -/
def isSimpleHybrid : Bool :=
  config.attentionGroups.length == 2 &&
    (config.attentionGroups.head?.map fun group => group.spec.isFull).getD false

/-- What a lookup that drops the eagle block may match beyond the candidate. -/
def eagleMargin (spec : KVCacheSpec) : Nat :=
  if config.enablePartialHashHits && (config.manager spec).supportsFineGrainedHashLookup &&
      decide (config.groupBlockSize spec > config.hashBlockSize) then
    config.hashBlockSize
  else config.groupBlockSize spec

end Config

/-- A block of the pool. -/
structure KVCacheBlock where
  blockId : Nat
deriving DecidableEq, Repr, Inhabited

/-- A configuration the constructor accepts, with the checks it passed. -/
structure Coordinator extends Config where
  hash_positive : 0 < hashBlockSize
  scheduler_positive : 0 < schedulerBlockSize
  blocks_positive : ∀ group ∈ kvCacheGroups, 0 < (manager group.spec).blockSize
  scheduler_aligned : hashBlockSize ∣ schedulerBlockSize ∧
    ∀ group ∈ kvCacheGroups, group.spec.blockSize ∣ schedulerBlockSize
  hash_aligned : ∀ group ∈ kvCacheGroups, group.spec.participatesInPrefixCaching = true →
    hashBlockSize ∣ (manager group.spec).blockSize
  context_parallel : 1 < dcpWorldSize → ∀ group ∈ kvCacheGroups,
    group.spec.kind = .fullAttention ∨ group.spec.kind = .mamba
  two_groups : 1 < toConfig.attentionGroups.length

/-- A lookup of the attention group `index` in some round. The candidate length is what
the round has agreed on so far; the finder is asked for at most `maxLength`. -/
structure Call where
  round : Nat
  index : Nat
  candidate : Nat
  maxLength : Nat
  dropEagleBlock : Bool

/-- A finder's answer: a block list for each group id, and the hit length. -/
structure Hit (β : Type u) where
  blocks : List (List β)
  length : Nat

/-- The finders of all groups: every answer is an aligned hit of at most the requested
length, of at most the candidate when the eagle block is dropped, and its block lists
cover exactly the hit. -/
structure Finders (config : Config) (β : Type u) where
  find : Call → Hit β
  within : ∀ call, (find call).length ≤ call.maxLength
  drops : ∀ call, call.dropEagleBlock = true → (find call).length ≤ call.candidate
  aligned : ∀ call, config.cacheHitAlignmentTokens ∣ (find call).length
  covers : ∀ call group, config.attentionGroups[call.index]? = some group →
    (find call).blocks.length = group.groupIds.length ∧
      ∀ blocks ∈ (find call).blocks,
        blocks.length = cdiv (find call).length (config.groupBlockSize group.spec)

/-- The local variables of the lookup; `blocks` and `lengths` are the two lists that are
indexed by group id. -/
structure State (β : Type u) where
  currHitLength : Nat
  longestHitLength : Nat
  blocks : Nat → Option (List β)
  lengths : Nat → Nat
  eagleVerified : List Nat

section Lookup

variable {β : Type u} (config : Config) (find : Call → Hit β) (maxCacheHitLength : Nat)

/-- `for group_id, blocks in zip(group_ids, hit_blocks)`: the lists a finder returned go to the
group's members. -/
def store (length : Nat) (state : State β) : List (Nat × List β) → State β
  | [] => state
  | (id, blocks) :: rest =>
    store length { state with
      blocks := fun other => if other = id then some blocks else state.blocks other
      lengths := fun other => if other = id then length else state.lengths other } rest

/-- The group's list and hit length are kept from an earlier lookup. -/
def isCached (group : SpecGroup) (state : State β) : Bool :=
  group.spec.isFull && (state.blocks (group.groupIds.headD 0)).isSome

/-- Whether this lookup applies the eagle drop. -/
def dropsEagle (group : SpecGroup) (index : Nat) (state : State β) : Bool :=
  group.useEagle && !(state.eagleVerified.contains index)

/-- The lookup call of a group in the current state. -/
def callFor (round index : Nat) (group : SpecGroup) (state : State β) : Call :=
  let drop := dropsEagle group index state
  { round := round
    index := index
    candidate := state.currHitLength
    maxLength :=
      if drop && decide (group.spec.kind ≠ .mamba) then
        min (state.currHitLength + config.eagleMargin group.spec) maxCacheHitLength
      else state.currHitLength
    dropEagleBlock := drop }

/-- The body of the loop over the attention groups. -/
def visit (round : Nat) (state : State β) (entry : SpecGroup × Nat) : State β :=
  let (group, index) := entry
  if isCached group state then
    { state with currHitLength := min state.currHitLength (state.lengths (group.groupIds.headD 0)) }
  else
    let hit := find (callFor config maxCacheHitLength round index group state)
    let verified :=
      if dropsEagle group index state then index :: state.eagleVerified
      else if hit.length < state.currHitLength then []
      else state.eagleVerified
    let found := { state with eagleVerified := verified }
    if group.spec.isDraftSwa then
      -- A draft group's shorter hit is dropped; an earlier list of the group stays.
      if hit.length ≥ state.currHitLength then
        store hit.length found (group.groupIds.zip hit.blocks)
      else found
    else
      let taken := store hit.length found (group.groupIds.zip hit.blocks)
      { taken with
        currHitLength := hit.length
        longestHitLength := max state.longestHitLength hit.length }

/-- One pass over all attention groups, full attention first. -/
def runRound (round : Nat) (state : State β) : State β :=
  config.attentionGroups.zipIdx.foldl (visit config find maxCacheHitLength round) state

/-- The state before a round visits group `index`. -/
def beforeVisit (round index : Nat) (state : State β) : State β :=
  (config.attentionGroups.zipIdx.take index).foldl (visit config find maxCacheHitLength round) state

/-- The state right after a round visited group `index`. -/
def afterVisit (round index : Nat) (group : SpecGroup) (state : State β) : State β :=
  visit config find maxCacheHitLength round
    (beforeVisit config find maxCacheHitLength round index state) (group, index)

/-- A round started at a candidate length. -/
def roundFrom (round hitLength : Nat) (state : State β) : State β :=
  runRound config find maxCacheHitLength round { state with currHitLength := hitLength }

/-- The rounds until no group reduces the length; `none` when the fuel runs out. -/
def rounds : Nat → Nat → Nat → State β → Option (Nat × State β)
  | 0, _, _, _ => none
  | fuel + 1, round, hitLength, state =>
    let after := roundFrom config find maxCacheHitLength round hitLength state
    if after.currHitLength ≥ hitLength then some (hitLength, after)
    else if config.isSimpleHybrid then some (after.currHitLength, after)
    else rounds fuel (round + 1) after.currHitLength after

/-- The state before the first round. -/
def initial : State β :=
  { currHitLength := maxCacheHitLength
    longestHitLength := 0
    blocks := fun _ => none
    lengths := fun _ => 0
    eagleVerified := [] }

/-- The lists after trimming the first attention group, if it is full attention. -/
def trimmed (hitLength : Nat) (state : State β) (id : Nat) : Option (List β) :=
  match config.attentionGroups.head? with
  | none => state.blocks id
  | some first =>
    if first.spec.isFull && first.groupIds.contains id then
      (state.blocks id).map (·.take (cdiv hitLength (config.groupBlockSize first.spec)))
    else state.blocks id

/-- What the lookup returns: a block list for every group, the hit length and the uncached
common prefix. -/
structure CacheHit (β : Type u) where
  blocks : List (List β)
  hitLength : Nat
  numUncachedCommonPrefixTokens : Int

/-- The returned tuple; a group without a list gets an empty one. -/
def cacheHit (hitLength : Nat) (state : State β) : CacheHit β where
  blocks := (List.range config.kvCacheGroups.length).map fun id =>
    (trimmed config hitLength state id).getD []
  hitLength := hitLength
  numUncachedCommonPrefixTokens := (state.longestHitLength : Int) - hitLength

/-- `find_longest_cache_hit` with a bound on the number of rounds. -/
def findLongestCacheHit (fuel : Nat) : Option (CacheHit β) :=
  (rounds config find maxCacheHitLength fuel 0 maxCacheHitLength (initial maxCacheHitLength)).map
    fun (hitLength, state) => cacheHit config hitLength state

end Lookup

section Grouping

/-- Where a group of the list after joining comes from. -/
theorem mem_addToGroups (i : Nat) (spec : KVCacheSpec) (useEagle : Bool) (groups : List SpecGroup)
    (group : SpecGroup) (member : group ∈ Config.addToGroups i spec useEagle groups) :
    group ∈ groups ∨ group.spec = spec ∧ (group.groupIds = [i] ∨
      ∃ old ∈ groups, old.spec = spec ∧ group.groupIds = old.groupIds ++ [i]) := by
  induction groups with
  | nil =>
    have opened : group = _ := List.mem_singleton.mp member
    exact Or.inr (by simp [opened])
  | cons first rest ih =>
    unfold Config.addToGroups at member
    split at member
    case isTrue same =>
      rcases List.mem_cons.mp member with joined | later
      · exact Or.inr ⟨by simp [joined, same], Or.inr ⟨first, by simp, same, by simp [joined]⟩⟩
      · exact Or.inl (List.mem_cons_of_mem _ later)
    case isFalse _ =>
      rcases List.mem_cons.mp member with here | later
      · exact Or.inl (by simp [here])
      · rcases ih later with old | ⟨same, ids⟩
        · exact Or.inl (List.mem_cons_of_mem _ old)
        · refine Or.inr ⟨same, ids.imp_right ?_⟩
          rintro ⟨old, there, rest⟩
          exact ⟨old, List.mem_cons_of_mem _ there, rest⟩

/-- Joining keeps every id in a group of its spec and adds the new one. -/
theorem addToGroups_complete (i : Nat) (spec : KVCacheSpec) (useEagle : Bool)
    (groups : List SpecGroup) :
    (∃ group ∈ Config.addToGroups i spec useEagle groups, group.spec = spec ∧
      i ∈ group.groupIds) ∧
    ∀ old ∈ groups, ∃ group ∈ Config.addToGroups i spec useEagle groups, group.spec = old.spec ∧
      ∀ id ∈ old.groupIds, id ∈ group.groupIds := by
  induction groups with
  | nil => simp [Config.addToGroups]
  | cons first rest ih =>
    unfold Config.addToGroups
    split
    case isTrue same =>
      refine ⟨⟨_, List.mem_cons_self, same, by simp⟩, ?_⟩
      intro old member
      rcases List.mem_cons.mp member with rfl | later
      · exact ⟨_, List.mem_cons_self, rfl, fun id there => List.mem_append_left _ there⟩
      · exact ⟨old, List.mem_cons_of_mem _ later, rfl, fun id there => there⟩
    case isFalse _ =>
      obtain ⟨⟨joined, present, same, added⟩, kept⟩ := ih
      refine ⟨⟨joined, List.mem_cons_of_mem _ present, same, added⟩, ?_⟩
      intro old member
      rcases List.mem_cons.mp member with rfl | later
      · exact ⟨old, List.mem_cons_self, rfl, fun id there => there⟩
      · obtain ⟨group, there, rest⟩ := kept old later
        exact ⟨group, List.mem_cons_of_mem _ there, rest⟩

/-- Joining adds no spec but its own. -/
theorem spec_mem_addToGroups (i : Nat) (spec other : KVCacheSpec) (useEagle : Bool)
    (groups : List SpecGroup)
    (member : other ∈ (Config.addToGroups i spec useEagle groups).map SpecGroup.spec) :
    other = spec ∨ other ∈ groups.map SpecGroup.spec := by
  obtain ⟨group, there, rfl⟩ := List.mem_map.mp member
  rcases mem_addToGroups i spec useEagle groups group there with old | ⟨same, _⟩
  · exact Or.inr (List.mem_map_of_mem old)
  · exact Or.inl same

/-- Joining opens at most one group for a spec. -/
theorem addToGroups_specs (i : Nat) (spec : KVCacheSpec) (useEagle : Bool)
    (groups : List SpecGroup) (distinct : (groups.map SpecGroup.spec).Nodup) :
    ((Config.addToGroups i spec useEagle groups).map SpecGroup.spec).Nodup := by
  induction groups with
  | nil => simp [Config.addToGroups]
  | cons first rest ih =>
    obtain ⟨fresh, remaining⟩ := List.nodup_cons.mp distinct
    unfold Config.addToGroups
    split
    case isTrue _ => exact distinct
    case isFalse other =>
      rw [List.map_cons, List.nodup_cons]
      refine ⟨?_, ih remaining⟩
      intro member
      rcases spec_mem_addToGroups i spec first.spec useEagle rest member with same | there
      · exact other same
      · exact fresh there

/-- What grouping has achieved after some KV cache groups: one group for each spec, made
of exactly the ids that have it. -/
structure Grouped (seen : List (KVCacheGroup × Nat)) (groups : List SpecGroup) : Prop where
  distinct : (groups.map SpecGroup.spec).Nodup
  nonempty : ∀ group ∈ groups, group.groupIds ≠ []
  owned : ∀ group ∈ groups, ∀ id ∈ group.groupIds, ∃ entry, (entry, id) ∈ seen ∧
    entry.spec = group.spec ∧ entry.spec.participatesInPrefixCaching = true
  complete : ∀ entry id, (entry, id) ∈ seen → entry.spec.participatesInPrefixCaching = true →
    ∃ group ∈ groups, group.spec = entry.spec ∧ id ∈ group.groupIds

/-- One more KV cache group joins the group of its spec or starts a new one; one that takes no part
in prefix caching is passed over. -/
theorem Grouped.step {seen : List (KVCacheGroup × Nat)} {groups : List SpecGroup}
    (grouped : Grouped seen groups) (entry : KVCacheGroup) (i : Nat) (useEagle : Bool) :
    Grouped (seen ++ [(entry, i)]) (if entry.spec.participatesInPrefixCaching then
      Config.addToGroups i entry.spec useEagle groups else groups) := by
  cases participates : entry.spec.participatesInPrefixCaching with
  | false =>
    refine ⟨grouped.distinct, grouped.nonempty, ?_, ?_⟩
    · intro group member id there
      obtain ⟨owner, listed, known⟩ := grouped.owned group member id there
      exact ⟨owner, List.mem_append_left _ listed, known⟩
    · intro other id member active
      rcases List.mem_append.mp member with old | new
      · exact grouped.complete other id old active
      · obtain ⟨rfl, rfl⟩ := Prod.mk.inj (List.mem_singleton.mp new)
        exact absurd active (by simp [participates])
  | true =>
    obtain ⟨added, kept⟩ := addToGroups_complete i entry.spec useEagle groups
    refine ⟨addToGroups_specs i entry.spec useEagle groups grouped.distinct, ?_, ?_, ?_⟩
    · intro group member
      rcases mem_addToGroups i entry.spec useEagle groups group member with
        old | ⟨_, opened | ⟨old, _, _, joined⟩⟩
      · exact grouped.nonempty group old
      · simp [opened]
      · simp [joined]
    · intro group member id there
      have earlier : ∀ old ∈ groups, id ∈ old.groupIds → ∃ owner,
          (owner, id) ∈ seen ++ [(entry, i)] ∧ owner.spec = old.spec ∧
            owner.spec.participatesInPrefixCaching = true := by
        intro old listed inside
        obtain ⟨owner, found, known⟩ := grouped.owned old listed id inside
        exact ⟨owner, List.mem_append_left _ found, known⟩
      rcases mem_addToGroups i entry.spec useEagle groups group member with
        old | ⟨same, opened | ⟨old, listed, oldSpec, joined⟩⟩
      · exact earlier group old there
      · rw [opened, List.mem_singleton] at there
        exact ⟨entry, by simp [there], same.symm, participates⟩
      · rw [joined, List.mem_append, List.mem_singleton] at there
        rcases there with inside | rfl
        · obtain ⟨owner, found, ownerSpec, active⟩ := earlier old listed inside
          exact ⟨owner, found, ownerSpec.trans (oldSpec.trans same.symm), active⟩
        · exact ⟨entry, by simp, same.symm, participates⟩
    · intro other id member active
      rcases List.mem_append.mp member with old | new
      · obtain ⟨group, listed, same, inside⟩ := grouped.complete other id old active
        obtain ⟨later, present, laterSpec, contains⟩ := kept group listed
        exact ⟨later, present, laterSpec.trans same, contains id inside⟩
      · obtain ⟨rfl, rfl⟩ := Prod.mk.inj (List.mem_singleton.mp new)
        exact added

variable (config : Config)

/-- The coordinator's groups partition the groups that take part in prefix caching by their spec;
each holds the ids of its members. -/
theorem collectGroups_grouped : Grouped config.kvCacheGroups.zipIdx config.collectGroups := by
  have run : ∀ (rest seen : List (KVCacheGroup × Nat)) (groups : List SpecGroup),
      Grouped seen groups → Grouped (seen ++ rest) (rest.foldl (fun groups (g, i) =>
        if g.spec.participatesInPrefixCaching then
          Config.addToGroups i g.spec (decide (i ∈ config.eagleGroupIds)) groups
        else groups) groups) := by
    intro rest
    induction rest with
    | nil =>
      intro seen groups grouped
      simpa using grouped
    | cons entry rest ih =>
      intro seen groups grouped
      have next := ih _ _ (grouped.step entry.1 entry.2 (decide (entry.2 ∈ config.eagleGroupIds)))
      simpa using next
  have start : Grouped [] [] := ⟨by simp, by simp, by simp, by simp⟩
  exact run config.kvCacheGroups.zipIdx [] [] start

/-- Sorting full attention to the front neither drops nor invents a group. -/
theorem mem_attentionGroups (group : SpecGroup) :
    group ∈ config.attentionGroups ↔ group ∈ config.collectGroups := by
  simp only [Config.attentionGroups, List.mem_append, List.mem_filter, ← and_or_left,
    Bool.not_eq_true', Bool.eq_false_or_eq_true, and_true]

/-- No two of the coordinator's groups share a spec, since equal specs were collected into one. -/
theorem attentionGroups_distinct : (config.attentionGroups.map SpecGroup.spec).Nodup := by
  have reordered := (List.filter_append_perm (fun group : SpecGroup => group.spec.isFull)
    config.collectGroups).map SpecGroup.spec
  exact reordered.nodup_iff.mpr (collectGroups_grouped config).distinct

/-- An id is in at most one attention group. -/
theorem attentionGroups_disjoint :
    config.attentionGroups.zipIdx.Pairwise fun early late =>
      ∀ id ∈ early.1.groupIds, id ∉ late.1.groupIds := by
  rw [List.pairwise_iff_getElem]
  intro early late inEarly inLate ordered id there also
  simp only [List.length_zipIdx] at inEarly inLate
  simp only [List.getElem_zipIdx] at there also
  have owner : ∀ (k : Nat) (inside : k < config.attentionGroups.length),
      id ∈ config.attentionGroups[k].groupIds → ∃ entry, config.kvCacheGroups[id]? = some entry ∧
        entry.spec = config.attentionGroups[k].spec := by
    intro k inside member
    have collected := (mem_attentionGroups config _).mp (List.getElem_mem inside)
    obtain ⟨entry, found, same, _⟩ := (collectGroups_grouped config).owned _ collected id member
    exact ⟨entry, List.mk_mem_zipIdx_iff_getElem?.mp found, same⟩
  obtain ⟨entry, found, same⟩ := owner early inEarly there
  obtain ⟨other, alsoFound, alsoSame⟩ := owner late inLate also
  have entries : entry = other := Option.some.inj (found.symm.trans alsoFound)
  have specs : config.attentionGroups[early].spec = config.attentionGroups[late].spec :=
    same.symm.trans (entries ▸ alsoSame)
  have distinct := attentionGroups_distinct config
  rw [List.nodup_iff_pairwise_ne, List.pairwise_map, List.pairwise_iff_getElem] at distinct
  exact distinct early late inEarly inLate ordered specs

/-- Every id that takes part is in the attention group of its spec. -/
theorem attention_group_of (id : Nat) (entry : KVCacheGroup)
    (stored : config.kvCacheGroups[id]? = some entry)
    (active : entry.spec.participatesInPrefixCaching = true) :
    ∃ (index : Nat) (group : SpecGroup), config.attentionGroups[index]? = some group ∧
      group.spec = entry.spec ∧ id ∈ group.groupIds := by
  obtain ⟨group, member, same, inside⟩ := (collectGroups_grouped config).complete entry id
    (List.mk_mem_zipIdx_iff_getElem?.mpr stored) active
  obtain ⟨index, there⟩ := List.mem_iff_getElem?.mp ((mem_attentionGroups config group).mpr member)
  exact ⟨index, group, there, same, inside⟩

/-- Every id of an attention group is a KV cache group of its spec that takes part. -/
theorem spec_of_id (index id : Nat) (group : SpecGroup)
    (there : config.attentionGroups[index]? = some group) (inside : id ∈ group.groupIds) :
    ∃ entry, config.kvCacheGroups[id]? = some entry ∧ entry.spec = group.spec ∧
      entry.spec.participatesInPrefixCaching = true := by
  have collected := (mem_attentionGroups config group).mp (List.mem_of_getElem? there)
  obtain ⟨entry, found, known⟩ := (collectGroups_grouped config).owned group collected id inside
  exact ⟨entry, List.mk_mem_zipIdx_iff_getElem?.mp found, known⟩

/-- Every group of the coordinator has a member, the one it was made for. -/
theorem group_ids_nonempty (index : Nat) (group : SpecGroup)
    (there : config.attentionGroups[index]? = some group) : group.groupIds ≠ [] :=
  (collectGroups_grouped config).nonempty group
    ((mem_attentionGroups config group).mp (List.mem_of_getElem? there))

/-- Full attention comes first in the order of the groups. A group before a full-attention one is
full attention too. -/
theorem full_first (early late : Nat) (first second : SpecGroup)
    (atEarly : config.attentionGroups[early]? = some first)
    (atLate : config.attentionGroups[late]? = some second) (ordered : early ≤ late)
    (full : second.spec.isFull = true) : first.spec.isFull = true := by
  have boundary : late < (config.collectGroups.filter fun group => group.spec.isFull).length := by
    by_contra beyond
    rw [Config.attentionGroups, List.getElem?_append_right (Nat.le_of_not_lt beyond)] at atLate
    have other := (List.mem_filter.mp (List.mem_of_getElem? atLate)).2
    simp [full] at other
  rw [Config.attentionGroups,
    List.getElem?_append_left (Nat.lt_of_le_of_lt ordered boundary)] at atEarly
  exact (List.mem_filter.mp (List.mem_of_getElem? atEarly)).2

end Grouping

section Visits

variable {β : Type u}

/-- Storing touches neither the candidate nor the other variables of the loop. -/
theorem store_curr (length : Nat) (pairs : List (Nat × List β)) (state : State β) :
    (store length state pairs).currHitLength = state.currHitLength := by
  induction pairs generalizing state with
  | nil => rfl
  | cons pair rest ih => exact ih _

/-- Storing leaves the lists of other groups alone. -/
theorem store_other (length id : Nat) (pairs : List (Nat × List β)) (state : State β)
    (outside : id ∉ pairs.map Prod.fst) :
    (store length state pairs).blocks id = state.blocks id ∧
      (store length state pairs).lengths id = state.lengths id := by
  induction pairs generalizing state with
  | nil => exact ⟨rfl, rfl⟩
  | cons pair rest ih =>
    simp only [List.map_cons, List.mem_cons, not_or] at outside
    obtain ⟨blocks, lengths⟩ := ih { state with
      blocks := fun other => if other = pair.1 then some pair.2 else state.blocks other
      lengths := fun other => if other = pair.1 then length else state.lengths other } outside.2
    exact ⟨blocks.trans (if_neg outside.1), lengths.trans (if_neg outside.1)⟩

/-- Storing gives every named id one of the lists. -/
theorem store_member (length id : Nat) (pairs : List (Nat × List β)) (state : State β)
    (inside : id ∈ pairs.map Prod.fst) :
    (∃ blocks ∈ pairs.map Prod.snd, (store length state pairs).blocks id = some blocks) ∧
      (store length state pairs).lengths id = length := by
  induction pairs generalizing state with
  | nil => simp at inside
  | cons pair rest ih =>
    by_cases later : id ∈ rest.map Prod.fst
    · obtain ⟨⟨blocks, listed, stored⟩, lengths⟩ := ih { state with
        blocks := fun other => if other = pair.1 then some pair.2 else state.blocks other
        lengths := fun other => if other = pair.1 then length else state.lengths other } later
      exact ⟨⟨blocks, List.mem_cons_of_mem _ listed, stored⟩, lengths⟩
    · have here : id = pair.1 := by
        rcases List.mem_cons.mp inside with same | there
        · exact same
        · exact absurd there later
      obtain ⟨blocks, lengths⟩ := store_other length id rest { state with
        blocks := fun other => if other = pair.1 then some pair.2 else state.blocks other
        lengths := fun other => if other = pair.1 then length else state.lengths other } later
      exact ⟨⟨pair.2, by simp, blocks.trans (if_pos here)⟩, lengths.trans (if_pos here)⟩

variable (config : Config)

/-- Every id of the group holds blocks that cover exactly `length` tokens. -/
def Holds (state : State β) (group : SpecGroup) (length : Nat) : Prop :=
  ∀ id ∈ group.groupIds, state.lengths id = length ∧ ∃ blocks, state.blocks id = some blocks ∧
    blocks.length = cdiv length (config.groupBlockSize group.spec)

/-- The lists of the ids outside the group are as before. -/
def Frame (group : SpecGroup) (before after : State β) : Prop :=
  ∀ id, id ∉ group.groupIds →
    after.blocks id = before.blocks id ∧ after.lengths id = before.lengths id

/-- Everything a visit can do, given the length its lookup answers: trim the candidate to a
cached full-attention hit, drop a draft group's short lookup, keep it, or take another
group's hit as the candidate. -/
inductive Visited (answer : Nat) (group : SpecGroup) (before after : State β) : Prop where
  | trimmed (cached : isCached group before = true)
      (curr : after.currHitLength =
        min before.currHitLength (before.lengths (group.groupIds.headD 0)))
      (same : after.blocks = before.blocks ∧ after.lengths = before.lengths)
  | dropped (draft : group.spec.isDraftSwa = true) (short : answer < before.currHitLength)
      (curr : after.currHitLength = before.currHitLength)
      (same : after.blocks = before.blocks ∧ after.lengths = before.lengths)
  | kept (draft : group.spec.isDraftSwa = true) (enough : answer = before.currHitLength)
      (curr : after.currHitLength = before.currHitLength)
      (holds : Holds config after group before.currHitLength)
      (frame : Frame group before after)
  | taken (target : group.spec.isDraftSwa = false) (looked : isCached group before = false)
      (lower : answer ≤ before.currHitLength) (curr : after.currHitLength = answer)
      (holds : Holds config after group answer) (frame : Frame group before after)

variable {config}

/-- A finder never answers more than the candidate: without the eagle drop the candidate
is all it is asked for. -/
theorem answer_le_candidate (finders : Finders config β) (maxCacheHitLength round index : Nat)
    (group : SpecGroup) (state : State β) :
    (finders.find (callFor config maxCacheHitLength round index group state)).length ≤
      state.currHitLength := by
  cases drop : dropsEagle group index state with
  | true =>
    exact finders.drops _ (by simpa [callFor] using drop)
  | false =>
    have bound := finders.within (callFor config maxCacheHitLength round index group state)
    simpa [callFor, drop] using bound

/-- What storing a finder's answer leaves behind. -/
theorem store_answer (finders : Finders config β) (call : Call) (group : SpecGroup)
    (there : config.attentionGroups[call.index]? = some group) (state : State β) :
    let after := store (finders.find call).length state
      (group.groupIds.zip (finders.find call).blocks)
    Holds config after group (finders.find call).length ∧ Frame group state after := by
  obtain ⟨sizes, lengths⟩ := finders.covers call group there
  have ids : (group.groupIds.zip (finders.find call).blocks).map Prod.fst = group.groupIds :=
    List.map_fst_zip (Nat.le_of_eq sizes.symm)
  have lists : (group.groupIds.zip (finders.find call).blocks).map Prod.snd =
      (finders.find call).blocks := List.map_snd_zip (Nat.le_of_eq sizes)
  refine ⟨?_, ?_⟩
  · intro id inside
    obtain ⟨⟨blocks, listed, stored⟩, length⟩ :=
      store_member (finders.find call).length id _ state (ids.symm ▸ inside)
    exact ⟨length, blocks, stored, lengths blocks (lists ▸ listed)⟩
  · intro id outside
    exact store_other _ id _ state (ids.symm ▸ outside)

/-- What a group holds at a length it holds at any equal length. -/
theorem Holds.of_eq {state : State β} {group : SpecGroup} {length other : Nat}
    (holds : Holds config state group length) (same : length = other) :
    Holds config state group other :=
  same ▸ holds

/-- A visit does one of these things. -/
theorem visit_visited (finders : Finders config β) (maxCacheHitLength round index : Nat)
    (group : SpecGroup) (there : config.attentionGroups[index]? = some group) (state : State β) :
    Visited config (finders.find (callFor config maxCacheHitLength round index group state)).length
      group state (visit config finders.find maxCacheHitLength round state (group, index)) := by
  have lower := answer_le_candidate finders maxCacheHitLength round index group state
  cases cached : isCached group state with
  | true =>
    simp only [visit, cached, if_true]
    exact Visited.trimmed cached rfl ⟨rfl, rfl⟩
  | false =>
    cases draft : group.spec.isDraftSwa with
    | true =>
      simp only [visit, cached, draft, Bool.false_eq_true, if_false, if_true]
      split
      case isTrue enough =>
        have same := Nat.le_antisymm lower enough
        obtain ⟨holds, frame⟩ := store_answer finders
          (callFor config maxCacheHitLength round index group state) group there _
        exact Visited.kept draft same (store_curr _ _ _) (holds.of_eq same) frame
      case isFalse short => exact Visited.dropped draft (Nat.lt_of_not_le short) rfl ⟨rfl, rfl⟩
    | false =>
      simp only [visit, cached, draft, Bool.false_eq_true, if_false]
      obtain ⟨holds, frame⟩ := store_answer finders
        (callFor config maxCacheHitLength round index group state) group there _
      exact Visited.taken draft cached lower rfl holds frame

/-- A visit to a group never extends the hit; it keeps it or cuts it. -/
theorem Visited.curr_le {answer : Nat} {group : SpecGroup} {before after : State β}
    (visited : Visited config answer group before after) :
    after.currHitLength ≤ before.currHitLength := by
  cases visited with
  | trimmed _ curr _ => exact curr ▸ Nat.min_le_left _ _
  | dropped _ _ curr _ => exact Nat.le_of_eq curr
  | kept _ _ curr _ _ => exact Nat.le_of_eq curr
  | taken _ _ lower curr _ _ => exact curr ▸ lower

/-- A visit to a group writes the blocks of its own members only. -/
theorem Visited.frame {answer : Nat} {group : SpecGroup} {before after : State β}
    (visited : Visited config answer group before after) : Frame group before after := by
  cases visited with
  | trimmed _ _ same => exact fun id _ => ⟨congrFun same.1 id, congrFun same.2 id⟩
  | dropped _ _ _ same => exact fun id _ => ⟨congrFun same.1 id, congrFun same.2 id⟩
  | kept _ _ _ _ frame => exact frame
  | taken _ _ _ _ _ frame => exact frame

/-- What a group holds only depends on its own ids. -/
theorem Holds.congr {before after : State β} {group : SpecGroup} {length : Nat}
    (holds : Holds config before group length)
    (same : ∀ id ∈ group.groupIds,
      after.blocks id = before.blocks id ∧ after.lengths id = before.lengths id) :
    Holds config after group length := by
  intro id inside
  obtain ⟨blocks, lengths⟩ := same id inside
  rw [blocks, lengths]
  exact holds id inside

/-- The member a group's answers are read from is one of its members. -/
theorem first_id_mem {group : SpecGroup} (nonempty : group.groupIds ≠ []) :
    group.groupIds.headD 0 ∈ group.groupIds := by
  cases ids : group.groupIds with
  | nil => exact absurd ids nonempty
  | cons first rest => simp

/-- A full-attention group that holds blocks is cached, at the length it holds. -/
theorem cached_of_holds {state : State β} {group : SpecGroup} {length : Nat}
    (full : group.spec.isFull = true) (nonempty : group.groupIds ≠ [])
    (holds : Holds config state group length) :
    isCached group state = true ∧ state.lengths (group.groupIds.headD 0) = length := by
  obtain ⟨same, blocks, stored, _⟩ := holds _ (first_id_mem nonempty)
  exact ⟨by simp [isCached, full, stored, -List.headD_eq_head?_getD], same⟩

/-- A group of another kind, or one without blocks, is looked up. -/
theorem looked_of_empty {state : State β} {group : SpecGroup} (nonempty : group.groupIds ≠ [])
    (empty : group.spec.isFull = true → ∀ id ∈ group.groupIds, state.blocks id = none) :
    isCached group state = false := by
  cases full : group.spec.isFull with
  | false => simp [isCached, full]
  | true => simp [isCached, empty full _ (first_id_mem nonempty), -List.headD_eq_head?_getD]

/-- A full-attention spec is no sliding window, a draft's least of all. -/
theorem not_draft_of_full {spec : KVCacheSpec} (full : spec.isFull = true) :
    spec.isDraftSwa = false := by
  have kind : spec.kind = .fullAttention := of_decide_eq_true full
  simp [KVCacheSpec.isDraftSwa, kind]

end Visits

section Rounds

variable {β : Type u} {config : Config} (finders : Finders config β) (maxCacheHitLength round : Nat)

/-- The entries of a walk are attention groups at their indices. -/
def Known (config : Config) (entries : List (SpecGroup × Nat)) : Prop :=
  ∀ entry ∈ entries, config.attentionGroups[entry.2]? = some entry.1

/-- The groups of any part of a round are groups of the coordinator at their own indices. -/
theorem known_of_sublist {entries : List (SpecGroup × Nat)}
    (part : entries.Sublist config.attentionGroups.zipIdx) : Known config entries :=
  fun entry member => List.mk_mem_zipIdx_iff_getElem?.mp (part.subset (by simpa using member))

/-- A walk over any part of a round never raises the candidate. -/
theorem walk_curr_le (entries : List (SpecGroup × Nat)) (known : Known config entries)
    (state : State β) :
    (entries.foldl (visit config finders.find maxCacheHitLength round) state).currHitLength ≤
      state.currHitLength := by
  induction entries generalizing state with
  | nil => exact Nat.le_refl _
  | cons entry rest ih =>
    have visited := visit_visited finders maxCacheHitLength round entry.2 entry.1
      (known entry (by simp)) state
    have later := ih (fun other member => known other (List.mem_cons_of_mem _ member))
      (visit config finders.find maxCacheHitLength round state entry)
    exact Nat.le_trans later visited.curr_le

/-- A walk leaves the lists of groups that it does not visit alone. -/
theorem walk_frame (entries : List (SpecGroup × Nat)) (known : Known config entries) (id : Nat)
    (outside : ∀ entry ∈ entries, id ∉ entry.1.groupIds) (state : State β) :
    let after := entries.foldl (visit config finders.find maxCacheHitLength round) state
    after.blocks id = state.blocks id ∧ after.lengths id = state.lengths id := by
  induction entries generalizing state with
  | nil => exact ⟨rfl, rfl⟩
  | cons entry rest ih =>
    have visited := visit_visited finders maxCacheHitLength round entry.2 entry.1
      (known entry (by simp)) state
    obtain ⟨blocks, lengths⟩ := ih (fun other member => known other (List.mem_cons_of_mem _ member))
      (fun other member => outside other (List.mem_cons_of_mem _ member))
      (visit config finders.find maxCacheHitLength round state entry)
    obtain ⟨same, also⟩ := visited.frame id (outside entry (by simp))
    exact ⟨blocks.trans same, lengths.trans also⟩

/-- A group that will not lower the candidate: a draft, a full-attention group that holds at
least the candidate, or a group that is looked up and answers it. -/
def Steady (state : State β) (entry : SpecGroup × Nat) : Prop :=
  entry.1.spec.isDraftSwa = true ∨
  (entry.1.spec.isFull = true ∧
    ∃ length, Holds config state entry.1 length ∧ state.currHitLength ≤ length) ∨
  ((entry.1.spec.isFull = true → ∀ id ∈ entry.1.groupIds, state.blocks id = none) ∧
    ∀ other : State β, other.currHitLength = state.currHitLength → (finders.find
      (callFor config maxCacheHitLength round entry.2 entry.1 other)).length = state.currHitLength)

/-- A steady visit keeps the hit: it is a draft's, or full attention holds long enough lists
already, or the finder answers with the length of the hit. -/
theorem visit_keeps (entry : SpecGroup × Nat)
    (there : config.attentionGroups[entry.2]? = some entry.1) (state : State β)
    (steady : Steady finders maxCacheHitLength round state entry) :
    (visit config finders.find maxCacheHitLength round state entry).currHitLength =
      state.currHitLength := by
  have visited := visit_visited finders maxCacheHitLength round entry.2 entry.1 there state
  have nonempty := group_ids_nonempty config entry.2 entry.1 there
  rcases steady with draft | ⟨full, length, holds, enough⟩ | ⟨empty, echo⟩
  · cases visited with
    | trimmed cached _ _ =>
      have full : entry.1.spec.isFull = true := (Bool.and_eq_true_iff.mp cached).1
      exact absurd draft (by simp [not_draft_of_full full])
    | dropped _ _ curr _ => exact curr
    | kept _ _ curr _ _ => exact curr
    | taken target _ _ _ _ _ => exact absurd draft (by simp [target])
  · obtain ⟨cached, stored⟩ := cached_of_holds full nonempty holds
    cases visited with
    | trimmed _ curr _ => rw [curr, stored, Nat.min_eq_left enough]
    | dropped draft _ _ _ => exact absurd draft (by simp [not_draft_of_full full])
    | kept draft _ _ _ _ => exact absurd draft (by simp [not_draft_of_full full])
    | taken _ looked _ _ _ _ => exact absurd cached (by simp [looked])
  · have looked := looked_of_empty nonempty empty
    cases visited with
    | trimmed cached _ _ => exact absurd cached (by simp [looked])
    | dropped _ _ curr _ => exact curr
    | kept _ _ curr _ _ => exact curr
    | taken _ _ _ curr _ _ => exact curr.trans (echo state rfl)

/-- A walk over groups that do not lower the candidate keeps it. -/
theorem walk_keeps (entries : List (SpecGroup × Nat)) (known : Known config entries)
    (disjoint : entries.Pairwise fun early late =>
      ∀ id ∈ early.1.groupIds, id ∉ late.1.groupIds) (state : State β)
    (each : ∀ entry ∈ entries, Steady finders maxCacheHitLength round state entry) :
    (entries.foldl (visit config finders.find maxCacheHitLength round) state).currHitLength =
      state.currHitLength := by
  induction entries generalizing state with
  | nil => rfl
  | cons entry rest ih =>
    have there := known entry (by simp)
    have here := visit_keeps finders maxCacheHitLength round entry there state (each entry (by simp))
    have frame :=
      (visit_visited finders maxCacheHitLength round entry.2 entry.1 there state).frame
    obtain ⟨apart, remaining⟩ := List.pairwise_cons.mp disjoint
    rw [List.foldl_cons, ← here]
    apply ih (fun other member => known other (List.mem_cons_of_mem _ member)) remaining
    intro other member
    have same : ∀ id ∈ other.1.groupIds, _ := fun id inside =>
      frame id fun also => apart other member id also inside
    rcases each other (List.mem_cons_of_mem _ member) with
      draft | ⟨full, length, holds, enough⟩ | ⟨empty, echo⟩
    · exact Or.inl draft
    · exact Or.inr (Or.inl ⟨full, length, holds.congr same, here ▸ enough⟩)
    · refine Or.inr (Or.inr ⟨fun full id inside => (same id inside).1.trans (empty full id inside), ?_⟩)
      intro next curr
      exact (echo next (curr.trans here)).trans here.symm

/-- Within a round the hit only shrinks: before any visit it is at most what the round began with.
-/
theorem beforeVisit_curr_le (index : Nat) (state : State β) :
    (beforeVisit config finders.find maxCacheHitLength round index state).currHitLength ≤
      state.currHitLength :=
  walk_curr_le finders maxCacheHitLength round _ (known_of_sublist (List.take_sublist _ _)) state

/-- The candidate only falls along a round. -/
theorem beforeVisit_antitone (early late : Nat) (ordered : early ≤ late) (state : State β) :
    (beforeVisit config finders.find maxCacheHitLength round late state).currHitLength ≤
      (beforeVisit config finders.find maxCacheHitLength round early state).currHitLength := by
  have parts : config.attentionGroups.zipIdx.take late =
      config.attentionGroups.zipIdx.take early ++
        (config.attentionGroups.zipIdx.take late).drop early := by
    have front : (config.attentionGroups.zipIdx.take late).take early =
        config.attentionGroups.zipIdx.take early := by
      rw [List.take_take, Nat.min_eq_left ordered]
    rw [← front, List.take_append_drop]
  unfold beforeVisit
  rw [parts, List.foldl_append]
  exact walk_curr_le finders maxCacheHitLength round _
    (known_of_sublist ((List.drop_sublist _ _).trans (List.take_sublist _ _))) _

/-- When no group before `index` lowers the candidate, it arrives unchanged. -/
theorem beforeVisit_keeps (index : Nat) (state : State β)
    (each : ∀ (early : Nat) (first : SpecGroup), early < index →
      config.attentionGroups[early]? = some first →
        Steady finders maxCacheHitLength round state (first, early)) :
    (beforeVisit config finders.find maxCacheHitLength round index state).currHitLength =
      state.currHitLength := by
  apply walk_keeps finders maxCacheHitLength round _ (known_of_sublist (List.take_sublist _ _))
    ((attentionGroups_disjoint config).sublist (List.take_sublist _ _)) state
  intro entry member
  obtain ⟨early, bounded, rfl⟩ := List.getElem_of_mem member
  rw [List.length_take, List.length_zipIdx] at bounded
  have inside : early < config.attentionGroups.length := by omega
  simpa using each early config.attentionGroups[early] (by omega) (by simp)

section At

variable (index : Nat) (group : SpecGroup) (there : config.attentionGroups[index]? = some group)
  (state : State β)

include there

/-- A round is the walk before a group, its visit, and the walk after it. -/
theorem runRound_split : runRound config finders.find maxCacheHitLength round state =
    (config.attentionGroups.zipIdx.drop (index + 1)).foldl
      (visit config finders.find maxCacheHitLength round)
      (afterVisit config finders.find maxCacheHitLength round index group state) := by
  obtain ⟨inside, found⟩ := List.getElem?_eq_some_iff.mp there
  have bounded : index < config.attentionGroups.zipIdx.length := by simpa using inside
  have entry : config.attentionGroups.zipIdx[index] = (group, index) := by simp [found]
  have parts : config.attentionGroups.zipIdx = config.attentionGroups.zipIdx.take index ++
      (group, index) :: config.attentionGroups.zipIdx.drop (index + 1) := by
    rw [← entry, ← List.drop_eq_getElem_cons bounded, List.take_append_drop]
  conv_lhs => rw [runRound, parts, List.foldl_append, List.foldl_cons]
  rfl

/-- The visit to one group within a round is a visit: it starts from what the earlier groups left
and cuts or keeps the hit. -/
theorem visited_at :
    let before := beforeVisit config finders.find maxCacheHitLength round index state
    Visited config (finders.find (callFor config maxCacheHitLength round index group before)).length
      group before (afterVisit config finders.find maxCacheHitLength round index group state) :=
  visit_visited finders maxCacheHitLength round index group there _

/-- The rest of a round does not extend the hit either, so a round ends at most where any of its
visits did. -/
theorem runRound_curr_le : (runRound config finders.find maxCacheHitLength round
    state).currHitLength ≤
      (afterVisit config finders.find maxCacheHitLength round index group state).currHitLength := by
  rw [runRound_split finders maxCacheHitLength round index group there state]
  exact walk_curr_le finders maxCacheHitLength round _ (known_of_sublist (List.drop_sublist _ _)) _

/-- The groups around `index` share no id with it. -/
theorem ids_apart (id : Nat) (inside : id ∈ group.groupIds) :
    (∀ entry ∈ config.attentionGroups.zipIdx.take index, id ∉ entry.1.groupIds) ∧
      ∀ entry ∈ config.attentionGroups.zipIdx.drop (index + 1), id ∉ entry.1.groupIds := by
  obtain ⟨bounded, found⟩ := List.getElem?_eq_some_iff.mp there
  have disjoint := List.pairwise_iff_getElem.mp (attentionGroups_disjoint config)
  have placed : index < config.attentionGroups.zipIdx.length := by simpa using bounded
  have own : id ∈ config.attentionGroups.zipIdx[index].1.groupIds := by
    simpa [found] using inside
  refine ⟨?_, ?_⟩
  · intro entry member also
    obtain ⟨other, early, rfl⟩ := List.getElem_of_mem member
    rw [List.length_take] at early
    rw [List.getElem_take] at also
    exact disjoint other index (by omega) placed (by omega) id also own
  · intro entry member also
    obtain ⟨other, late, rfl⟩ := List.getElem_of_mem member
    rw [List.length_drop] at late
    rw [List.getElem_drop] at also
    exact disjoint index (index + 1 + other) placed (by omega) (by omega) id own also

/-- Only its own visit changes what a group holds. -/
theorem round_frame (id : Nat) (inside : id ∈ group.groupIds) :
    let before := beforeVisit config finders.find maxCacheHitLength round index state
    let after := afterVisit config finders.find maxCacheHitLength round index group state
    let done := runRound config finders.find maxCacheHitLength round state
    (before.blocks id = state.blocks id ∧ before.lengths id = state.lengths id) ∧
      (done.blocks id = after.blocks id ∧ done.lengths id = after.lengths id) := by
  obtain ⟨earlier, later⟩ := ids_apart index group there id inside
  refine ⟨?_, ?_⟩
  · exact walk_frame finders maxCacheHitLength round _ (known_of_sublist (List.take_sublist _ _)) id
      earlier state
  · rw [runRound_split finders maxCacheHitLength round index group there state]
    exact walk_frame finders maxCacheHitLength round _ (known_of_sublist (List.drop_sublist _ _)) id
      later _

/-- When no group after `index` lowers the candidate, it leaves unchanged. -/
theorem runRound_keeps
    (each : ∀ (late : Nat) (second : SpecGroup), index < late →
      config.attentionGroups[late]? = some second → Steady finders maxCacheHitLength round
        (afterVisit config finders.find maxCacheHitLength round index group state) (second, late)) :
    (runRound config finders.find maxCacheHitLength round state).currHitLength =
      (afterVisit config finders.find maxCacheHitLength round index group state).currHitLength := by
  rw [runRound_split finders maxCacheHitLength round index group there state]
  apply walk_keeps finders maxCacheHitLength round _ (known_of_sublist (List.drop_sublist _ _))
    ((attentionGroups_disjoint config).sublist (List.drop_sublist _ _))
  intro entry member
  obtain ⟨late, bounded, rfl⟩ := List.getElem_of_mem member
  rw [List.length_drop, List.length_zipIdx] at bounded
  have inside : index + 1 + late < config.attentionGroups.length := by omega
  simpa using each (index + 1 + late) config.attentionGroups[index + 1 + late] (by omega) (by simp)

/-- A group that is looked up and is no draft holds what its visit made the candidate. -/
theorem holds_of_looked (target : group.spec.isDraftSwa = false)
    (empty : group.spec.isFull = true → ∀ id ∈ group.groupIds, state.blocks id = none) :
    Holds config (runRound config finders.find maxCacheHitLength round state) group
      (afterVisit config finders.find maxCacheHitLength round index group state).currHitLength := by
  have frame := round_frame finders maxCacheHitLength round index group there state
  have looked := looked_of_empty (group_ids_nonempty config index group there)
    fun full id inside => (frame id inside).1.1.trans (empty full id inside)
  cases visited_at finders maxCacheHitLength round index group there state with
  | trimmed cached _ _ => exact absurd cached (by simp [looked])
  | dropped draft _ _ _ => exact absurd draft (by simp [target])
  | kept draft _ _ _ _ => exact absurd draft (by simp [target])
  | taken _ _ _ curr holds _ =>
    exact (holds.congr fun id inside => (frame id inside).2).of_eq curr.symm

/-- A cached full-attention group keeps what it holds and bounds the candidate by it. -/
theorem holds_of_cached (full : group.spec.isFull = true) (length : Nat)
    (holds : Holds config state group length) :
    Holds config (runRound config finders.find maxCacheHitLength round state) group length ∧
      (afterVisit config finders.find maxCacheHitLength round index group state).currHitLength =
        min (beforeVisit config finders.find maxCacheHitLength round index state).currHitLength
          length := by
  have frame := round_frame finders maxCacheHitLength round index group there state
  have target := not_draft_of_full full
  have before : Holds config
      (beforeVisit config finders.find maxCacheHitLength round index state) group length :=
    holds.congr fun id inside => (frame id inside).1
  obtain ⟨cached, stored⟩ :=
    cached_of_holds full (group_ids_nonempty config index group there) before
  cases visited_at finders maxCacheHitLength round index group there state with
  | trimmed _ curr same =>
    refine ⟨?_, stored ▸ curr⟩
    apply before.congr
    intro id inside
    obtain ⟨blocks, lengths⟩ := (frame id inside).2
    exact ⟨blocks.trans (congrFun same.1 id), lengths.trans (congrFun same.2 id)⟩
  | dropped draft _ _ _ => exact absurd draft (by simp [target])
  | kept draft _ _ _ _ => exact absurd draft (by simp [target])
  | taken _ looked _ _ _ _ => exact absurd cached (by simp [looked])

/-- A full-attention group ends a round holding at least the candidate. -/
theorem full_round (full : group.spec.isFull = true)
    (held : (∀ id ∈ group.groupIds, state.blocks id = none) ∨
      ∃ length, Holds config state group length) :
    let done := runRound config finders.find maxCacheHitLength round state
    ∃ length, Holds config done group length ∧ done.currHitLength ≤ length := by
  have lower := runRound_curr_le finders maxCacheHitLength round index group there state
  rcases held with empty | ⟨length, holds⟩
  · exact ⟨_, holds_of_looked finders maxCacheHitLength round index group there state
      (not_draft_of_full full) (fun _ => empty), lower⟩
  · obtain ⟨kept, bound⟩ := holds_of_cached finders maxCacheHitLength round index group there state
      full length holds
    exact ⟨length, kept, Nat.le_trans lower (bound ▸ Nat.min_le_right _ _)⟩

/-- A draft group ends a round untouched when its lookup was short, and else holding the
candidate it was looked up at. -/
theorem draft_round (draft : group.spec.isDraftSwa = true) :
    let done := runRound config finders.find maxCacheHitLength round state
    let before := beforeVisit config finders.find maxCacheHitLength round index state
    let answer := (finders.find
      (callFor config maxCacheHitLength round index group before)).length
    answer < before.currHitLength ∧ (∀ id ∈ group.groupIds,
        done.blocks id = state.blocks id ∧ done.lengths id = state.lengths id) ∨
      answer = before.currHitLength ∧ Holds config done group before.currHitLength := by
  have frame := round_frame finders maxCacheHitLength round index group there state
  cases visited_at finders maxCacheHitLength round index group there state with
  | trimmed cached _ _ =>
    have full : group.spec.isFull = true := (Bool.and_eq_true_iff.mp cached).1
    exact absurd draft (by simp [not_draft_of_full full])
  | dropped _ short _ same =>
    refine Or.inl ⟨short, fun id inside => ?_⟩
    obtain ⟨⟨blocks, lengths⟩, after, also⟩ := frame id inside
    exact ⟨(after.trans (congrFun same.1 id)).trans blocks,
      (also.trans (congrFun same.2 id)).trans lengths⟩
  | kept _ enough _ holds _ =>
    exact Or.inr ⟨enough, holds.congr fun id inside => (frame id inside).2⟩
  | taken target _ _ _ _ _ => exact absurd draft (by simp [target])

/-- A draft group never lowers the candidate. -/
theorem draft_keeps (draft : group.spec.isDraftSwa = true) :
    (afterVisit config finders.find maxCacheHitLength round index group state).currHitLength =
      (beforeVisit config finders.find maxCacheHitLength round index state).currHitLength :=
  visit_keeps finders maxCacheHitLength round (group, index) there _ (Or.inl draft)

end At

/-- The rounds end, whatever the fuel beyond the candidate, and what every kind of end
establishes from a round invariant holds of the result. -/
theorem rounds_spec (Start End : Nat → State β → Prop)
    (stop : ∀ round hitLength state, Start hitLength state →
      (roundFrom config finders.find maxCacheHitLength round hitLength
        state).currHitLength = hitLength →
      End hitLength (roundFrom config finders.find maxCacheHitLength round hitLength state))
    (simple : ∀ round hitLength state, Start hitLength state → config.isSimpleHybrid = true →
      let after := roundFrom config finders.find maxCacheHitLength round hitLength state
      End after.currHitLength after)
    (next : ∀ round hitLength state, Start hitLength state →
      let after := roundFrom config finders.find maxCacheHitLength round hitLength state
      after.currHitLength < hitLength → Start after.currHitLength after)
    (round hitLength : Nat) (state : State β) (start : Start hitLength state) :
    ∃ length final, End length final ∧ ∀ fuel, hitLength < fuel →
      rounds config finders.find maxCacheHitLength fuel round hitLength state = some (length, final) := by
  induction hitLength using Nat.strongRecOn generalizing round state with
  | ind hitLength ih =>
    have lower : (roundFrom config finders.find maxCacheHitLength round hitLength
        state).currHitLength ≤ hitLength :=
      walk_curr_le finders maxCacheHitLength round _ (known_of_sublist (List.Sublist.refl _)) _
    rcases Nat.lt_or_eq_of_le lower with less | same
    · cases hybrid : config.isSimpleHybrid with
      | true =>
        refine ⟨_, _, simple round hitLength state start hybrid, ?_⟩
        intro fuel enough
        obtain ⟨rest, rfl⟩ := Nat.exists_eq_succ_of_ne_zero (Nat.ne_zero_of_lt enough)
        have going : ¬ (roundFrom config finders.find maxCacheHitLength round hitLength
          state).currHitLength ≥ hitLength := Nat.not_le_of_lt less
        simp only [rounds, hybrid, if_true]
        exact if_neg going
      | false =>
        obtain ⟨length, final, ends, result⟩ := ih _ less (round + 1) _
          (next round hitLength state start less)
        refine ⟨length, final, ends, ?_⟩
        intro fuel enough
        obtain ⟨rest, rfl⟩ := Nat.exists_eq_succ_of_ne_zero (Nat.ne_zero_of_lt enough)
        have going : ¬ (roundFrom config finders.find maxCacheHitLength round hitLength
          state).currHitLength ≥ hitLength := Nat.not_le_of_lt less
        simp only [rounds, hybrid, Bool.false_eq_true, if_false]
        exact (if_neg going).trans (result rest (by omega))
    · refine ⟨hitLength, _, stop round hitLength state start same, ?_⟩
      intro fuel enough
      obtain ⟨rest, rfl⟩ := Nat.exists_eq_succ_of_ne_zero (Nat.ne_zero_of_lt enough)
      exact if_pos (Nat.le_of_eq same.symm)

/-- The visit of a group is the last of the walk up to the next one. -/
theorem afterVisit_eq (index : Nat) (group : SpecGroup)
    (there : config.attentionGroups[index]? = some group) (state : State β) :
    afterVisit config finders.find maxCacheHitLength round index group state =
      beforeVisit config finders.find maxCacheHitLength round (index + 1) state := by
  have entry : config.attentionGroups.zipIdx[index]? = some (group, index) := by simp [there]
  unfold afterVisit beforeVisit
  rw [List.take_add_one, entry]
  simp

section Trim

variable (hitLength : Nat) (state : State β) (index : Nat) (group : SpecGroup)
  (there : config.attentionGroups[index]? = some group) (id : Nat) (inside : id ∈ group.groupIds)

include there inside

/-- Only the first attention group is trimmed. -/
theorem trimmed_later (later : index ≠ 0) : trimmed config hitLength state id = state.blocks id := by
  obtain ⟨bounded, _⟩ := List.getElem?_eq_some_iff.mp there
  unfold trimmed
  rw [List.head?_eq_getElem?, List.getElem?_eq_getElem (Nat.zero_lt_of_lt bounded)]
  have outside : id ∉ config.attentionGroups[0].groupIds := by
    have first : (config.attentionGroups[0], 0) ∈ config.attentionGroups.zipIdx.take index := by
      rw [List.mem_take_iff_getElem]
      exact ⟨0, by simp only [List.length_zipIdx]; omega, by simp⟩
    exact (ids_apart index group there id inside).1 _ first
  simp [outside]

/-- A first group that is not full attention is not trimmed either. -/
theorem trimmed_other (other : group.spec.isFull = false) :
    trimmed config hitLength state id = state.blocks id := by
  by_cases first : index = 0
  · subst first
    unfold trimmed
    rw [List.head?_eq_getElem?, there]
    simp [other]
  · exact trimmed_later hitLength state index group there id inside first

end Trim

/-- The list returned for an id is the one its group holds at the end, trimmed to the final length
where the code trims it; an id without a list gets none. -/
theorem cacheHit_blocks (hitLength : Nat) (state : State β) (id : Nat) (entry : KVCacheGroup)
    (stored : config.kvCacheGroups[id]? = some entry) :
    (cacheHit config hitLength state).blocks[id]? =
      some ((trimmed config hitLength state id).getD []) := by
  obtain ⟨inside, _⟩ := List.getElem?_eq_some_iff.mp stored
  simp [cacheHit, inside]

/-- The first attention group, when it is full attention, is trimmed to the hit length. -/
theorem trimmed_first (hitLength : Nat) (state : State β) (group : SpecGroup)
    (there : config.attentionGroups[0]? = some group) (full : group.spec.isFull = true) (id : Nat)
    (inside : id ∈ group.groupIds) : trimmed config hitLength state id =
      (state.blocks id).map (·.take (cdiv hitLength (config.groupBlockSize group.spec))) := by
  unfold trimmed
  rw [List.head?_eq_getElem?, there]
  simp [full, inside]

end Rounds

section Scripted

variable (config : Config) (answer : Nat → Nat → Nat)
  (bounded : ∀ index candidate, answer index candidate ≤ candidate)

/-- Finders that answer from the group and the candidate length, aligned downwards. -/
def scripted : Finders config KVCacheBlock where
  find := fun call =>
    let length := floorBoundary config.cacheHitAlignmentTokens
      (answer call.index (min call.candidate call.maxLength))
    { length := length
      blocks := match config.attentionGroups[call.index]? with
        | none => []
        | some group => group.groupIds.map fun _ =>
            List.replicate (cdiv length (config.groupBlockSize group.spec)) default }
  within := by
    intro call
    exact Nat.le_trans (floorBoundary_le _ _) (Nat.le_trans (bounded _ _) (Nat.min_le_right _ _))
  drops := by
    intro call _
    exact Nat.le_trans (floorBoundary_le _ _) (Nat.le_trans (bounded _ _) (Nat.min_le_left _ _))
  aligned := fun call => Nat.dvd_mul_left _ _
  covers := by
    intro call group there
    simp only [there, List.length_map, List.mem_map, true_and]
    rintro _ ⟨_, _, rfl⟩
    exact List.length_replicate

/-- A scripted finder gives its answer when the answer is aligned and the candidate is within
the maximum. -/
theorem scripted_answer (maxCacheHitLength round index : Nat) (group : SpecGroup)
    (state : State KVCacheBlock) (within : state.currHitLength ≤ maxCacheHitLength)
    (aligned : config.cacheHitAlignmentTokens ∣ answer index state.currHitLength) :
    ((scripted config answer bounded).find
      (callFor config maxCacheHitLength round index group state)).length =
        answer index state.currHitLength := by
  have asked : min state.currHitLength
      (callFor config maxCacheHitLength round index group state).maxLength =
        state.currHitLength := by
    apply Nat.min_eq_left
    simp only [callFor]
    split <;> omega
  have same : ((scripted config answer bounded).find
      (callFor config maxCacheHitLength round index group state)).length =
        floorBoundary config.cacheHitAlignmentTokens (answer index (min state.currHitLength
          (callFor config maxCacheHitLength round index group state).maxLength)) := rfl
  rw [same, asked]
  exact Nat.div_mul_cancel aligned

end Scripted

/-- The alignment is positive, as block sizes are. Rounding a hit down to it is well defined. -/
theorem Coordinator.alignment_positive (coordinator : Coordinator) :
    0 < coordinator.cacheHitAlignmentTokens := by
  unfold Config.cacheHitAlignmentTokens
  split
  · exact coordinator.hash_positive
  · exact coordinator.scheduler_positive

end GlmSpark.HybridCoordinator
