import GlmSpark.HybridCoordinator

/-!
# Draft groups do not influence the target's hit

Two lookups whose finders differ only for draft sliding-window groups are run side
by side. When no group is flagged, an eagle drop is applied to draft groups alone,
or there is no draft group at all; either way both lookups agree, round by round,
on the candidate and on everything stored for other groups.
-/

namespace GlmSpark.HybridInterference

open Blocks HybridCoordinator

universe u
variable {β : Type u} (config : Config)

/-- The id of a draft group. -/
def DraftId (id : Nat) : Prop :=
  ∃ entry, config.kvCacheGroups[id]? = some entry ∧ entry.spec.isDraftSwa = true

/-- Both finders answer every lookup of a group that is no draft group alike. -/
def SameTargets (find also : Call → Hit β) : Prop :=
  ∀ call group, config.attentionGroups[call.index]? = some group →
    group.spec.isDraftSwa = false → find call = also call

/-- No group is flagged as an eagle group. -/
def Unflagged : Prop := ∀ entry ∈ config.kvCacheGroups, entry.isEagleGroup = false

/-- Whether a configuration marks no draft group is decided by looking at its groups. -/
instance : Decidable (Unflagged config) := by unfold Unflagged; infer_instance

section Eagle

/-- A group that applies the eagle drop owes it to one of its ids. -/
theorem addToGroups_eagle (ids : List Nat) (i : Nat) (spec : KVCacheSpec) (useEagle : Bool)
    (groups : List SpecGroup) (fallback : useEagle = true → i ∈ ids)
    (earlier : ∀ group ∈ groups, group.useEagle = true → ∃ id ∈ group.groupIds, id ∈ ids) :
    ∀ group ∈ Config.addToGroups i spec useEagle groups, group.useEagle = true →
      ∃ id ∈ group.groupIds, id ∈ ids := by
  induction groups with
  | nil =>
    intro group member drops
    obtain rfl := List.mem_singleton.mp member
    exact ⟨i, List.mem_cons_self, fallback drops⟩
  | cons first rest ih =>
    have later := ih fun group listed => earlier group (List.mem_cons_of_mem _ listed)
    intro group member drops
    unfold Config.addToGroups at member
    split at member
    next same =>
      rcases List.mem_cons.mp member with rfl | further
      · rcases Bool.or_eq_true_iff.mp drops with old | new
        · obtain ⟨id, inside, eagle⟩ := earlier first List.mem_cons_self old
          exact ⟨id, List.mem_append_left _ inside, eagle⟩
        · exact ⟨i, by simp, fallback new⟩
      · exact earlier group (List.mem_cons_of_mem _ further) drops
    next =>
      rcases List.mem_cons.mp member with rfl | further
      · exact earlier group List.mem_cons_self drops
      · exact later group further drops

/-- An attention group that applies the eagle drop has an id among the eagle groups. -/
theorem eagle_id (group : SpecGroup) (member : group ∈ config.attentionGroups)
    (drops : group.useEagle = true) : ∃ id ∈ group.groupIds, id ∈ config.eagleGroupIds := by
  have run : ∀ (rest : List (KVCacheGroup × Nat)) (groups : List SpecGroup),
      (∀ group ∈ groups, group.useEagle = true →
        ∃ id ∈ group.groupIds, id ∈ config.eagleGroupIds) →
      ∀ group ∈ rest.foldl (fun groups entry =>
        if entry.1.spec.participatesInPrefixCaching then
          Config.addToGroups entry.2 entry.1.spec (decide (entry.2 ∈ config.eagleGroupIds)) groups
        else groups) groups, group.useEagle = true →
          ∃ id ∈ group.groupIds, id ∈ config.eagleGroupIds := by
    intro rest
    induction rest with
    | nil => exact fun groups earlier => earlier
    | cons entry rest ih =>
      intro groups earlier
      apply ih
      dsimp only
      split
      · exact addToGroups_eagle config.eagleGroupIds _ _ _ groups of_decide_eq_true earlier
      · exact earlier
  exact run config.kvCacheGroups.zipIdx [] (by simp) group
    ((mem_attentionGroups config group).mp member) drops

/-- Without flags, and with a draft group, only draft groups apply the eagle drop. -/
theorem eagle_drafts (unflagged : Unflagged config) (id : Nat) (draft : DraftId config id)
    (group : SpecGroup) (member : group ∈ config.attentionGroups) (drops : group.useEagle = true) :
    group.spec.isDraftSwa = true := by
  obtain ⟨entry, stored, isDraft⟩ := draft
  obtain ⟨eagle, inside, among⟩ := eagle_id config group member drops
  have flagged : (config.kvCacheGroups.zipIdx.filter fun entry => entry.1.isEagleGroup).map
      Prod.snd = [] := by
    rw [List.map_eq_nil_iff, List.filter_eq_nil_iff]
    intro pair listed
    rw [unflagged pair.1 (List.fst_mem_of_mem_zipIdx listed)]
    exact Bool.false_ne_true
  have listed : id ∈ (config.kvCacheGroups.zipIdx.filter fun entry =>
      entry.1.spec.isDraftSwa).map Prod.snd := by
    refine List.mem_map.mpr ⟨(entry, id), List.mem_filter.mpr ⟨?_, isDraft⟩, rfl⟩
    exact List.mk_mem_zipIdx_iff_getElem?.mpr stored
  have nonempty : ((config.kvCacheGroups.zipIdx.filter fun entry =>
      entry.1.spec.isDraftSwa).map Prod.snd).isEmpty = false :=
    List.isEmpty_eq_false_iff_exists_mem.mpr ⟨id, listed⟩
  rw [Config.eagleGroupIds, flagged] at among
  dsimp only at among
  rw [nonempty] at among
  split at among
  · rw [if_neg Bool.false_ne_true] at among
    obtain ⟨pair, filtered, rfl⟩ := List.mem_map.mp among
    obtain ⟨owner, isDraft'⟩ := List.mem_filter.mp filtered
    obtain ⟨index, there⟩ := List.mem_iff_getElem?.mp member
    obtain ⟨entry', stored', same, _⟩ := spec_of_id config index pair.2 group there inside
    have equal : pair.1 = entry' := Option.some.inj
      ((List.mk_mem_zipIdx_iff_getElem?.mp owner).symm.trans stored')
    rw [← same, ← equal]
    exact isDraft'
  · exact nomatch among

end Eagle

section Lockstep

/-- Two lookups agree on everything but the draft groups' lists; which eagle drops were applied may
only differ when there are draft groups. -/
structure Agree (one other : State β) : Prop where
  curr : one.currHitLength = other.currHitLength
  longest : one.longestHitLength = other.longestHitLength
  verified : (∀ id, ¬ DraftId config id) → one.eagleVerified = other.eagleVerified
  lists : ∀ id, ¬ DraftId config id →
    one.blocks id = other.blocks id ∧ one.lengths id = other.lengths id

/-- Storing leaves the other variables of the loop alone. -/
theorem store_rest (length : Nat) (pairs : List (Nat × List β)) (state : State β) :
    (store length state pairs).longestHitLength = state.longestHitLength ∧
      (store length state pairs).eagleVerified = state.eagleVerified := by
  induction pairs generalizing state with
  | nil => exact ⟨rfl, rfl⟩
  | cons pair rest ih => exact ih _

/-- Storing the same lists keeps an id's lists equal. -/
theorem store_same (length id : Nat) (pairs : List (Nat × List β)) (one other : State β)
    (same : one.blocks id = other.blocks id ∧ one.lengths id = other.lengths id) :
    (store length one pairs).blocks id = (store length other pairs).blocks id ∧
      (store length one pairs).lengths id = (store length other pairs).lengths id := by
  induction pairs generalizing one other with
  | nil => exact same
  | cons pair rest ih =>
    apply ih
    dsimp only
    rw [same.1, same.2]
    exact ⟨rfl, rfl⟩

/-- Storing in a draft group touches no other group. -/
theorem store_draft (length : Nat) (group : SpecGroup) (index : Nat)
    (there : config.attentionGroups[index]? = some group) (draft : group.spec.isDraftSwa = true)
    (lists : List (List β)) (state : State β) (id : Nat) (target : ¬ DraftId config id) :
    (store length state (group.groupIds.zip lists)).blocks id = state.blocks id ∧
      (store length state (group.groupIds.zip lists)).lengths id = state.lengths id := by
  apply store_other
  intro listed
  obtain ⟨pair, zipped, rfl⟩ := List.mem_map.mp listed
  have inside : pair.1 ∈ group.groupIds := (List.of_mem_zip zipped).1
  obtain ⟨entry, stored, same, _⟩ := spec_of_id config index pair.1 group there inside
  exact target ⟨entry, stored, same ▸ draft⟩

/-- What the visit of a draft group leaves alone. -/
theorem visit_draft (find : Call → Hit β) (maxCacheHitLength round index : Nat) (group : SpecGroup)
    (there : config.attentionGroups[index]? = some group) (draft : group.spec.isDraftSwa = true)
    (state : State β) :
    let after := visit config find maxCacheHitLength round state (group, index)
    after.currHitLength = state.currHitLength ∧ after.longestHitLength = state.longestHitLength ∧
      ∀ id, ¬ DraftId config id →
        after.blocks id = state.blocks id ∧ after.lengths id = state.lengths id := by
  have full : group.spec.isFull = false := by
    cases full : group.spec.isFull with
    | false => rfl
    | true => exact absurd (not_draft_of_full full) (by simp [draft])
  simp only [visit, isCached, full, Bool.false_and, Bool.false_eq_true, if_false, draft, if_true]
  split
  next =>
    refine ⟨store_curr _ _ _, (store_rest _ _ _).1, fun id target => ?_⟩
    exact store_draft config _ group index there draft _ _ id target
  next => exact ⟨rfl, rfl, fun _ _ => ⟨rfl, rfl⟩⟩

/-- The first id of a group that is no draft group is no draft id. -/
theorem target_head (index : Nat) (group : SpecGroup)
    (there : config.attentionGroups[index]? = some group) (target : group.spec.isDraftSwa = false) :
    ¬ DraftId config (group.groupIds.headD 0) := by
  rintro ⟨entry, stored, draft⟩
  have head := first_id_mem (group_ids_nonempty config index group there)
  obtain ⟨owner, owned, same, _⟩ := spec_of_id config index _ group there head
  obtain rfl : entry = owner := Option.some.inj (stored.symm.trans owned)
  rw [same, target] at draft
  exact Bool.false_ne_true draft

variable {config} {find also : Call → Hit β} (unflagged : Unflagged config)
  (targets : SameTargets config find also) (maxCacheHitLength : Nat)

include unflagged in
/-- The eagle drop of a group that is no draft group is the same in both lookups. -/
theorem dropsEagle_same {one other : State β} (agree : Agree config one other) (index : Nat)
    (group : SpecGroup) (there : config.attentionGroups[index]? = some group)
    (target : group.spec.isDraftSwa = false) :
    dropsEagle group index one = dropsEagle group index other := by
  rw [dropsEagle, dropsEagle]
  by_cases drafts : ∃ id, DraftId config id
  · obtain ⟨id, draft⟩ := drafts
    have none : group.useEagle = false := by
      cases drops : group.useEagle with
      | false => rfl
      | true =>
        have isDraft := eagle_drafts config unflagged id draft group (List.mem_of_getElem? there)
          drops
        exact absurd (isDraft.symm.trans target) (by simp)
    rw [none, Bool.false_and, Bool.false_and]
  · rw [agree.verified fun id draft => drafts ⟨id, draft⟩]

include unflagged targets in
/-- A visit keeps both lookups in agreement. -/
theorem visit_agree {one other : State β} (agree : Agree config one other) (round index : Nat)
    (group : SpecGroup) (there : config.attentionGroups[index]? = some group) :
    Agree config (visit config find maxCacheHitLength round one (group, index))
      (visit config also maxCacheHitLength round other (group, index)) := by
  cases draft : group.spec.isDraftSwa with
  | true =>
    obtain ⟨curr, longest, lists⟩ :=
      visit_draft config find maxCacheHitLength round index group there draft one
    obtain ⟨curr', longest', lists'⟩ :=
      visit_draft config also maxCacheHitLength round index group there draft other
    refine ⟨?_, ?_, fun noDraft => ?_, fun id target => ?_⟩
    · rw [curr, curr', agree.curr]
    · rw [longest, longest', agree.longest]
    · -- This group's own ids are draft ids.
      have head := first_id_mem (group_ids_nonempty config index group there)
      obtain ⟨entry, stored, same, _⟩ := spec_of_id config index _ group there head
      exact absurd ⟨entry, stored, same ▸ draft⟩ (noDraft _)
    · rw [(lists id target).1, (lists id target).2, (lists' id target).1, (lists' id target).2]
      exact agree.lists id target
  | false =>
    have head := agree.lists _ (target_head config index group there draft)
    have cached : isCached group one = isCached group other := by
      rw [isCached, isCached, head.1]
    have drops := dropsEagle_same unflagged agree index group there draft
    have call : callFor config maxCacheHitLength round index group one =
        callFor config maxCacheHitLength round index group other := by
      simp only [callFor, drops, agree.curr]
    have answer := targets (callFor config maxCacheHitLength round index group other) group there
      draft
    simp only [visit, cached, draft, call, answer, drops, Bool.false_eq_true, if_false]
    split
    next =>
      refine ⟨?_, agree.longest, agree.verified, agree.lists⟩
      dsimp only
      rw [agree.curr, head.2]
    next =>
      refine ⟨rfl, ?_, fun noDraft => ?_, fun id target => ?_⟩
      · dsimp only
        rw [agree.longest]
      · dsimp only
        rw [(store_rest _ _ _).2, (store_rest _ _ _).2, agree.curr, agree.verified noDraft]
      · exact store_same _ id _ _ _ (agree.lists id target)

include unflagged targets in
/-- A round keeps both lookups in agreement. -/
theorem roundFrom_agree {one other : State β} (agree : Agree config one other)
    (round hitLength : Nat) :
    Agree config (roundFrom config find maxCacheHitLength round hitLength one)
      (roundFrom config also maxCacheHitLength round hitLength other) := by
  have walk : ∀ (entries : List (SpecGroup × Nat)), Known config entries →
      ∀ {one other : State β}, Agree config one other →
        Agree config (entries.foldl (visit config find maxCacheHitLength round) one)
          (entries.foldl (visit config also maxCacheHitLength round) other) := by
    intro entries
    induction entries with
    | nil => exact fun _ _ _ agree => agree
    | cons entry rest ih =>
      intro known _ _ agree
      apply ih fun later listed => known later (List.mem_cons_of_mem _ listed)
      exact visit_agree unflagged targets maxCacheHitLength agree round entry.2 entry.1
        (known entry List.mem_cons_self)
  exact walk _ (known_of_sublist (List.Sublist.refl _))
    ⟨rfl, agree.longest, agree.verified, agree.lists⟩

include unflagged targets in
/-- Both lookups end in the same round with the same length, and they do end. -/
theorem rounds_agree (fuel : Nat) {one other : State β} (agree : Agree config one other)
    (round hitLength : Nat) (enough : hitLength < fuel) :
    ∃ length final final',
      rounds config find maxCacheHitLength fuel round hitLength one = some (length, final) ∧
      rounds config also maxCacheHitLength fuel round hitLength other = some (length, final') ∧
      Agree config final final' := by
  induction fuel generalizing one other round hitLength with
  | zero => exact absurd enough (Nat.not_lt_zero _)
  | succ fuel ih =>
    have next := roundFrom_agree unflagged targets maxCacheHitLength agree round hitLength
    simp only [rounds, ← next.curr]
    split
    next => exact ⟨_, _, _, rfl, rfl, next⟩
    next lower =>
      split
      next => exact ⟨_, _, _, rfl, rfl, next⟩
      next => exact ih next _ _ (by omega)

end Lockstep

/-- Without flagged eagle groups, what the finders of draft groups answer never changes the hit
length, the uncached common prefix or the block list of another group. -/
theorem drafts_do_not_interfere (config : Config) (find also : Call → Hit β)
    (unflagged : Unflagged config) (targets : SameTargets config find also)
    (maxCacheHitLength fuel : Nat) (enough : maxCacheHitLength < fuel) :
    ∃ one other, findLongestCacheHit config find maxCacheHitLength fuel = some one ∧
      findLongestCacheHit config also maxCacheHitLength fuel = some other ∧
      one.hitLength = other.hitLength ∧
      one.numUncachedCommonPrefixTokens = other.numUncachedCommonPrefixTokens ∧
      ∀ (id : Nat) (entry : KVCacheGroup), config.kvCacheGroups[id]? = some entry →
        entry.spec.isDraftSwa = false → one.blocks[id]? = other.blocks[id]? := by
  have start : Agree config (initial maxCacheHitLength : State β) (initial maxCacheHitLength) :=
    ⟨rfl, rfl, fun _ => rfl, fun _ _ => ⟨rfl, rfl⟩⟩
  obtain ⟨length, final, final', first, second, agree⟩ :=
    rounds_agree unflagged targets maxCacheHitLength fuel start 0 maxCacheHitLength enough
  refine ⟨cacheHit config length final, cacheHit config length final', ?_, ?_, rfl, ?_, ?_⟩
  · rw [findLongestCacheHit, first, Option.map_some]
  · rw [findLongestCacheHit, second, Option.map_some]
  · rw [cacheHit, cacheHit, agree.longest]
  · intro id entry stored target
    have noDraft : ¬ DraftId config id := by
      rintro ⟨owner, owned, draft⟩
      obtain rfl : owner = entry := Option.some.inj (owned.symm.trans stored)
      rw [target] at draft
      exact Bool.false_ne_true draft
    have lists : trimmed config length final id = trimmed config length final' id := by
      rw [trimmed, trimmed, (agree.lists id noDraft).1]
    rw [cacheHit_blocks length final id entry stored, cacheHit_blocks length final' id entry stored,
      lists]

/-- A full-attention, a draft and a Mamba group, none of them flagged. -/
def targetDraftMamba : Config where
  kvCacheGroups :=
    [⟨⟨.fullAttention, 16, false, true, 0⟩, false⟩, ⟨⟨.slidingWindow, 16, false, true, 0⟩, false⟩,
      ⟨⟨.mamba, 64, true, true, 0⟩, false⟩]
  useEagle := true
  schedulerBlockSize := 64
  hashBlockSize := 16
  dcpWorldSize := 1
  manager spec := ⟨spec.blockSize, true⟩

/-- The attention groups of `targetDraftMamba`: one group each, the draft group with the eagle drop. -/
theorem targetDraftMamba_groups : targetDraftMamba.attentionGroups =
    [⟨⟨.fullAttention, 16, false, true, 0⟩, [0], false⟩,
      ⟨⟨.slidingWindow, 16, false, true, 0⟩, [1], true⟩,
      ⟨⟨.mamba, 64, true, true, 0⟩, [2], false⟩] := by
  decide

/-- So many tokens in blocks, numbered from some id on. -/
def blocksOf (first size tokens : Nat) : List KVCacheBlock :=
  (List.range (cdiv tokens size)).map fun block => ⟨first + block⟩

/-- Full attention hits what it is asked for, Mamba at most 64 tokens, and the draft group as many
tokens as given; every answer comes with its blocks. -/
def draftHit (tokens : Nat) (call : Call) : Hit KVCacheBlock :=
  match call.index with
  | 0 => ⟨[blocksOf 0 16 call.maxLength], call.maxLength⟩
  | 1 => ⟨[blocksOf 100 16 tokens], tokens⟩
  | _ => ⟨[blocksOf 200 64 (min call.maxLength 64)], min call.maxLength 64⟩

/-- The draft group is the eagle group by fallback. Whether it hits nothing or all of 128 tokens, the
lookup hits 64, which are four blocks of the first group and one of the third; only the draft group's
own list differs. -/
theorem drafts_do_not_interfere_fallback :
    targetDraftMamba.eagleGroupIds = [1] ∧
    ∃ one other, findLongestCacheHit targetDraftMamba (draftHit 0) 128 129 = some one ∧
      findLongestCacheHit targetDraftMamba (draftHit 128) 128 129 = some other ∧
      one.hitLength = other.hitLength ∧
      one.blocks[0]? = other.blocks[0]? ∧ one.blocks[2]? = other.blocks[2]? ∧
      one.blocks = [blocksOf 0 16 64, [], blocksOf 200 64 64] ∧
      other.blocks[1]? = some (blocksOf 100 16 128) := by
  have unflagged : Unflagged targetDraftMamba := by decide
  have targets : SameTargets targetDraftMamba (draftHit 0) (draftHit 128) := by
    intro call group there target
    rw [targetDraftMamba_groups] at there
    rw [draftHit, draftHit]
    split
    next => rfl
    next draft =>
      rw [draft] at there
      obtain rfl := Option.some.inj there
      cases target
    next => rfl
  obtain ⟨one, other, first, second, same, _, lists⟩ := drafts_do_not_interfere targetDraftMamba
    (draftHit 0) (draftHit 128) unflagged targets 128 129 (by decide)
  have short : (findLongestCacheHit targetDraftMamba (draftHit 0) 128 129).map CacheHit.blocks =
      some [blocksOf 0 16 64, [], blocksOf 200 64 64] := by decide +kernel
  have long : (findLongestCacheHit targetDraftMamba (draftHit 128) 128 129).map
      (fun hit => hit.blocks[1]?) = some (some (blocksOf 100 16 128)) := by decide +kernel
  rw [first] at short
  rw [second] at long
  exact ⟨by decide, one, other, first, second, same, lists 0 _ rfl rfl, lists 2 _ rfl rfl,
    Option.some.inj short, Option.some.inj long⟩

end GlmSpark.HybridInterference
