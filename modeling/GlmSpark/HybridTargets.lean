import GlmSpark.HybridCoordinator

/-!
# Target groups of the hybrid lookup

Every group that takes part, other than a draft sliding-window group, is meant to end
with a block list that covers exactly the returned hit. The lookup ends for all
finders, and groups that are looked up in every round do cover the hit. A
full-attention group is looked up once; at the end only the first attention group is
trimmed. So a second full-attention group keeps the blocks of its first round unless
nothing after it can lower the candidate.
-/

namespace GlmSpark.HybridTargets

open Blocks HybridCoordinator

/-- Every group that takes part and is no draft has a block list that covers exactly the
returned hit. -/
def CoversTargets {β : Type} (config : Config) (result : CacheHit β) : Prop :=
  ∀ (id : Nat) (group : KVCacheGroup), config.kvCacheGroups[id]? = some group →
    group.spec.participatesInPrefixCaching = true → group.spec.isDraftSwa = false →
    ∃ blocks, result.blocks[id]? = some blocks ∧
      blocks.length = cdiv result.hitLength (config.groupBlockSize group.spec)

/-- For all finders and maximum lengths the lookup ends and its target groups cover the
returned hit. -/
def ReconcilesTargets (config : Config) : Prop :=
  ∀ (finders : Finders config KVCacheBlock) (maxCacheHitLength : Nat), ∃ result,
    (∀ fuel, maxCacheHitLength < fuel →
      findLongestCacheHit config finders.find maxCacheHitLength fuel = some result) ∧
    CoversTargets config result

/-- At most one full-attention spec, or exactly two and every other group a draft. -/
def fullAttentionBounded (config : Config) : Bool :=
  let full := config.attentionGroups.filter fun group => group.spec.isFull
  let others := config.attentionGroups.filter fun group => !group.spec.isFull
  decide (full.length ≤ 1) || decide (full.length = 2) && others.all fun group => group.spec.isDraftSwa

section Shape

variable (config : Config)

/-- The full-attention groups are exactly the first ones. -/
theorem full_iff_index (index : Nat) (group : SpecGroup)
    (there : config.attentionGroups[index]? = some group) :
    group.spec.isFull = true ↔
      index < (config.attentionGroups.filter fun group => group.spec.isFull).length := by
  have full : config.attentionGroups.filter (fun group => group.spec.isFull) =
      config.collectGroups.filter fun group => group.spec.isFull := by
    simp [Config.attentionGroups, List.filter_append, List.filter_filter]
  rw [full]
  unfold Config.attentionGroups at there
  constructor
  · intro isFull
    by_contra beyond
    rw [List.getElem?_append_right (Nat.le_of_not_lt beyond)] at there
    have other := (List.mem_filter.mp (List.mem_of_getElem? there)).2
    simp [isFull] at other
  · intro inside
    rw [List.getElem?_append_left inside] at there
    exact (List.mem_filter.mp (List.mem_of_getElem? there)).2

/-- Behind a full-attention group other than the first there are only drafts. -/
theorem drafts_behind (bounded : fullAttentionBounded config = true) (early late : Nat)
    (first second : SpecGroup) (atEarly : config.attentionGroups[early]? = some first)
    (atLate : config.attentionGroups[late]? = some second) (later : 0 < early)
    (ordered : early < late) (full : first.spec.isFull = true) : second.spec.isDraftSwa = true := by
  have position := (full_iff_index config early first atEarly).mp full
  rcases Bool.or_eq_true_iff.mp bounded with one | two
  · have count := of_decide_eq_true one
    omega
  · obtain ⟨count, drafts⟩ := Bool.and_eq_true_iff.mp two
    have exactly := of_decide_eq_true count
    have other : second.spec.isFull = false := by
      cases isFull : second.spec.isFull with
      | false => rfl
      | true =>
        have place := (full_iff_index config late second atLate).mp isFull
        omega
    exact List.all_eq_true.mp drafts second
      (List.mem_filter.mpr ⟨List.mem_of_getElem? atLate, by simp [other]⟩)

/-- Otherwise the second group is full attention and some group behind it is no draft. -/
theorem target_behind (unbounded : fullAttentionBounded config = false) :
    ∃ (late : Nat) (first second : SpecGroup), 1 < late ∧
      config.attentionGroups[1]? = some first ∧ first.spec.isFull = true ∧
      config.attentionGroups[late]? = some second ∧ second.spec.isDraftSwa = false := by
  obtain ⟨several, notDrafts⟩ := Bool.or_eq_false_iff.mp unbounded
  have many : 1 < (config.attentionGroups.filter fun group => group.spec.isFull).length :=
    Nat.lt_of_not_le (of_decide_eq_false several)
  have room : 1 < config.attentionGroups.length :=
    Nat.lt_of_lt_of_le many (List.length_filter_le _ _)
  have atOne := List.getElem?_eq_getElem room
  have fullOne := (full_iff_index config 1 _ atOne).mpr many
  rcases Nat.lt_or_eq_of_le (show 2 ≤ _ from many) with three | exactly
  · have inside : 2 < config.attentionGroups.length :=
      Nat.lt_of_lt_of_le three (List.length_filter_le _ _)
    have atTwo := List.getElem?_eq_getElem inside
    exact ⟨2, _, _, by decide, atOne, fullOne, atTwo,
      not_draft_of_full ((full_iff_index config 2 _ atTwo).mpr three)⟩
  · rw [← exactly] at notDrafts
    obtain ⟨second, listed, notFull, other⟩ : ∃ second ∈ config.attentionGroups,
        second.spec.isFull = false ∧ second.spec.isDraftSwa = false := by simpa using notDrafts
    obtain ⟨late, there⟩ := List.mem_iff_getElem?.mp listed
    have behind : ¬ late < 2 := fun early => by
      have full := (full_iff_index config late second there).mpr (exactly ▸ early)
      simp [full] at notFull
    exact ⟨late, _, second, by omega, atOne, fullOne, there, other⟩

end Shape

section Reconciled

variable (config : Config)

/-- What holds when a round starts: nothing was looked up yet, or every full-attention group
holds at least the candidate, and those other than the first hold exactly it. -/
def Start (hitLength : Nat) (state : State KVCacheBlock) : Prop :=
  (∀ id, state.blocks id = none) ∨
  ∀ (index : Nat) (group : SpecGroup), config.attentionGroups[index]? = some group →
    group.spec.isFull = true →
      (∃ length, Holds config state group length ∧ hitLength ≤ length) ∧
      (0 < index → Holds config state group hitLength)

/-- What holds at the end: moreover every other target group holds exactly the hit. -/
def End (hitLength : Nat) (state : State KVCacheBlock) : Prop :=
  ∀ (index : Nat) (group : SpecGroup), config.attentionGroups[index]? = some group →
    (group.spec.isFull = true →
      (∃ length, Holds config state group length ∧ hitLength ≤ length) ∧
      (0 < index → Holds config state group hitLength)) ∧
    (group.spec.isFull = false → group.spec.isDraftSwa = false → Holds config state group hitLength)

variable {config} (finders : Finders config KVCacheBlock) (maxCacheHitLength round hitLength : Nat)
  (state : State KVCacheBlock) (start : Start config hitLength state)

/-- After a round every full-attention group holds at least the candidate. -/
theorem full_after_round (start : Start config hitLength state) (index : Nat) (group : SpecGroup)
    (there : config.attentionGroups[index]? = some group) (full : group.spec.isFull = true) :
    let after := roundFrom config finders.find maxCacheHitLength round hitLength state
    ∃ length, Holds config after group length ∧ after.currHitLength ≤ length := by
  apply full_round finders maxCacheHitLength round index group there _ full
  rcases start with fresh | held
  · exact Or.inl fun id _ => fresh id
  · obtain ⟨⟨length, holds, _⟩, _⟩ := held index group there full
    exact Or.inr ⟨length, holds⟩

/-- After a round a full-attention group with only drafts behind it holds exactly the
candidate. -/
theorem second_after_round (start : Start config hitLength state) (index : Nat) (group : SpecGroup)
    (there : config.attentionGroups[index]? = some group) (full : group.spec.isFull = true)
    (later : 0 < index)
    (drafts : ∀ (late : Nat) (second : SpecGroup), index < late →
      config.attentionGroups[late]? = some second → second.spec.isDraftSwa = true) :
    let after := roundFrom config finders.find maxCacheHitLength round hitLength state
    Holds config after group after.currHitLength := by
  intro after
  have leaves := runRound_keeps finders maxCacheHitLength round index group there
    { state with currHitLength := hitLength } fun late second ordered atLate =>
      Or.inl (drafts late second ordered atLate)
  rcases start with fresh | held
  · have holds := holds_of_looked finders maxCacheHitLength round index group there
      { state with currHitLength := hitLength } (not_draft_of_full full) (fun _ id _ => fresh id)
    exact holds.of_eq leaves.symm
  · have arrives := beforeVisit_keeps finders maxCacheHitLength round index
      { state with currHitLength := hitLength } fun early first before there' =>
        have fullFirst := full_first config early index first group there' there (Nat.le_of_lt before) full
        Or.inr (Or.inl ⟨fullFirst, (held early first there' fullFirst).1⟩)
    obtain ⟨kept, bound⟩ := holds_of_cached finders maxCacheHitLength round index group there
      { state with currHitLength := hitLength } full hitLength ((held index group there full).2 later)
    rw [arrives, Nat.min_self] at bound
    exact kept.of_eq (leaves.trans bound).symm

/-- After a round a target group that is looked up in every round holds exactly the candidate
unless a later group lowered it. -/
theorem other_after_round (index : Nat) (group : SpecGroup)
    (there : config.attentionGroups[index]? = some group) (other : group.spec.isFull = false)
    (target : group.spec.isDraftSwa = false)
    (kept : (afterVisit config finders.find maxCacheHitLength round index group
      { state with currHitLength := hitLength }).currHitLength =
        (roundFrom config finders.find maxCacheHitLength round hitLength state).currHitLength) :
    let after := roundFrom config finders.find maxCacheHitLength round hitLength state
    Holds config after group after.currHitLength := by
  have holds := holds_of_looked finders maxCacheHitLength round index group there
    { state with currHitLength := hitLength } target (fun full => absurd full (by simp [other]))
  exact holds.of_eq kept

/-- Both together, when only drafts stand behind the second full-attention group. -/
theorem full_groups_after_round (bounded : fullAttentionBounded config = true)
    (start : Start config hitLength state) (index : Nat) (group : SpecGroup)
    (there : config.attentionGroups[index]? = some group) (full : group.spec.isFull = true) :
    let after := roundFrom config finders.find maxCacheHitLength round hitLength state
    (∃ length, Holds config after group length ∧ after.currHitLength ≤ length) ∧
      (0 < index → Holds config after group after.currHitLength) := by
  refine ⟨?_, fun later => ?_⟩
  · exact full_after_round finders maxCacheHitLength round hitLength state start index group there full
  · exact second_after_round finders maxCacheHitLength round hitLength state start index group there
      full later fun late second ordered atLate =>
        drafts_behind config bounded index late group second there atLate later ordered full

/-- A round that does not lower the candidate ends the lookup. -/
theorem end_of_stop (bounded : fullAttentionBounded config = true)
    (start : Start config hitLength state)
    (stop : (roundFrom config finders.find maxCacheHitLength round hitLength state).currHitLength =
      hitLength) :
    End config hitLength (roundFrom config finders.find maxCacheHitLength round hitLength state) := by
  intro index group there
  refine ⟨fun full => ?_, fun other target => ?_⟩
  · have held := full_groups_after_round finders maxCacheHitLength round hitLength state bounded start
      index group there full
    simpa only [stop] using held
  · have low := runRound_curr_le finders maxCacheHitLength round index group there
      { state with currHitLength := hitLength }
    have high := (visited_at finders maxCacheHitLength round index group there
      { state with currHitLength := hitLength }).curr_le
    have entry := beforeVisit_curr_le finders maxCacheHitLength round index
      { state with currHitLength := hitLength }
    have same : _ = _ :=
      Nat.le_antisymm (Nat.le_trans (Nat.le_trans high entry) (Nat.le_of_eq stop.symm)) low
    exact (other_after_round finders maxCacheHitLength round hitLength state index group there other
      target same).of_eq stop

/-- With one full-attention group and one other the first round is enough. -/
theorem end_of_simple (bounded : fullAttentionBounded config = true)
    (start : Start config hitLength state) (hybrid : config.isSimpleHybrid = true) :
    let after := roundFrom config finders.find maxCacheHitLength round hitLength state
    End config after.currHitLength after := by
  intro after index group there
  obtain ⟨two, firstFull⟩ := Bool.and_eq_true_iff.mp hybrid
  have length : config.attentionGroups.length = 2 := by simpa using two
  refine ⟨fun full => ?_, fun other target => ?_⟩
  · exact full_groups_after_round finders maxCacheHitLength round hitLength state bounded start index
      group there full
  · have last : ∀ (late : Nat) (second : SpecGroup), index < late →
        config.attentionGroups[late]? = some second → second.spec.isDraftSwa = true := by
      intro late second ordered atLate
      obtain ⟨inside, _⟩ := List.getElem?_eq_some_iff.mp atLate
      have first : index = 0 := by omega
      subst first
      rw [List.head?_eq_getElem?, there] at firstFull
      simp [other] at firstFull
    exact other_after_round finders maxCacheHitLength round hitLength state index group there other
      target (runRound_keeps finders maxCacheHitLength round index group there _
        fun late second ordered atLate => Or.inl (last late second ordered atLate)).symm

/-- What the end of the rounds means for the returned lists. -/
theorem covers_of_end (final : State KVCacheBlock) (ends : End config hitLength final) :
    CoversTargets config (cacheHit config hitLength final) := by
  intro id entry stored active target
  obtain ⟨index, group, there, spec, member⟩ := attention_group_of config id entry stored active
  rw [← spec] at target ⊢
  obtain ⟨fullHolds, otherHolds⟩ := ends index group there
  have listed := cacheHit_blocks hitLength final id entry stored
  refine ⟨_, listed, ?_⟩
  cases full : group.spec.isFull with
  | false =>
    obtain ⟨_, blocks, held, size⟩ := otherHolds full target id member
    rw [trimmed_other hitLength final index group there id member full, held]
    exact size
  | true =>
    obtain ⟨⟨length, holds, enough⟩, later⟩ := fullHolds full
    rcases Nat.eq_zero_or_pos index with rfl | behind
    · obtain ⟨_, blocks, held, size⟩ := holds id member
      have fits := cdiv_mono (config.groupBlockSize group.spec) enough
      rw [trimmed_first hitLength final group there full id member, held]
      simp only [Option.map_some, Option.getD_some, List.length_take, size]
      exact Nat.min_eq_left fits
    · obtain ⟨_, blocks, held, size⟩ := later behind id member
      rw [trimmed_later hitLength final index group there id member (Nat.ne_of_gt behind), held]
      exact size

/-- With at most one full-attention spec, or two and otherwise drafts, every lookup covers its
target groups. -/
theorem reconciles_of_bounded (bounded : fullAttentionBounded config = true) :
    ReconcilesTargets config := by
  intro finders maxCacheHitLength
  obtain ⟨length, final, ends, results⟩ := rounds_spec finders maxCacheHitLength (Start config)
    (End config)
    (fun round hitLength state start stop =>
      end_of_stop finders maxCacheHitLength round hitLength state bounded start stop)
    (fun round hitLength state start hybrid =>
      end_of_simple finders maxCacheHitLength round hitLength state bounded start hybrid)
    (fun round hitLength state start _ => Or.inr
      (full_groups_after_round finders maxCacheHitLength round hitLength state bounded start))
    0 maxCacheHitLength (initial maxCacheHitLength) (Or.inl fun _ => rfl)
  refine ⟨_, ?_, covers_of_end length final ends⟩
  intro fuel enough
  rw [findLongestCacheHit, results fuel enough]
  rfl

end Reconciled

section Unreconciled

variable (coordinator : Coordinator)

/-- Finders for a shared prefix that every group but one has cached. -/
def cachedExcept (missing : Nat) : Finders coordinator.toConfig KVCacheBlock :=
  scripted coordinator.toConfig (fun index candidate => if index = missing then 0 else candidate)
    (by intro index candidate; split <;> omega)

variable (missing unit : Nat) (aligned : coordinator.cacheHitAlignmentTokens ∣ unit)

/-- The state in which the first round starts. -/
def entered : State KVCacheBlock :=
  { (initial unit : State KVCacheBlock) with currHitLength := unit }

include aligned in
/-- In the first round a full-attention group before the one that lost the prefix holds all of
it. -/
theorem first_round_holds (index : Nat) (group : SpecGroup)
    (there : coordinator.attentionGroups[index]? = some group) (full : group.spec.isFull = true)
    (before : index < missing) : Holds coordinator.toConfig (runRound coordinator.toConfig
      (cachedExcept coordinator missing).find unit 0 (entered unit)) group unit := by
  have arrives : (beforeVisit coordinator.toConfig (cachedExcept coordinator missing).find unit 0
      (index + 1) (entered unit)).currHitLength = unit := by
    apply beforeVisit_keeps
    intro early other ordered _
    refine Or.inr (Or.inr ⟨fun _ _ _ => rfl, fun next curr => ?_⟩)
    have here : next.currHitLength = unit := curr
    have elsewhere : early ≠ missing := by omega
    rw [cachedExcept, scripted_answer _ _ _ _ _ _ _ _ (Nat.le_of_eq here)
      (by simp [elsewhere, here, aligned]), if_neg elsewhere, here]
    rfl
  have holds := holds_of_looked (cachedExcept coordinator missing) unit 0 index group there
    (entered unit) (not_draft_of_full full) (fun _ _ _ => rfl)
  rw [afterVisit_eq _ unit 0 index group there, arrives] at holds
  exact holds

/-- In the first round the group that lost the prefix lowers the candidate to nothing. -/
theorem first_round_lost (group : SpecGroup)
    (there : coordinator.attentionGroups[missing]? = some group)
    (target : group.spec.isDraftSwa = false) :
    (runRound coordinator.toConfig (cachedExcept coordinator missing).find unit 0
      (entered unit)).currHitLength = 0 := by
  have lower := runRound_curr_le (cachedExcept coordinator missing) unit 0 missing group there
    (entered unit)
  have frame := round_frame (cachedExcept coordinator missing) unit 0 missing group there
    (entered unit)
  have arrives := beforeVisit_curr_le (cachedExcept coordinator missing) unit 0 missing
    (entered unit)
  have answered := scripted_answer coordinator.toConfig
    (fun index candidate => if index = missing then 0 else candidate)
    (by intro index candidate; split <;> omega) unit 0 missing group
    (beforeVisit coordinator.toConfig (cachedExcept coordinator missing).find unit 0 missing
      (entered unit)) arrives (by simp)
  have looked := looked_of_empty (group_ids_nonempty coordinator.toConfig missing group there)
    fun _ id inside => (frame id inside).1.1.trans rfl
  cases visited_at (cachedExcept coordinator missing) unit 0 missing group there (entered unit) with
  | trimmed cached _ _ => exact absurd cached (by simp [looked])
  | dropped draft _ _ _ => exact absurd draft (by simp [target])
  | kept draft _ _ _ _ => exact absurd draft (by simp [target])
  | taken _ _ _ curr _ _ =>
    have nothing := curr.trans (answered.trans (if_pos rfl))
    exact Nat.le_zero.mp (nothing ▸ lower)

/-- When some target group stands behind a second full-attention group, a prefix that the
target group lost leaves the full-attention group with its first, longer list. -/
theorem not_reconciles_of_unbounded (unbounded : fullAttentionBounded coordinator.toConfig = false) :
    ¬ ReconcilesTargets coordinator.toConfig := by
  intro reconciles
  obtain ⟨late, second, target, ordered, atOne, full, atLate, notDraft⟩ :=
    target_behind coordinator.toConfig unbounded
  obtain ⟨unit, unitIs⟩ : ∃ unit, unit = coordinator.cacheHitAlignmentTokens := ⟨_, rfl⟩
  have positive : 0 < unit := unitIs ▸ coordinator.alignment_positive
  have aligned : coordinator.cacheHitAlignmentTokens ∣ unit := unitIs ▸ Nat.dvd_refl _
  have held := first_round_holds coordinator late unit aligned 1 second atOne full ordered
  have lost := first_round_lost coordinator late unit target atLate notDraft
  obtain ⟨after, afterIs⟩ : ∃ after, after = runRound coordinator.toConfig
    (cachedExcept coordinator late).find unit 0 (entered unit) := ⟨_, rfl⟩
  rw [← afterIs] at held lost
  -- The second round has nothing left to lower and leaves the cached list as it is.
  have kept := (holds_of_cached (cachedExcept coordinator late) unit 1 1 second atOne
    { after with currHitLength := 0 } full unit held).1
  have several : coordinator.isSimpleHybrid = false := by
    obtain ⟨inside, _⟩ := List.getElem?_eq_some_iff.mp atLate
    have count : coordinator.attentionGroups.length ≠ 2 := by omega
    simp [Config.isSimpleHybrid, count]
  obtain ⟨result, found, covers⟩ := reconciles (cachedExcept coordinator late) unit
  have firstRound : roundFrom coordinator.toConfig (cachedExcept coordinator late).find unit 0 unit
      (initial unit) = after := afterIs.symm
  have ends : result = cacheHit coordinator.toConfig 0 (roundFrom coordinator.toConfig
      (cachedExcept coordinator late).find unit 1 0 after) := by
    have run := found (unit + 2) (by omega)
    have going : ¬ 0 ≥ unit := by omega
    simp only [findLongestCacheHit, rounds, firstRound, lost, going, if_false, several,
      Bool.false_eq_true, ge_iff_le, Nat.zero_le, if_true, Option.map_some, Option.some.injEq] at run
    exact run.symm
  have member := first_id_mem (group_ids_nonempty coordinator.toConfig 1 second atOne)
  obtain ⟨entry, stored, spec, active⟩ := spec_of_id coordinator.toConfig 1 _ second atOne member
  obtain ⟨_, blocks, listed, size⟩ := kept _ member
  obtain ⟨returned, there, short⟩ :=
    covers _ entry stored active (by rw [spec]; exact not_draft_of_full full)
  rw [ends, cacheHit_blocks _ _ _ entry stored,
    trimmed_later _ _ 1 second atOne _ member (by decide)] at there
  have same : returned = blocks := by
    have lists : (roundFrom coordinator.toConfig (cachedExcept coordinator late).find unit 1 0
      after).blocks (second.groupIds.headD 0) = some blocks := listed
    rw [lists, Option.getD_some] at there
    exact (Option.some.inj there).symm
  have blockPositive : 0 < coordinator.groupBlockSize second.spec :=
    spec ▸ coordinator.blocks_positive entry (List.mem_of_getElem? stored)
  have some_block : 0 < cdiv unit (coordinator.groupBlockSize second.spec) :=
    (lt_cdiv _ _ 0 blockPositive).mpr (by simpa using positive)
  have none : cdiv 0 (coordinator.groupBlockSize second.spec) = 0 := by
    have empty := (lt_cdiv 0 _ 0 blockPositive).mp.mt (by simp)
    omega
  rw [same, size, ends, spec] at short
  rw [show (cacheHit coordinator.toConfig 0 _).hitLength = 0 from rfl, none] at short
  omega

end Unreconciled

/-- The lookup reconciles its target groups, for all finders and lengths, exactly for the
configurations with at most one full-attention spec, or with two and otherwise only draft
groups. -/
theorem targets_reconciled_iff (coordinator : Coordinator) :
    ReconcilesTargets coordinator.toConfig ↔ fullAttentionBounded coordinator.toConfig = true := by
  constructor
  · intro reconciles
    by_contra unbounded
    exact not_reconciles_of_unbounded coordinator (by simpa using unbounded) reconciles
  · exact reconciles_of_bounded

/-- A target with two full-attention specs and one Mamba spec, blocks of 16 tokens. -/
def twoFullAttention : Coordinator where
  kvCacheGroups := [
    { spec := ⟨.fullAttention, 16, false, true, 0⟩, isEagleGroup := false },
    { spec := ⟨.fullAttention, 16, false, true, 1⟩, isEagleGroup := false },
    { spec := ⟨.mamba, 16, true, true, 0⟩, isEagleGroup := false }]
  useEagle := false
  schedulerBlockSize := 16
  hashBlockSize := 16
  dcpWorldSize := 1
  manager := fun spec => { blockSize := spec.blockSize, supportsFineGrainedHashLookup := true }
  hash_positive := by decide
  scheduler_positive := by decide
  blocks_positive := by decide
  scheduler_aligned := by decide
  hash_aligned := by decide
  context_parallel := by decide
  two_groups := by decide

/-- A prefix of 32 tokens whose Mamba state is gone: the hit is 0, and the second full-attention
group still returns its two blocks. -/
theorem second_full_attention_keeps_blocks :
    (findLongestCacheHit twoFullAttention.toConfig (cachedExcept twoFullAttention 2).find 32 33).map
        (fun result => (result.hitLength, result.blocks.map List.length)) = some (0, [0, 2, 0]) ∧
      ¬ ReconcilesTargets twoFullAttention.toConfig :=
  ⟨by decide, not_reconciles_of_unbounded twoFullAttention (by decide)⟩

end GlmSpark.HybridTargets
