import GlmSpark.HybridCoordinator

/-!
# Draft groups of the hybrid lookup

A draft sliding-window group may fail its lookup without lowering the candidate; its list
is then left empty, so that allocation creates fresh pages. The lookup is dropped, the
list of an earlier round is not: when a later round lowers the candidate and the draft
group's window no longer reaches it, the longer list is returned. This cannot happen
when every other group is full attention, since those settle the candidate in the
first round before any draft group is visited.
-/

namespace GlmSpark.HybridDrafts

open Blocks HybridCoordinator

/-- Every draft group's list is empty or covers exactly the returned hit. -/
def CoversDrafts {β : Type} (config : Config) (result : CacheHit β) : Prop :=
  ∀ (id : Nat) (group : KVCacheGroup), config.kvCacheGroups[id]? = some group →
    group.spec.isDraftSwa = true →
    ∃ blocks, result.blocks[id]? = some blocks ∧
      (blocks = [] ∨ blocks.length = cdiv result.hitLength (config.groupBlockSize group.spec))

/-- For all finders and maximum lengths the lookup ends with fresh or exact draft lists. -/
def ReconcilesDrafts (config : Config) : Prop :=
  ∀ (finders : Finders config KVCacheBlock) (maxCacheHitLength : Nat), ∃ result,
    (∀ fuel, maxCacheHitLength < fuel →
      findLongestCacheHit config finders.find maxCacheHitLength fuel = some result) ∧
    CoversDrafts config result

/-- No draft group takes part, or every other group is full attention. -/
def draftsSettled (config : Config) : Bool :=
  (config.attentionGroups.all fun group => !group.spec.isDraftSwa) ||
    config.attentionGroups.all fun group => group.spec.isDraftSwa || group.spec.isFull

section Reconciled

variable (config : Config)

/-- Every full-attention group was not looked up yet or holds at least `hitLength`. -/
def Ready (hitLength : Nat) (state : State KVCacheBlock) : Prop :=
  ∀ (index : Nat) (group : SpecGroup), config.attentionGroups[index]? = some group →
    group.spec.isFull = true → (∀ id ∈ group.groupIds, state.blocks id = none) ∨
      ∃ length, Holds config state group length ∧ hitLength ≤ length

/-- Every draft group has no list or holds exactly `hitLength`. -/
def DraftsHold (hitLength : Nat) (state : State KVCacheBlock) : Prop :=
  ∀ (index : Nat) (group : SpecGroup), config.attentionGroups[index]? = some group →
    group.spec.isDraftSwa = true → (∀ id ∈ group.groupIds, state.blocks id = none) ∨
      Holds config state group hitLength

/-- Ids outside all attention groups have no list. -/
def Untouched (state : State KVCacheBlock) : Prop :=
  ∀ id, (∀ (index : Nat) (group : SpecGroup), config.attentionGroups[index]? = some group →
    id ∉ group.groupIds) → state.blocks id = none

/-- What holds when a round starts: full attention is ready, and either no lookup was made or
the candidate is settled. -/
def Start (hitLength : Nat) (state : State KVCacheBlock) : Prop :=
  Untouched config state ∧ Ready config hitLength state ∧
    ((∀ id, state.blocks id = none) ∨
      (∀ (index : Nat) (group : SpecGroup), config.attentionGroups[index]? = some group →
        group.spec.isFull = true →
          ∃ length, Holds config state group length ∧ hitLength ≤ length) ∧
      DraftsHold config hitLength state)

variable {config} (finders : Finders config KVCacheBlock) (maxCacheHitLength round hitLength : Nat)
  (state : State KVCacheBlock)

/-- A round makes no list for an id outside all attention groups. -/
theorem untouched_round (untouched : Untouched config state) :
    Untouched config (roundFrom config finders.find maxCacheHitLength round hitLength state) := by
  intro id outside
  have known : Known config config.attentionGroups.zipIdx := known_of_sublist (List.Sublist.refl _)
  have frame := walk_frame finders maxCacheHitLength round config.attentionGroups.zipIdx known id
    (fun entry member => outside entry.2 entry.1 (known entry member))
    { state with currHitLength := hitLength }
  exact frame.1.trans (untouched id outside)

/-- A round keeps full attention ready for the candidate it leaves. -/
theorem ready_round (ready : Ready config hitLength state) (index : Nat) (group : SpecGroup)
    (there : config.attentionGroups[index]? = some group) (full : group.spec.isFull = true) :
    let after := roundFrom config finders.find maxCacheHitLength round hitLength state
    ∃ length, Holds config after group length ∧ after.currHitLength ≤ length := by
  apply full_round finders maxCacheHitLength round index group there _ full
  rcases ready index group there full with empty | ⟨length, holds, _⟩
  · exact Or.inl empty
  · exact Or.inr ⟨length, holds⟩

/-- When all groups are drafts or full attention, a draft group ends a round without a list or
holding exactly the candidate the round leaves. -/
theorem drafts_round (settled : ∀ (index : Nat) (group : SpecGroup),
      config.attentionGroups[index]? = some group →
        group.spec.isDraftSwa = true ∨ group.spec.isFull = true)
    (start : Start config hitLength state) :
    let after := roundFrom config finders.find maxCacheHitLength round hitLength state
    DraftsHold config after.currHitLength after := by
  intro after index group there draft
  -- Behind a draft group there is no full attention, so nothing lowers the candidate.
  have behind : ∀ (late : Nat) (second : SpecGroup), index < late →
      config.attentionGroups[late]? = some second → second.spec.isDraftSwa = true := by
    intro late second ordered atLate
    rcases settled late second atLate with later | full
    · exact later
    · have own := full_first config index late group second there atLate (Nat.le_of_lt ordered) full
      exact absurd draft (by simp [not_draft_of_full own])
  have leaves := runRound_keeps finders maxCacheHitLength round index group there
    { state with currHitLength := hitLength } fun late second ordered atLate =>
      Or.inl (behind late second ordered atLate)
  have visit := draft_keeps finders maxCacheHitLength round index group there
    { state with currHitLength := hitLength } draft
  rcases draft_round finders maxCacheHitLength round index group there
    { state with currHitLength := hitLength } draft with ⟨_, same⟩ | ⟨_, holds⟩
  · obtain ⟨_, _, fresh | ⟨cached, drafts⟩⟩ := start
    · exact Or.inl fun id inside => (same id inside).1.trans (fresh id)
    · have arrives := beforeVisit_keeps finders maxCacheHitLength round index
        { state with currHitLength := hitLength } fun early first before atEarly =>
          (settled early first atEarly).imp_right fun full =>
            Or.inl ⟨full, cached early first atEarly full⟩
      have kept : after.currHitLength = hitLength := leaves.trans (visit.trans arrives)
      rcases drafts index group there draft with empty | held
      · exact Or.inl fun id inside => (same id inside).1.trans (empty id inside)
      · exact Or.inr ((held.congr same).of_eq kept.symm)
  · exact Or.inr (holds.of_eq (leaves.trans visit).symm)

/-- What the end of the rounds means for the returned draft lists. -/
theorem covers_of_end (final : State KVCacheBlock) (untouched : Untouched config final)
    (drafts : DraftsHold config hitLength final) :
    CoversDrafts config (cacheHit config hitLength final) := by
  intro id entry stored draft
  refine ⟨_, cacheHit_blocks hitLength final id entry stored, ?_⟩
  by_cases inGroup : ∃ (index : Nat) (group : SpecGroup),
      config.attentionGroups[index]? = some group ∧ id ∈ group.groupIds
  · obtain ⟨index, group, there, inside⟩ := inGroup
    obtain ⟨owner, found, spec, _⟩ := spec_of_id config index id group there inside
    have same : entry.spec = group.spec := (Option.some.inj (stored.symm.trans found)) ▸ spec
    rw [same] at draft ⊢
    have other : group.spec.isFull = false := by
      cases full : group.spec.isFull with
      | false => rfl
      | true => exact absurd draft (by simp [not_draft_of_full full])
    rw [trimmed_other hitLength final index group there id inside other]
    rcases drafts index group there draft with empty | holds
    · exact Or.inl (by simp [empty id inside])
    · obtain ⟨_, blocks, held, size⟩ := holds id inside
      rw [held]
      exact Or.inr size
  · have outside : ∀ (index : Nat) (group : SpecGroup),
        config.attentionGroups[index]? = some group → id ∉ group.groupIds :=
      fun index group there inside => inGroup ⟨index, group, there, inside⟩
    have none := untouched id outside
    left
    unfold trimmed
    split
    · simp [none]
    · split <;> simp [none]

/-- Without draft groups, or with full attention only besides them, every lookup returns
fresh or exact draft lists. -/
theorem reconciles_of_settled (settled : draftsSettled config = true) :
    ReconcilesDrafts config := by
  intro finders maxCacheHitLength
  have after : ∀ round hitLength (state : State KVCacheBlock), Start config hitLength state →
      let done := roundFrom config finders.find maxCacheHitLength round hitLength state
      Untouched config done ∧ DraftsHold config done.currHitLength done ∧
        ∀ (index : Nat) (group : SpecGroup), config.attentionGroups[index]? = some group →
          group.spec.isFull = true →
            ∃ length, Holds config done group length ∧ done.currHitLength ≤ length := by
    intro round hitLength state start
    refine ⟨untouched_round finders maxCacheHitLength round hitLength state start.1, ?_,
      ready_round finders maxCacheHitLength round hitLength state start.2.1⟩
    rcases Bool.or_eq_true_iff.mp settled with noDraft | split
    · intro index group there draft
      have other := List.all_eq_true.mp noDraft group (List.mem_of_getElem? there)
      exact absurd draft (by simpa using other)
    · refine drafts_round finders maxCacheHitLength round hitLength state ?_ start
      intro index group there
      exact Bool.or_eq_true_iff.mp (List.all_eq_true.mp split group (List.mem_of_getElem? there))
  obtain ⟨length, final, ⟨untouched, drafts⟩, results⟩ := rounds_spec finders maxCacheHitLength
    (Start config) (fun length final => Untouched config final ∧ DraftsHold config length final)
    (fun round hitLength state start stop => by
      obtain ⟨untouched, drafts, _⟩ := after round hitLength state start
      exact ⟨untouched, by simpa only [stop] using drafts⟩)
    (fun round hitLength state start _ => by
      obtain ⟨untouched, drafts, _⟩ := after round hitLength state start
      exact ⟨untouched, drafts⟩)
    (fun round hitLength state start _ => by
      obtain ⟨untouched, drafts, full⟩ := after round hitLength state start
      exact ⟨untouched, fun index group there isFull => Or.inr (full index group there isFull),
        Or.inr ⟨full, drafts⟩⟩)
    0 maxCacheHitLength (initial maxCacheHitLength)
    ⟨fun _ _ => rfl, fun _ _ _ _ => Or.inl fun _ _ => rfl, Or.inl fun _ => rfl⟩
  refine ⟨_, ?_, covers_of_end length final untouched drafts⟩
  intro fuel enough
  rw [findLongestCacheHit, results fuel enough]
  rfl

end Reconciled

section Unreconciled

variable (config : Config) (reducer draft unit : Nat)

/-- What the groups answer when one group loses a unit of its hit in every round that still has
two, and a draft group has a window of two units. -/
def retreat (index candidate : Nat) : Nat :=
  if index = reducer then (if 2 * unit ≤ candidate then candidate - unit else candidate)
  else if index = draft then (if 2 * unit ≤ candidate then candidate else 0)
  else candidate

/-- The finder of the counterexample never answers more than it was asked. -/
theorem retreat_le (index candidate : Nat) : retreat reducer draft unit index candidate ≤ candidate := by
  unfold retreat
  split
  · split <;> omega
  · split
    · split <;> omega
    · exact Nat.le_refl _

/-- Finders that answer so. -/
def retreating : Finders config KVCacheBlock :=
  scripted config (retreat reducer draft unit) (retreat_le reducer draft unit)

variable {config reducer draft unit} {first second : SpecGroup}
  (aligned : config.cacheHitAlignmentTokens ∣ unit)
  (atReducer : config.attentionGroups[reducer]? = some first)
  (reducerFull : first.spec.isFull = false) (reducerDraft : first.spec.isDraftSwa = false)
  (atDraft : config.attentionGroups[draft]? = some second)
  (isDraft : second.spec.isDraftSwa = true)

include aligned in
/-- At a candidate of whole units within the maximum the finders answer so exactly. -/
theorem retreating_answer (reducer draft round index : Nat) (group : SpecGroup) (state : State KVCacheBlock)
    (within : state.currHitLength ≤ 3 * unit) (whole : unit ∣ state.currHitLength) :
    ((retreating config reducer draft unit).find
      (callFor config (3 * unit) round index group state)).length =
        retreat reducer draft unit index state.currHitLength := by
  refine scripted_answer config _ _ (3 * unit) round index group state within
    (Nat.dvd_trans aligned ?_)
  unfold retreat
  split
  · split
    · exact Nat.dvd_sub whole (Nat.dvd_refl unit)
    · exact whole
  · split
    · split
      · exact whole
      · exact Nat.dvd_zero unit
    · exact whole

include aligned atDraft isDraft in
/-- Every group but the reducer lets a candidate of whole units pass. -/
theorem steady (round index : Nat) (group : SpecGroup) (state : State KVCacheBlock)
    (there : config.attentionGroups[index]? = some group)
    (ready : group.spec.isFull = true → (∀ id ∈ group.groupIds, state.blocks id = none) ∨
      ∃ length, Holds config state group length ∧ state.currHitLength ≤ length)
    (within : state.currHitLength ≤ 3 * unit) (whole : unit ∣ state.currHitLength)
    (other : index ≠ reducer) :
    Steady (retreating config reducer draft unit) (3 * unit) round state (group, index) := by
  by_cases drafted : group.spec.isDraftSwa = true
  · exact Or.inl drafted
  · have notDraft : index ≠ draft := by
      rintro rfl
      exact drafted (Option.some.inj (there.symm.trans atDraft) ▸ isDraft)
    have echo : ∀ next : State KVCacheBlock, next.currHitLength = state.currHitLength →
        ((retreating config reducer draft unit).find
          (callFor config (3 * unit) round index group next)).length = state.currHitLength := by
      intro next curr
      rw [retreating_answer aligned reducer draft round index group next (curr ▸ within)
        (curr ▸ whole), retreat, if_neg other, if_neg notDraft, curr]
    by_cases full : group.spec.isFull = true
    · rcases ready full with empty | held
      · exact Or.inr (Or.inr ⟨fun _ => empty, echo⟩)
      · exact Or.inr (Or.inl ⟨full, held⟩)
    · exact Or.inr (Or.inr ⟨fun isFull => absurd isFull full, echo⟩)

variable (round hitLength : Nat) (state : State KVCacheBlock)
  (ready : Ready config hitLength state) (within : hitLength ≤ 3 * unit) (whole : unit ∣ hitLength)

include aligned atDraft isDraft ready within whole

/-- The candidate reaches every group up to the reducer as it entered the round. -/
theorem arrives_early (index : Nat) (early : index ≤ reducer) :
    (beforeVisit config (retreating config reducer draft unit).find (3 * unit) round index
      { state with currHitLength := hitLength }).currHitLength = hitLength := by
  apply beforeVisit_keeps
  intro earlier group before there
  exact steady aligned atDraft isDraft round earlier group _ there (ready earlier group there) within
    whole (by omega)

include atReducer reducerFull reducerDraft

/-- The reducer lowers the candidate, and no later group changes it. -/
theorem leaves_reduced :
    let done := roundFrom config (retreating config reducer draft unit).find (3 * unit) round
      hitLength state
    let reduced := afterVisit config (retreating config reducer draft unit).find (3 * unit) round
      reducer first { state with currHitLength := hitLength }
    reduced.currHitLength = retreat reducer draft unit reducer hitLength ∧
      done.currHitLength = reduced.currHitLength := by
  intro done reduced
  have arrives := arrives_early aligned atDraft isDraft round hitLength state ready within whole
    reducer (Nat.le_refl _)
  have answered := retreating_answer aligned reducer draft round reducer first
    (beforeVisit config (retreating config reducer draft unit).find (3 * unit) round reducer
      { state with currHitLength := hitLength }) (by rw [arrives]; exact within)
    (by rw [arrives]; exact whole)
  have visit : reduced.currHitLength = retreat reducer draft unit reducer hitLength := by
    have looked : isCached first (beforeVisit config (retreating config reducer draft unit).find
        (3 * unit) round reducer { state with currHitLength := hitLength }) = false :=
      looked_of_empty (group_ids_nonempty config reducer first atReducer)
        fun full => absurd full (by simp [reducerFull])
    cases visited_at (retreating config reducer draft unit) (3 * unit) round reducer first atReducer
        { state with currHitLength := hitLength } with
    | trimmed cached _ _ => exact absurd cached (by simp [looked])
    | dropped isDraft _ _ _ => exact absurd isDraft (by simp [reducerDraft])
    | kept isDraft _ _ _ _ => exact absurd isDraft (by simp [reducerDraft])
    | taken _ _ _ curr _ _ => exact curr.trans (answered.trans (by rw [arrives]))
  refine ⟨visit, ?_⟩
  have lower : reduced.currHitLength ≤ 3 * unit := by
    rw [visit]
    exact Nat.le_trans (retreat_le _ _ _ _ _) within
  have units : unit ∣ reduced.currHitLength := by
    rw [visit, retreat, if_pos rfl]
    split
    · exact Nat.dvd_sub whole (Nat.dvd_refl unit)
    · exact whole
  apply runRound_keeps (retreating config reducer draft unit) (3 * unit) round reducer first atReducer
  intro late group ordered there
  refine steady aligned atDraft isDraft round late group _ there ?_ lower units (by omega)
  intro full
  have own := full_first config reducer late first group atReducer there (Nat.le_of_lt ordered) full
  exact absurd own (by simp [reducerFull])

/-- The candidate the draft group is looked up at: the one that entered the round, or the
reduced one when the draft group stands behind the reducer. -/
theorem arrives_draft :
    (beforeVisit config (retreating config reducer draft unit).find (3 * unit) round draft
      { state with currHitLength := hitLength }).currHitLength =
        if draft < reducer then hitLength else retreat reducer draft unit reducer hitLength := by
  obtain ⟨reduced, leaves⟩ := leaves_reduced aligned atReducer reducerFull reducerDraft atDraft isDraft
    round hitLength state ready within whole
  split
  case isTrue early =>
    exact arrives_early aligned atDraft isDraft round hitLength state ready within whole draft
      (Nat.le_of_lt early)
  case isFalse late =>
    have apart : draft ≠ reducer := by
      rintro rfl
      have same := Option.some.inj (atDraft.symm.trans atReducer)
      exact absurd isDraft (by simp [same, reducerDraft])
    have below := beforeVisit_antitone (retreating config reducer draft unit) (3 * unit) round
      (reducer + 1) draft (by omega) { state with currHitLength := hitLength }
    rw [← afterVisit_eq _ _ _ reducer first atReducer, reduced] at below
    have above := runRound_curr_le (retreating config reducer draft unit) (3 * unit) round draft second
      atDraft { state with currHitLength := hitLength }
    rw [draft_keeps _ _ _ draft second atDraft _ isDraft] at above
    exact Nat.le_antisymm below (Nat.le_trans (Nat.le_of_eq (leaves.trans reduced).symm) above)

/-- With a window of two units the draft group is looked up in vain at one unit and keeps its
list, and else holds what it was looked up at. -/
theorem draft_of_round :
    let done := roundFrom config (retreating config reducer draft unit).find (3 * unit) round
      hitLength state
    let looked := if draft < reducer then hitLength
      else retreat reducer draft unit reducer hitLength
    (2 * unit ≤ looked → Holds config done second looked) ∧
      (0 < looked → looked < 2 * unit → ∀ id ∈ second.groupIds,
        done.blocks id = state.blocks id ∧ done.lengths id = state.lengths id) := by
  intro done looked
  have arrives := arrives_draft aligned atReducer reducerFull reducerDraft atDraft isDraft round
    hitLength state ready within whole
  have apart : draft ≠ reducer := by
    rintro rfl
    have same := Option.some.inj (atDraft.symm.trans atReducer)
    exact absurd isDraft (by simp [same, reducerDraft])
  have least : looked ≤ 3 * unit := by
    simp only [looked]
    split
    · exact within
    · exact Nat.le_trans (retreat_le _ _ _ _ _) within
  have units : unit ∣ looked := by
    simp only [looked, retreat, if_true]
    split
    · exact whole
    · split
      · exact Nat.dvd_sub whole (Nat.dvd_refl unit)
      · exact whole
  have answered := retreating_answer aligned reducer draft round draft second
    (beforeVisit config (retreating config reducer draft unit).find (3 * unit) round draft
      { state with currHitLength := hitLength }) (by rw [arrives]; exact least)
    (by rw [arrives]; exact units)
  rw [arrives] at answered
  rw [show (if draft < reducer then hitLength else retreat reducer draft unit reducer hitLength) =
    looked from rfl, retreat, if_neg apart, if_pos rfl] at answered
  rcases draft_round (retreating config reducer draft unit) (3 * unit) round draft second atDraft
    { state with currHitLength := hitLength } isDraft with ⟨short, same⟩ | ⟨enough, holds⟩
  · rw [arrives, answered] at short
    refine ⟨fun wide => ?_, fun _ _ => same⟩
    rw [if_pos wide] at short
    exact absurd short (Nat.lt_irrefl _)
  · rw [arrives] at holds enough
    refine ⟨fun _ => holds, fun some narrow => ?_⟩
    rw [answered, if_neg (Nat.not_le_of_lt narrow)] at enough
    have zero : 0 = looked := enough
    omega

end Unreconciled

section Stale

variable (coordinator : Coordinator) (reducer draft : Nat) (first second : SpecGroup)
  (atReducer : coordinator.attentionGroups[reducer]? = some first)
  (reducerFull : first.spec.isFull = false) (reducerDraft : first.spec.isDraftSwa = false)
  (atDraft : coordinator.attentionGroups[draft]? = some second)
  (isDraft : second.spec.isDraftSwa = true)

include atReducer reducerFull reducerDraft atDraft isDraft

/-- Two groups that are not full attention make the lookup run until no group reduces. -/
theorem not_simple : coordinator.isSimpleHybrid = false := by
  by_contra simple
  obtain ⟨two, firstFull⟩ := Bool.and_eq_true_iff.mp (Bool.of_not_eq_false simple)
  have length : coordinator.attentionGroups.length = 2 := by simpa using two
  obtain ⟨inReducer, _⟩ := List.getElem?_eq_some_iff.mp atReducer
  obtain ⟨inDraft, _⟩ := List.getElem?_eq_some_iff.mp atDraft
  have other : ∀ (index : Nat) (group : SpecGroup), coordinator.attentionGroups[index]? = some group →
      group.spec.isFull = false → index ≠ 0 := by
    rintro index group there notFull rfl
    rw [List.head?_eq_getElem?, there] at firstFull
    simp [notFull] at firstFull
  have draftOther : second.spec.isFull = false := by
    cases full : second.spec.isFull with
    | false => rfl
    | true => exact absurd isDraft (by simp [not_draft_of_full full])
  have place := other reducer first atReducer reducerFull
  have draftPlace := other draft second atDraft draftOther
  have same : reducer = draft := by omega
  subst same
  exact absurd isDraft (by simp [Option.some.inj (atDraft.symm.trans atReducer), reducerDraft])

/-- Three rounds of a retreat: the candidate falls by one unit in the first two, and the draft
group keeps the two units of its last lookup that reached. -/
theorem three_rounds (unit : Nat) (positive : 0 < unit)
    (aligned : coordinator.cacheHitAlignmentTokens ∣ unit) :
    let find := (retreating coordinator.toConfig reducer draft unit).find
    let one := roundFrom coordinator.toConfig find (3 * unit) 0 (3 * unit) (initial (3 * unit))
    let two := roundFrom coordinator.toConfig find (3 * unit) 1 (2 * unit) one
    let three := roundFrom coordinator.toConfig find (3 * unit) 2 unit two
    one.currHitLength = 2 * unit ∧ two.currHitLength = unit ∧ three.currHitLength = unit ∧
      Holds coordinator.toConfig three second (2 * unit) := by
  intro find one two three
  have reduce : ∀ hitLength, 2 * unit ≤ hitLength →
      retreat reducer draft unit reducer hitLength = hitLength - unit := by
    intro hitLength wide
    simp [retreat, wide]
  have rest : retreat reducer draft unit reducer unit = unit := by
    have narrow : ¬ 2 * unit ≤ unit := by omega
    simp [retreat, narrow]
  have ready0 : Ready coordinator.toConfig (3 * unit) (initial (3 * unit)) :=
    fun _ _ _ _ => Or.inl fun _ _ => rfl
  have whole0 : unit ∣ 3 * unit := Nat.dvd_mul_left unit 3
  have whole1 : unit ∣ 2 * unit := Nat.dvd_mul_left unit 2
  obtain ⟨fall0, leaves0⟩ := leaves_reduced aligned atReducer reducerFull reducerDraft atDraft isDraft 0
    (3 * unit) (initial (3 * unit)) ready0 (Nat.le_refl _) whole0
  have curr0 : one.currHitLength = 2 * unit := by
    rw [leaves0, fall0, reduce _ (by omega)]
    omega
  have ready1 : Ready coordinator.toConfig (2 * unit) one := fun index group there full =>
    Or.inr (curr0 ▸ ready_round (retreating coordinator.toConfig reducer draft unit) (3 * unit) 0
      (3 * unit) (initial (3 * unit)) ready0 index group there full)
  obtain ⟨fall1, leaves1⟩ := leaves_reduced aligned atReducer reducerFull reducerDraft atDraft isDraft 1
    (2 * unit) one ready1 (by omega) whole1
  have curr1 : two.currHitLength = unit := by
    rw [leaves1, fall1, reduce _ (Nat.le_refl _)]
    omega
  have ready2 : Ready coordinator.toConfig unit two := fun index group there full =>
    Or.inr (curr1 ▸ ready_round (retreating coordinator.toConfig reducer draft unit) (3 * unit) 1
      (2 * unit) one ready1 index group there full)
  obtain ⟨fall2, leaves2⟩ := leaves_reduced aligned atReducer reducerFull reducerDraft atDraft isDraft 2
    unit two ready2 (by omega) (Nat.dvd_refl _)
  have curr2 : three.currHitLength = unit := by rw [leaves2, fall2, rest]
  obtain ⟨wide0, _⟩ := draft_of_round aligned atReducer reducerFull reducerDraft atDraft isDraft 0
    (3 * unit) (initial (3 * unit)) ready0 (Nat.le_refl _) whole0
  obtain ⟨wide1, narrow1⟩ := draft_of_round aligned atReducer reducerFull reducerDraft atDraft isDraft 1
    (2 * unit) one ready1 (by omega) whole1
  obtain ⟨_, narrow2⟩ := draft_of_round aligned atReducer reducerFull reducerDraft atDraft isDraft 2
    unit two ready2 (by omega) (Nat.dvd_refl _)
  have held : Holds coordinator.toConfig two second (2 * unit) := by
    by_cases early : draft < reducer
    · simp only [early, if_true] at wide1
      exact wide1 (Nat.le_refl _)
    · simp only [early, if_false, reduce _ (show 2 * unit ≤ 3 * unit by omega)] at wide0
      simp only [early, if_false, reduce _ (Nat.le_refl (2 * unit))] at narrow1
      have before := wide0 (by omega)
      exact (before.congr (narrow1 (by omega) (by omega))).of_eq (by omega)
  simp only [rest, ite_self] at narrow2
  exact ⟨curr0, curr1, curr2, held.congr (narrow2 positive (by omega))⟩

/-- When a group that is neither draft nor full attention can retreat behind the draft group's
window, the draft group keeps a list for a longer hit. -/
theorem stale_draft : ¬ ReconcilesDrafts coordinator.toConfig := by
  intro reconciles
  have member := first_id_mem (group_ids_nonempty coordinator.toConfig draft second atDraft)
  obtain ⟨entry, stored, spec, _⟩ := spec_of_id coordinator.toConfig draft _ second atDraft member
  have blockPositive : 0 < coordinator.groupBlockSize second.spec :=
    spec ▸ coordinator.blocks_positive entry (List.mem_of_getElem? stored)
  obtain ⟨blocks, blocksAre⟩ : ∃ blocks, blocks = coordinator.cacheHitAlignmentTokens := ⟨_, rfl⟩
  have some_block : 0 < blocks := blocksAre ▸ coordinator.alignment_positive
  -- Whole units are aligned hits and fill whole blocks of the draft group.
  obtain ⟨unit, unitIs⟩ : ∃ unit, unit = blocks * coordinator.groupBlockSize second.spec := ⟨_, rfl⟩
  have positive : 0 < unit := unitIs ▸ Nat.mul_pos some_block blockPositive
  have aligned : coordinator.cacheHitAlignmentTokens ∣ unit :=
    unitIs ▸ blocksAre ▸ Nat.dvd_mul_right _ _
  obtain ⟨curr0, curr1, curr2, held⟩ := three_rounds coordinator reducer draft first second atReducer
    reducerFull reducerDraft atDraft isDraft unit positive aligned
  have simple := not_simple coordinator reducer draft first second atReducer reducerFull reducerDraft
    atDraft isDraft
  obtain ⟨result, found, covers⟩ := reconciles (retreating coordinator.toConfig reducer draft unit)
    (3 * unit)
  have run := found (3 * unit + 3) (by omega)
  have going0 : ¬ 2 * unit ≥ 3 * unit := by omega
  have going1 : ¬ unit ≥ 2 * unit := by omega
  simp only [findLongestCacheHit, rounds, curr0, curr1, curr2, going0, going1, simple, if_false,
    Bool.false_eq_true, ge_iff_le, Nat.le_refl, if_true, Option.map_some, Option.some.injEq] at run
  obtain ⟨returned, there, exact_⟩ := covers _ entry stored (by rw [spec]; exact isDraft)
  have other : second.spec.isFull = false := by
    cases full : second.spec.isFull with
    | false => rfl
    | true => exact absurd isDraft (by simp [not_draft_of_full full])
  obtain ⟨_, list, listed, size⟩ := held _ member
  rw [← run, cacheHit_blocks _ _ _ entry stored,
    trimmed_other _ _ draft second atDraft _ member other, listed] at there
  have same : list = returned := Option.some.inj there
  have twice : list.length = 2 * blocks := by
    rw [size, unitIs, ← Nat.mul_assoc, cdiv_mul _ _ blockPositive]
  rcases exact_ with empty | exact_
  · rw [same, empty] at twice
    simp at twice
    omega
  · rw [← run, spec] at exact_
    rw [show (cacheHit coordinator.toConfig unit _).hitLength = unit from rfl, ← same, twice, unitIs,
      cdiv_mul _ _ blockPositive] at exact_
    omega

end Stale

/-- The lookup returns fresh or exact draft lists, for all finders and lengths, exactly for the
configurations where no draft group takes part or every other group is full attention. -/
theorem drafts_reconciled_iff (coordinator : Coordinator) :
    ReconcilesDrafts coordinator.toConfig ↔ draftsSettled coordinator.toConfig = true := by
  constructor
  · intro reconciles
    by_contra unsettled
    obtain ⟨someDraft, someOther⟩ := Bool.or_eq_false_iff.mp (Bool.of_not_eq_true unsettled)
    obtain ⟨second, inSecond, isDraft⟩ := List.all_eq_false.mp someDraft
    obtain ⟨first, inFirst, isOther⟩ := List.all_eq_false.mp someOther
    obtain ⟨draft, atDraft⟩ := List.mem_iff_getElem?.mp inSecond
    obtain ⟨reducer, atReducer⟩ := List.mem_iff_getElem?.mp inFirst
    obtain ⟨notDraft, notFull⟩ := Bool.or_eq_false_iff.mp (Bool.of_not_eq_true isOther)
    exact stale_draft coordinator reducer draft first second atReducer notFull notDraft atDraft
      (by simpa using isDraft) reconciles
  · exact reconciles_of_settled

/-- A target with full attention and Mamba and a draft group between them, blocks of 16 tokens. -/
def draftBeforeMamba : Coordinator where
  kvCacheGroups := [
    { spec := ⟨.fullAttention, 16, false, true, 0⟩, isEagleGroup := false },
    { spec := ⟨.slidingWindow, 16, false, true, 0⟩, isEagleGroup := false },
    { spec := ⟨.mamba, 16, true, true, 0⟩, isEagleGroup := false }]
  useEagle := true
  schedulerBlockSize := 16
  hashBlockSize := 16
  dcpWorldSize := 1
  manager := fun spec => { blockSize := spec.blockSize, supportsFineGrainedHashLookup := true }
  hash_positive := Nat.zero_lt_succ 15
  scheduler_positive := Nat.zero_lt_succ 15
  blocks_positive := by decide
  scheduler_aligned := by decide
  hash_aligned := by decide
  context_parallel := by decide
  two_groups := by decide

/-- The draft group finds its window from 32 tokens on, the Mamba state is cached at 16. -/
def windowAndState (index candidate : Nat) : Nat :=
  if index = 1 then (if 32 ≤ candidate then candidate else 0)
  else if index = 2 then min candidate 16
  else candidate

/-- Nor do the finders of the failing input. -/
theorem windowAndState_le (index candidate : Nat) : windowAndState index candidate ≤ candidate := by
  unfold windowAndState
  split
  · split <;> omega
  · split
    · exact Nat.min_le_left _ _
    · exact Nat.le_refl _

/-- A prefix of 48 tokens: the hit is 16, one block, and the draft group returns the three
blocks of its first lookup. -/
theorem draft_keeps_first_round_blocks :
    (findLongestCacheHit draftBeforeMamba.toConfig (scripted draftBeforeMamba.toConfig windowAndState
        windowAndState_le).find 48 49).map
        (fun result => (result.hitLength, result.blocks.map List.length)) =
      some (16, [1, 3, 1]) ∧
    ¬ ReconcilesDrafts draftBeforeMamba.toConfig :=
  ⟨by decide, stale_draft draftBeforeMamba 2 1 _ _ rfl (by decide) (by decide) rfl (by decide)⟩

end GlmSpark.HybridDrafts
