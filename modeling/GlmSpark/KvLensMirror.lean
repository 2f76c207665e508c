import GlmSpark.KvLensRegistry
import GlmSpark.Runs

/-!
# The registry beside the device

The runner executes steps, adds requests, builds metadata and samples; the device
keeps the true counts, and the registry follows from its hooks. In every reachable
state each tracked entry either explains the device's count by the recorded steps
since then, or one of these steps has no usable record, in which case the entry is
not used. Hence known values are the device's counts and the planned lengths are
the device's lengths.

Two orders of the hooks are excluded because the registry relies on them: the builds
of a step precede its sample, and a step that adds requests builds. Without either
a known value is wrong, as the runs at the end show.
-/

namespace GlmSpark.KvLensMirror

open KvLens KvLensRegistry Runs

universe u
variable {ρ : Type u} [DecidableEq ρ]

section Runner

/-- A batch of a scheduled step: distinct requests, each with at least one token, and arrays that
cover all rows. -/
structure ScheduledBatch (ρ : Type u) extends InputBatch ρ where
  distinct : (reqIds.take numReqs).Nodup
  listed : numReqs ≤ reqIds.length
  mapped : numReqs ≤ idxMapping.length
  counted : numReqs ≤ numComputedTokens.length
  flagged : numReqs ≤ isPrefilling.length
  logits : numReqs < cuNumLogits.length
  located : numReqs < queryStartLoc.length
  first : startOf queryStartLoc 0 = 0
  tokens : ∀ row, row < numReqs → startOf queryStartLoc row < startOf queryStartLoc (row + 1)

/-- Rejected draft tokens of a row; a prefilling row rejects none. -/
def numRejected (batch : InputBatch ρ) (counts : List Int) (row : Nat) : Int :=
  if batch.isPrefilling.getD row false then 0
  else
    (startOf batch.cuNumLogits (row + 1) : Int) - (startOf batch.cuNumLogits row : Int) -
      counts.getD row 0

/-- Tokens the device adds to a row's count; filtered rows are skipped. -/
def computedDelta (batch : InputBatch ρ) (counts : List Int) (row : Nat) : Int :=
  if batch.idxMapping.getD row 0 < 0 then 0
  else
    (startOf batch.queryStartLoc (row + 1) : Int) - (startOf batch.queryStartLoc row : Int) -
      numRejected batch counts row

/-- The device after the step: every scheduled row advances. -/
def postUpdate (batch : InputBatch ρ) (counts : List Int) (device : ρ → Int) : ρ → Int :=
  fun reqId =>
    match batch.rows.idxOf? reqId with
    | none => device reqId
    | some row => device reqId + computedDelta batch counts row

/-- The registry, the device's counts, and whether the current step has sampled or built. -/
structure World (ρ : Type u) where
  globals : Globals ρ
  device : ρ → Int
  sampled : Bool
  built : Bool

/-- What the runner does. A build is given what the events answer and whether a graph is being
captured; a sample is given the true counts and what the host receives of them. -/
inductive Event (ρ : Type u)
  | execute (real desync : Bool)
  | add (reqId : ρ) (count : Int)
  | batch (inputBatch : ScheduledBatch ρ)
  | build (cam : Cam) (query : Nat → Bool) (capturing : Bool)
  | sample (counts : List Int) (output : Option AsyncOutput)

/-- The batch of the current step was noted. -/
def World.Noted (world : World ρ) : Prop :=
  world.globals.registry.currentIbSerial = world.globals.registry.serial

/-- Whether the batch of the step was noted is read off the state. -/
instance (world : World ρ) : Decidable world.Noted :=
  inferInstanceAs (Decidable (_ = _))

/-- Replace the registry. -/
def World.withRegistry (world : World ρ) (registry : Registry ρ) : World ρ :=
  { world with globals := { world.globals with registry := registry } }

/-- One step of the runner, the device and the hooks. -/
def step (config : Config) (world : World ρ) : Event ρ → World ρ
  | .execute real desync =>
    let registry := world.globals.registry
    if real then
      { world.withRegistry (registry.noteSerial.noteDesync desync) with
        sampled := false, built := false }
    else world.withRegistry (registry.noteDesync desync)
  | .add reqId count =>
    { world.withRegistry (world.globals.registry.noteAdded reqId) with
      device := Function.update world.device reqId count }
  | .batch inputBatch =>
    world.withRegistry (world.globals.registry.noteCurrentBatch inputBatch.toInputBatch)
  | .build cam query capturing =>
    { world with
      globals := (patchedKvLensHost config query capturing world.globals cam).2
      built := world.built || (decide world.Noted && (world.globals.reentered cam).isNone) }
  | .sample counts output =>
    match world.globals.registry.currentIb with
    | none => world
    | some batch =>
      let registry :=
        match output with
        | none => world.globals.registry
        | some output => world.globals.registry.noteSample batch output
      { world.withRegistry registry with
        device := postUpdate batch counts world.device
        sampled := true }

/-- The device's counts by row of a batch. -/
def rowCounts (device : ρ → Int) (batch : InputBatch ρ) (row : Nat) : Int :=
  match batch.rows[row]? with
  | none => 0
  | some reqId => device reqId

/-- Metadata that belongs to a batch: the same rows, padded by requests without tokens, and device
data that agree with the counts. The comparison mode only runs where these data are exact. -/
structure Matches (config : Config) (device : ρ → Int) (batch : InputBatch ρ) (cam : Cam) :
    Prop where
  faithful : Faithful config.builder (rowCounts device batch) cam
  fits : batch.numReqs ≤ cam.numReqs
  starts : ∀ row, row ≤ batch.numReqs →
    cam.queryStartLocCpu[row]? = some (startOf batch.queryStartLoc row)
  padding : ∀ row, batch.numReqs ≤ row → row < cam.numReqs → queryLen cam.queryStartLocCpu row = 0
  compared : config.debug = true →
    (originalBodyWithCtx config.builder cam).branch ≠ .optimisticSeqLens

/-- What the runner promises about the order and the contents of its calls. -/
def allowed (config : Config) (world : World ρ) : Event ρ → Prop
  | .execute real _ =>
    real = true → world.globals.registry.addedNow = [] ∨ world.built = true
  | .add _ _ => ¬ world.Noted
  | .batch inputBatch =>
    ¬ world.Noted ∧ ∀ reqId ∈ world.globals.registry.addedNow, ∃ row, row < inputBatch.numReqs ∧
      inputBatch.rows[row]? = some reqId ∧
      inputBatch.numComputedTokens[row]? = some (world.device reqId)
  | .build cam _ _ =>
    cam.step = world.globals.registry.serial ∧ world.sampled = false ∧
      (∀ last, world.globals.lastCam = some last → Cam.same last cam → last = cam) ∧
      (world.Noted → ∀ batch, world.globals.registry.currentIb = some batch →
        Matches config world.device batch cam)
  | .sample counts output =>
    world.Noted ∧ world.sampled = false ∧
      ∀ seen, output.bind AsyncOutput.numSampledTokens = some seen → seen = counts

/-- The registry beside the runner, from a fresh process on. -/
def mirror (config : Config) (device : ρ → Int) : System (World ρ) (Event ρ) where
  initial := ⟨Globals.initial, device, false, false⟩
  step := step config
  allowed := allowed config

/-- The device's counts by row of the current batch. -/
def World.counts (world : World ρ) : Nat → Int :=
  match world.globals.registry.currentIb with
  | none => fun _ => 0
  | some batch => rowCounts world.device batch

/-- The lengths of the device for one build: its counts with the tokens of the step. -/
def World.exactLens (config : Config) (world : World ρ) (cam : Cam) : Nat × List Int :=
  deviceLens config.builder.indexer world.counts cam.queryStartLocCpu cam.numReqs

end Runner

section Invariant

/-- The sample of a step lies in the past. -/
def World.Closed (world : World ρ) (serial : Nat) : Prop :=
  serial < world.globals.registry.serial ∨
    serial = world.globals.registry.serial ∧ world.sampled = true

/-- Every past step from one serial on has a record that accounts for the request. -/
def World.Accounted (world : World ρ) (reqId : ρ) (fromSerial : Nat) : Prop :=
  ∀ serial, fromSerial ≤ serial → world.Closed serial →
    ∃ record ∈ world.globals.registry.records, record.serial = serial ∧ record.Accounts reqId

/-- The entry explains the device's count unless a step is unaccounted for. -/
def World.Explains (world : World ρ) (reqId : ρ) (entry : TrackerEntry) : Prop :=
  entry.serial ≤ world.globals.registry.serial ∧
    (world.Accounted reqId entry.serial →
      world.device reqId =
        entry.value + pending world.globals.registry.records entry.serial reqId)

/-- The current batch is one of a scheduled step and lists the added requests with their counts. -/
def World.BatchKnown (world : World ρ) : Prop :=
  ∃ batch : ScheduledBatch ρ, world.globals.registry.currentIb = some batch.toInputBatch ∧
    ∀ reqId ∈ world.globals.registry.addedNow, ∃ row, row < batch.numReqs ∧
      batch.rows[row]? = some reqId ∧
      (world.sampled = false → batch.numComputedTokens[row]? = some (world.device reqId))

/-- What holds in every reachable state: records are in order and closed, and a tracked count that
is unfolded by the later records is the device's. -/
structure Invariant (config : Config) (world : World ρ) : Prop where
  ordered : (world.globals.registry.records.map StepRecord.serial).Pairwise (· < ·)
  past : ∀ record ∈ world.globals.registry.records, world.Closed record.serial
  notAhead : world.globals.registry.currentIbSerial ≤ world.globals.registry.serial
  built : world.built = true → world.Noted
  current : world.Noted → world.BatchKnown
  tracked : ∀ reqId entry, world.globals.registry.tracker.lookup reqId = some entry →
    (reqId ∈ world.globals.registry.addedNow → world.built = true) → world.Explains reqId entry
  cached : ∀ cam result, world.globals.lastCam = some cam → world.globals.lastResult = some result →
    cam.step ≤ world.globals.registry.serial ∧
      (result = originalKvLens config.builder cam ∨
        (cam.step = world.globals.registry.serial → world.sampled = false →
          world.Noted ∧ result = world.exactLens config cam))

end Invariant

section Builds

variable {config : Config} {device : ρ → Int} {batch : ScheduledBatch ρ} {cam : Cam}

omit [DecidableEq ρ] in
/-- A scheduled batch has one row for every request it counts. -/
theorem rows_length (batch : ScheduledBatch ρ) : batch.rows.length = batch.numReqs := by
  rw [InputBatch.rows, List.length_take, Nat.min_eq_left batch.listed]

omit [DecidableEq ρ] in
/-- The count of a row is the count of its request. -/
theorem rowCounts_of_row (inputBatch : InputBatch ρ) (row : Nat) (reqId : ρ)
    (placed : inputBatch.rows[row]? = some reqId) : rowCounts device inputBatch row = device reqId := by
  rw [rowCounts, placed]

omit [DecidableEq ρ] in
/-- The rows of the metadata begin where the batch says, so every request has rows there. -/
theorem Matches.startOf_eq (agrees : Matches config device batch.toInputBatch cam) (row : Nat)
    (inside : row ≤ batch.numReqs) :
    startOf cam.queryStartLocCpu row = startOf batch.queryStartLoc row := by
  rw [startOf, List.getD_eq_getElem?_getD, agrees.starts row inside, Option.getD_some]

omit [DecidableEq ρ] in
/-- Every request has rows in the metadata. -/
theorem Matches.tokens (agrees : Matches config device batch.toInputBatch cam) (row : Nat)
    (inside : row < batch.numReqs) :
    startOf cam.queryStartLocCpu row < startOf cam.queryStartLocCpu (row + 1) := by
  rw [agrees.startOf_eq row (Nat.le_of_lt inside), agrees.startOf_eq (row + 1) inside]
  exact batch.tokens row inside

omit [DecidableEq ρ] in
/-- Metadata without rows belong to a batch without requests. -/
theorem Matches.no_requests (agrees : Matches config device batch.toInputBatch cam)
    (empty : startOf cam.queryStartLocCpu cam.numReqs = 0) : batch.rows = [] := by
  apply List.eq_nil_of_length_eq_zero
  rw [rows_length]
  by_contra some
  have inside : 0 < batch.numReqs := Nat.pos_of_ne_zero some
  have first := devicePositions_first (rowCounts device batch.toInputBatch) cam.queryStartLocCpu
    cam.numReqs 0 agrees.faithful.cumulative (Nat.lt_of_lt_of_le inside agrees.fits)
    (agrees.tokens 0 inside)
  have bounded := (List.getElem?_eq_some_iff.mp first).1
  rw [devicePositions_length _ _ _ agrees.faithful.cumulative, empty] at bounded
  exact absurd bounded (Nat.not_lt_zero _)

omit [DecidableEq ρ] in
/-- The counts of the rows give the device's lengths. -/
theorem Matches.lens (agrees : Matches config device batch.toInputBatch cam) :
    lensFromValues config.builder.indexer (batch.rows.map device) cam.queryStartLocCpu cam.numReqs =
      deviceLens config.builder.indexer (rowCounts device batch.toInputBatch) cam.queryStartLocCpu
        cam.numReqs := by
  apply lensFromValues_eq _ _ _ _ _ agrees.faithful.cumulative
  intro request inside rows
  have real : request < batch.rows.length := by
    rw [rows_length]
    by_contra padded
    have none := agrees.padding request (Nat.le_of_not_lt padded) inside
    omega
  rw [List.getElem?_map, List.getElem?_eq_getElem real, Option.map_some]
  exact congrArg some (rowCounts_of_row _ request _ (List.getElem?_eq_getElem real)).symm

/-- After a build the entries of the batch are the device's counts or gone, and all other entries
and the rest of the registry are unchanged. -/
structure Rebased (inputBatch : InputBatch ρ) (device : ρ → Int) (before after : Registry ρ) :
    Prop where
  frame : after = { before with tracker := after.tracker }
  entries : ∀ reqId entry, after.tracker.lookup reqId = some entry →
    (reqId ∈ inputBatch.rows ∧ entry = ⟨device reqId, before.serial⟩) ∨
      (reqId ∉ inputBatch.rows ∧ before.tracker.lookup reqId = some entry)

/-- Anchoring the rows at the device's counts rebases them. -/
theorem rebased_of_anchor (inputBatch : InputBatch ρ) (registry : Registry ρ) :
    Rebased inputBatch device registry { registry with
      tracker := anchor registry.serial
        (inputBatch.rows.map fun reqId => (reqId, device reqId)) registry.tracker } where
  frame := rfl
  entries := by
    intro reqId entry stored
    dsimp only at stored
    rw [lookup_anchor] at stored
    split at stored
    next inside => exact Or.inl ⟨inside, (Option.some.inj stored).symm⟩
    next outside => exact Or.inr ⟨outside, stored⟩

/-- Committing the device's counts rebases the rows. -/
theorem rebased_commit (inputBatch : InputBatch ρ) (registry : Registry ρ) :
    Rebased inputBatch device registry
      (registry.commit inputBatch (inputBatch.rows.map device)) := by
  have pairs : inputBatch.rows.zip (inputBatch.rows.map device) =
      inputBatch.rows.map fun reqId => (reqId, device reqId) := by
    simpa using List.zip_map' (f := id) (g := device) (l := inputBatch.rows)
  rw [Registry.commit, pairs]
  exact rebased_of_anchor inputBatch registry

/-- An invalidation forgets the entries of the batch's rows, which is one way to be rebased;
requests outside the batch keep theirs. -/
theorem rebased_invalidate (inputBatch : InputBatch ρ) (registry : Registry ρ) :
    Rebased inputBatch device registry (registry.invalidate inputBatch) where
  frame := rfl
  entries := by
    intro reqId entry stored
    rw [Registry.invalidate] at stored
    dsimp only at stored
    rw [lookup_eraseAll] at stored
    split at stored
    next => exact absurd stored (by simp)
    next outside => exact Or.inr ⟨outside, stored⟩

/-- Doing nothing rebases a batch without requests. -/
theorem rebased_empty (inputBatch : InputBatch ρ) (registry : Registry ρ)
    (empty : inputBatch.rows = []) : Rebased inputBatch device registry registry where
  frame := rfl
  entries := by
    intro reqId entry stored
    exact Or.inr ⟨by simp [empty], stored⟩

/-- Healing from the contexts of the device's positions rebases the rows. -/
theorem rebased_heal (registry : Registry ρ)
    (agrees : Matches config device batch.toInputBatch cam) :
    Rebased batch.toInputBatch device registry (registry.heal batch.toInputBatch
      (some ((devicePositions (rowCounts device batch.toInputBatch) cam.queryStartLocCpu
        cam.numReqs).map (· + 1))) cam.queryStartLocCpu) := by
  have read : ∀ entry ∈ batch.rows.zipIdx, (cam.queryStartLocCpu[entry.2]?).bind
      (((devicePositions (rowCounts device batch.toInputBatch) cam.queryStartLocCpu
        cam.numReqs).map (· + 1))[·]?) = some (device entry.1 + 1) := by
    rintro ⟨reqId, row⟩ listed
    have placed : batch.rows[row]? = some reqId := by
      simpa [List.mem_zipIdx_iff_getElem?] using listed
    have inside : row < batch.numReqs := by
      rw [← rows_length]
      exact (List.getElem?_eq_some_iff.mp placed).1
    have first := devicePositions_first (rowCounts device batch.toInputBatch) cam.queryStartLocCpu
      cam.numReqs row agrees.faithful.cumulative (Nat.lt_of_lt_of_le inside agrees.fits)
      (agrees.tokens row inside)
    rw [agrees.startOf_eq row (Nat.le_of_lt inside)] at first
    simp [agrees.starts row (Nat.le_of_lt inside), first, rowCounts_of_row _ row reqId placed]
  have names : batch.rows.zipIdx.map Prod.fst = batch.rows := by
    simp [List.zipIdx_map_fst]
  simp only [Registry.heal]
  rw [healRows_eq _ _ _ device _ _ read, names]
  exact rebased_of_anchor batch.toInputBatch registry

/-- The deployed body rebases the current batch. -/
theorem rebased_deviceBuild (registry : Registry ρ)
    (noted : registry.currentIbSerial = registry.serial)
    (current : registry.currentIb = some batch.toInputBatch)
    (agrees : Matches config device batch.toInputBatch cam) :
    Rebased batch.toInputBatch device registry (deviceBuild config registry cam).2 := by
  rw [deviceBuild]
  simp only [current, noted, if_true]
  rcases originalBody_cases agrees.faithful with ⟨branch, empty, _, _, _⟩ | branch |
    ⟨branch, _, ctx, stored, _, exact⟩
  · simp only [branch]
    exact rebased_empty _ registry (agrees.no_requests empty)
  · simp only [branch]
    exact rebased_invalidate _ registry
  · have healed := rebased_heal registry agrees
    rcases branch with branch | branch
    all_goals
      simp only [branch, stored, exact]
      exact healed

/-- A build from the device's counts rebases the current batch. -/
theorem rebased_hostBuild (registry : Registry ρ)
    (agrees : Matches config device batch.toInputBatch cam) :
    Rebased batch.toInputBatch device registry
      (hostBuild config registry batch.toInputBatch (batch.rows.map device) cam).2 := by
  rw [hostBuild]
  cases mode : config.debug with
  | false => exact rebased_commit batch.toInputBatch registry
  | true =>
    simp only [if_true]
    rcases originalBody_cases agrees.faithful with ⟨_, empty, _, ctx, _⟩ | branch |
      ⟨_, _, ctx, stored, _, exact⟩
    · rw [ctx]
      exact rebased_empty _ registry (agrees.no_requests empty)
    · exact absurd branch (agrees.compared mode)
    · rw [stored, exact]
      exact rebased_heal registry agrees

/-- A build from the device's counts returns the device's lengths. -/
theorem hostBuild_lens (registry : Registry ρ)
    (agrees : Matches config device batch.toInputBatch cam) :
    (hostBuild config registry batch.toInputBatch (batch.rows.map device) cam).1 =
      deviceLens config.builder.indexer (rowCounts device batch.toInputBatch) cam.queryStartLocCpu
        cam.numReqs := by
  rw [hostBuild, agrees.lens]
  cases mode : config.debug with
  | false => rfl
  | true =>
    have same := originalKvLens_eq agrees.faithful (agrees.compared mode)
    rw [originalKvLens] at same
    simp only [if_true]
    rw [← same]

end Builds

section Preservation

variable {config : Config} {world : World ρ}

/-- Known values of the current batch are the device's counts. -/
theorem Invariant.hostValues_exact (invariant : Invariant config world)
    (before : world.sampled = false) (batch : InputBatch ρ)
    (current : world.globals.registry.currentIb = some batch) (query : Nat → Bool)
    (values : List Int)
    (known : world.globals.registry.hostValues query (some batch) = some values) :
    world.Noted ∧ values = batch.rows.map world.device := by
  rw [Registry.hostValues] at known
  split at known
  next => exact absurd known (by simp)
  next usable =>
    have noted : world.Noted := by
      by_contra unnoted
      exact usable (Or.inr unnoted)
    obtain ⟨scheduled, same, added⟩ := invariant.current noted
    have listed := rowValues_spec world.globals.registry query batch world.device batch.rows.zipIdx
      values ?_ ?_ known
    · have names : batch.rows.zipIdx.map Prod.fst = batch.rows := by simp
      refine ⟨noted, ?_⟩
      calc values = batch.rows.zipIdx.map fun entry => world.device entry.1 := listed
        _ = (batch.rows.zipIdx.map Prod.fst).map world.device := by
          rw [List.map_map]
          rfl
        _ = batch.rows.map world.device := by rw [names]
    · rintro ⟨reqId, row⟩ entry isNew
      have placed : batch.rows[row]? = some reqId := by
        simpa [List.mem_zipIdx_iff_getElem?] using entry
      have eq : batch = scheduled.toInputBatch := Option.some.inj (current.symm.trans same)
      obtain ⟨found, _, there, count⟩ := added reqId isNew
      have row_eq : found = row := by
        rw [eq] at placed
        have bounded := (List.getElem?_eq_some_iff.mp there).1
        exact (List.getElem?_inj bounded scheduled.distinct).mp (there.trans placed.symm)
      rw [eq, ← row_eq]
      exact count before
    · rintro ⟨reqId, row⟩ _ old value unfolded
      obtain ⟨entry, stored, total, complete, accounts⟩ :=
        unfoldValue_spec world.globals.registry query reqId value unfolded
      obtain ⟨_, explains⟩ := invariant.tracked reqId entry stored fun isNew => absurd isNew old
      have accounted : world.Accounted reqId entry.serial := by
        rintro serial since (earlier | ⟨_, sampled⟩)
        · obtain ⟨record, there, own⟩ := complete serial since earlier
          exact ⟨record, there, own, accounts record there (own ▸ since)⟩
        · rw [before] at sampled
          exact absurd sampled (by simp)
      rw [total, ← explains accounted]

/-- Before the sample of a step all records are of earlier steps. -/
theorem Invariant.records_before (invariant : Invariant config world)
    (before : world.sampled = false) (record : StepRecord ρ)
    (stored : record ∈ world.globals.registry.records) :
    record.serial < world.globals.registry.serial := by
  rcases invariant.past record stored with earlier | ⟨_, sampled⟩
  · exact earlier
  · rw [before] at sampled
    exact absurd sampled (by simp)

omit [DecidableEq ρ] in
/-- A known batch is the current one, so its counts are the world's. -/
theorem exactLens_eq (batch : InputBatch ρ) (cam : Cam)
    (current : world.globals.registry.currentIb = some batch) :
    world.exactLens config cam = deviceLens config.builder.indexer (rowCounts world.device batch)
      cam.queryStartLocCpu cam.numReqs := by
  rw [World.exactLens, World.counts, current]

/-- What a build can do: repeat the last result, leave the registry alone before the batch is
known, or rebase the current batch. -/
theorem build_cases (invariant : Invariant config world) (cam : Cam) (query : Nat → Bool)
    (capturing : Bool) (sent : allowed config world (.build cam query capturing)) :
    let after := patchedKvLensHost config query capturing world.globals cam
    (world.globals.reentered cam = some after.1 ∧ after.2 = world.globals) ∨
      (world.globals.reentered cam = none ∧
        after.2.lastCam = some cam ∧ after.2.lastResult = some after.1 ∧
        ((¬ world.Noted ∧ world.globals.registry.eligibleValues query capturing = none ∧
            after.1 = originalKvLens config.builder cam ∧
            after.2.registry = world.globals.registry) ∨
          world.Noted ∧ ∃ batch : ScheduledBatch ρ,
            world.globals.registry.currentIb = some batch.toInputBatch ∧
            Matches config world.device batch.toInputBatch cam ∧
            Rebased batch.toInputBatch world.device world.globals.registry after.2.registry ∧
            ((world.globals.registry.eligibleValues query capturing = none ∧
                after.1 = originalKvLens config.builder cam) ∨
              (world.globals.registry.eligibleValues query capturing).isSome = true ∧
                after.1 = world.exactLens config cam))) := by
  intro after
  obtain ⟨_, before, _, agree⟩ := sent
  cases again : world.globals.reentered cam with
  | some result =>
    left
    simp [after, patchedKvLensHost, again]
  | none =>
    right
    by_cases noted : world.Noted
    · obtain ⟨batch, current, _⟩ := invariant.current noted
      have agrees := agree noted batch.toInputBatch current
      cases eligible : world.globals.registry.eligibleValues query capturing with
      | none =>
        have done : after = ((deviceBuild config world.globals.registry cam).1,
            ⟨(deviceBuild config world.globals.registry cam).2, some cam,
              some (deviceBuild config world.globals.registry cam).1⟩) := by
          simp only [after, patchedKvLensHost, again, current, eligible]
        rw [done]
        refine ⟨rfl, rfl, rfl, Or.inr ⟨noted, batch, current, agrees, ?_, Or.inl ⟨rfl, rfl⟩⟩⟩
        exact rebased_deviceBuild world.globals.registry noted current agrees
      | some values =>
        have known : world.globals.registry.hostValues query (some batch.toInputBatch) =
            some values := by
          rw [Registry.eligibleValues, current] at eligible
          dsimp only at eligible
          split at eligible
          · exact eligible
          · exact absurd eligible (by simp)
        obtain ⟨_, rfl⟩ := invariant.hostValues_exact before batch.toInputBatch current query values
          known
        have done : after = ((hostBuild config world.globals.registry batch.toInputBatch
              (batch.rows.map world.device) cam).1,
            ⟨(hostBuild config world.globals.registry batch.toInputBatch
              (batch.rows.map world.device) cam).2, some cam,
              some (hostBuild config world.globals.registry batch.toInputBatch
                (batch.rows.map world.device) cam).1⟩) := by
          simp only [after, patchedKvLensHost, again, current, eligible]
        rw [done]
        refine ⟨rfl, rfl, rfl, Or.inr ⟨noted, batch, current, agrees, ?_, Or.inr ⟨rfl, ?_⟩⟩⟩
        · exact rebased_hostBuild world.globals.registry agrees
        · rw [exactLens_eq batch.toInputBatch cam current]
          exact hostBuild_lens world.globals.registry agrees
    · have serials : world.globals.registry.currentIbSerial ≠ world.globals.registry.serial := noted
      have none : world.globals.registry.eligibleValues query capturing = none := by
        rw [Registry.eligibleValues]
        split
        · rfl
        · rw [if_neg fun usable => serials usable.1]
      have done : after = (originalKvLens config.builder cam,
          ⟨world.globals.registry, some cam, some (originalKvLens config.builder cam)⟩) := by
        simp only [after, patchedKvLensHost, again, none, deviceBuild, serials, if_false]
        cases world.globals.registry.currentIb <;> rfl
      rw [done]
      exact ⟨rfl, rfl, rfl, Or.inl ⟨noted, none, rfl, rfl⟩⟩

/-- The beginning of a step keeps the invariant. -/
theorem invariant_execute (invariant : Invariant config world) (real desync : Bool)
    (sent : allowed config world (.execute real desync)) :
    Invariant config (step config world (.execute real desync)) := by
  cases real with
  | false =>
    exact ⟨invariant.ordered, invariant.past, invariant.notAhead, invariant.built,
      invariant.current, invariant.tracked, invariant.cached⟩
  | true =>
    have behind := invariant.notAhead
    constructor
    · exact invariant.ordered
    · intro record stored
      left
      rcases invariant.past record stored with earlier | ⟨same, _⟩
      · exact Nat.lt_succ_of_lt earlier
      · exact same ▸ Nat.lt_succ_self record.serial
    · simp only [step, World.withRegistry, Registry.noteDesync, Registry.noteSerial, if_true]
      push_cast
      omega
    · intro built
      exact absurd built (by simp [step])
    · intro noted
      simp only [World.Noted, step, World.withRegistry, Registry.noteDesync, Registry.noteSerial,
        if_true] at noted
      push_cast at noted
      omega
    · intro reqId entry stored _
      have built : reqId ∈ world.globals.registry.addedNow → world.built = true := by
        intro isNew
        rcases sent rfl with none | built
        · rw [none] at isNew
          exact absurd isNew List.not_mem_nil
        · exact built
      obtain ⟨past, explains⟩ := invariant.tracked reqId entry stored built
      refine ⟨Nat.le_succ_of_le past, fun accounted => explains fun serial since closed => ?_⟩
      apply accounted serial since
      left
      rcases closed with earlier | ⟨same, _⟩
      · exact Nat.lt_succ_of_lt earlier
      · exact same ▸ Nat.lt_succ_self serial
    · intro cam result last kept
      obtain ⟨past, device⟩ := invariant.cached cam result last kept
      refine ⟨Nat.le_succ_of_le past, ?_⟩
      rcases device with original | _
      · exact Or.inl original
      · right
        intro now
        exact absurd (Nat.lt_succ_of_le past) (by simp [now, step, World.withRegistry,
          Registry.noteDesync, Registry.noteSerial])

/-- Adding a request before the batch keeps the invariant. -/
theorem invariant_add (invariant : Invariant config world) (reqId : ρ) (count : Int)
    (unnoted : ¬ world.Noted) : Invariant config (step config world (.add reqId count)) := by
  have unbuilt : world.built ≠ true := fun built => unnoted (invariant.built built)
  constructor
  · exact invariant.ordered
  · exact invariant.past
  · exact invariant.notAhead
  · exact invariant.built
  · intro noted
    exact absurd noted unnoted
  · intro other entry stored built
    have old : other ∉ reqId :: world.globals.registry.addedNow := fun isNew => unbuilt (built isNew)
    rw [List.mem_cons, not_or] at old
    obtain ⟨past, explains⟩ := invariant.tracked other entry stored fun isNew => absurd isNew old.2
    refine ⟨past, fun accounted => ?_⟩
    have kept : (step config world (.add reqId count)).device other = world.device other := by
      simp [step, old.1]
    rw [kept]
    exact explains accounted
  · intro cam result last kept
    obtain ⟨past, original | device⟩ := invariant.cached cam result last kept
    · exact ⟨past, Or.inl original⟩
    · exact ⟨past, Or.inr fun now before => absurd (device now before).1 unnoted⟩

/-- Noting the batch of a step keeps the invariant. -/
theorem invariant_batch (invariant : Invariant config world) (inputBatch : ScheduledBatch ρ)
    (sent : allowed config world (.batch inputBatch)) :
    Invariant config (step config world (.batch inputBatch)) := by
  obtain ⟨unnoted, added⟩ := sent
  constructor
  · exact invariant.ordered
  · exact invariant.past
  · exact Int.le_refl _
  · intro _
    rfl
  · intro _
    refine ⟨inputBatch, rfl, fun reqId isNew => ?_⟩
    obtain ⟨row, inside, placed, count⟩ := added reqId isNew
    exact ⟨row, inside, placed, fun _ => count⟩
  · exact invariant.tracked
  · intro cam result last kept
    obtain ⟨past, original | device⟩ := invariant.cached cam result last kept
    · exact ⟨past, Or.inl original⟩
    · exact ⟨past, Or.inr fun now before => absurd (device now before).1 unnoted⟩

/-- A metadata build keeps the invariant, whether it uses host values, falls back, heals or
captures. -/
theorem invariant_build (invariant : Invariant config world) (cam : Cam) (query : Nat → Bool)
    (capturing : Bool) (sent : allowed config world (.build cam query capturing)) :
    Invariant config (step config world (.build cam query capturing)) := by
  obtain ⟨now, before, _, _⟩ := id sent
  have after := build_cases invariant cam query capturing sent
  dsimp only at after
  rw [step]
  generalize patchedKvLensHost config query capturing world.globals cam = outcome at after ⊢
  obtain ⟨result, registry, last, lastResult⟩ := outcome
  dsimp only at after ⊢
  rcases after with ⟨again, same⟩ | ⟨fresh, rfl, rfl,
    ⟨unnoted, _, rfl, rfl⟩ | ⟨noted, batch, current, _, rebased, lens⟩⟩
  · have built : (world.built || (decide world.Noted && (world.globals.reentered cam).isNone)) =
        world.built := by
      simp [again]
    rw [built, same]
    exact invariant
  · have built : (world.built || (decide world.Noted && (world.globals.reentered cam).isNone)) =
        world.built := by
      simp [unnoted]
    rw [built]
    refine ⟨invariant.ordered, invariant.past, invariant.notAhead, invariant.built,
      invariant.current, invariant.tracked, ?_⟩
    intro last kept lastCam lastResult
    obtain rfl : cam = last := Option.some.inj lastCam
    exact ⟨Nat.le_of_eq now, Or.inl (Option.some.inj lastResult).symm⟩
  · obtain ⟨tracker, frame⟩ : ∃ tracker,
        registry = { world.globals.registry with tracker := tracker } := ⟨_, rebased.frame⟩
    have entries := rebased.entries
    subst frame
    have lenses : result = originalKvLens config.builder cam ∨
        result = world.exactLens config cam := lens.imp And.right And.right
    constructor
    · exact invariant.ordered
    · exact invariant.past
    · exact invariant.notAhead
    · intro _
      exact noted
    · intro _
      exact invariant.current noted
    · intro reqId entry stored _
      rcases entries reqId entry stored with ⟨_, rfl⟩ | ⟨outside, kept⟩
      · refine ⟨Nat.le_refl _, fun _ => ?_⟩
        have none := pending_eq_zero world.globals.registry.records world.globals.registry.serial
          reqId (invariant.records_before before)
        dsimp only
        rw [none, Int.add_zero]
      · apply invariant.tracked reqId entry kept
        intro isNew
        obtain ⟨scheduled, same, added⟩ := invariant.current noted
        obtain ⟨row, _, placed, _⟩ := added reqId isNew
        have eq : batch.toInputBatch = scheduled.toInputBatch :=
          Option.some.inj (current.symm.trans same)
        exact absurd (List.mem_of_getElem? placed) (eq ▸ outside)
    · intro last kept lastCam lastResult
      obtain rfl : cam = last := Option.some.inj lastCam
      obtain rfl : result = kept := Option.some.inj lastResult
      refine ⟨Nat.le_of_eq now, ?_⟩
      rcases lenses with original | device
      · exact Or.inl original
      · exact Or.inr fun _ _ => ⟨noted, device⟩

/-- The record of a sampled batch advances a request as the device does, when it accounts for it. -/
theorem postUpdate_eq (serial : Nat) (batch : InputBatch ρ) (counts : List Int)
    (device : ρ → Int) (output : AsyncOutput)
    (right : ∀ seen, output.numSampledTokens = some seen → seen = counts) (reqId : ρ)
    (accounts : (stepRecord serial batch output).Accounts reqId) :
    postUpdate batch counts device reqId =
      device reqId + (stepRecord serial batch output).deltaOf reqId := by
  rw [postUpdate, StepRecord.deltaOf]
  have place : (stepRecord serial batch output).rowOf reqId = batch.rows.idxOf? reqId := rfl
  cases found : batch.rows.idxOf? reqId with
  | none => simp [place, found]
  | some row =>
    have sampled : output.numSampledTokens.isSome := by
      rcases accounts with absent | present
      · rw [place, found] at absent
        exact absurd absent (by simp)
      · exact present
    obtain ⟨seen, stored⟩ := Option.isSome_iff_exists.mp sampled
    rw [place, found]
    simp only [StepRecord.deltaFor, computedDelta, numRejected, stepRecord, stored, right seen stored]
    by_cases filtered : batch.idxMapping.getD row 0 < 0
    · simp only [filtered, if_true]
    · simp only [filtered, if_false]
      cases batch.isPrefilling.getD row false <;> simp

/-- A recorded sample keeps what an entry explains. -/
theorem explains_recorded (invariant : Invariant config world) (before : world.sampled = false)
    (records : List (StepRecord ρ)) (record : StepRecord ρ) (device : ρ → Int)
    (pushed : ∃ dropped kept, world.globals.registry.records = dropped ++ kept ∧
      records = kept ++ [record])
    (now : record.serial = world.globals.registry.serial) (reqId : ρ) (entry : TrackerEntry)
    (advances : record.Accounts reqId → device reqId = world.device reqId + record.deltaOf reqId)
    (explains : world.Explains reqId entry)
    (accounted : ∀ serial, entry.serial ≤ serial → serial ≤ world.globals.registry.serial →
      ∃ record ∈ records, record.serial = serial ∧ record.Accounts reqId) :
    device reqId = entry.value + pending records entry.serial reqId := by
  obtain ⟨dropped, kept, old, rfl⟩ := pushed
  obtain ⟨past, explained⟩ := explains
  have ordered := invariant.ordered
  rw [old, List.map_append, List.pairwise_append] at ordered
  have earlier : ∀ other ∈ kept, other.serial < world.globals.registry.serial := fun other stored =>
    invariant.records_before before other (old ▸ List.mem_append_right dropped stored)
  -- The newest record accounts for the request, since no kept one has its serial.
  have newest : record.Accounts reqId := by
    obtain ⟨other, stored, same, accounts⟩ := accounted world.globals.registry.serial past
      (Nat.le_refl _)
    rcases List.mem_append.mp stored with inKept | isNew
    · exact absurd same (Nat.ne_of_lt (earlier other inKept))
    · rw [List.mem_singleton] at isNew
      exact isNew ▸ accounts
  have accountedBefore : world.Accounted reqId entry.serial := by
    rintro serial since (closed | ⟨_, sampled⟩)
    · obtain ⟨other, stored, same, accounts⟩ := accounted serial since (Nat.le_of_lt closed)
      rcases List.mem_append.mp stored with inKept | isNew
      · exact ⟨other, old ▸ List.mem_append_right dropped inKept, same, accounts⟩
      · rw [List.mem_singleton] at isNew
        subst isNew
        omega
    · rw [before] at sampled
      exact absurd sampled (by simp)
  -- A dropped record of a needed step would be missing now.
  have unneeded : pending dropped entry.serial reqId = 0 := by
    apply pending_eq_zero
    intro lost there
    by_contra needed
    have lostBefore := invariant.records_before before lost (old ▸ List.mem_append_left kept there)
    obtain ⟨other, stored, same, _⟩ := accounted lost.serial (Nat.le_of_not_lt needed)
      (Nat.le_of_lt lostBefore)
    rcases List.mem_append.mp stored with inKept | isNew
    · have later := ordered.2.2 lost.serial (List.mem_map_of_mem there) other.serial
        (List.mem_map_of_mem inKept)
      omega
    · rw [List.mem_singleton] at isNew
      subst isNew
      omega
  have value := explained accountedBefore
  rw [old, pending_append, unneeded] at value
  rw [pending_append, pending_single record entry.serial reqId (now ▸ past), advances newest, value]
  omega

/-- The sample of a step keeps the invariant. -/
theorem invariant_sample (invariant : Invariant config world) (counts : List Int)
    (output : Option AsyncOutput) (sent : allowed config world (.sample counts output)) :
    Invariant config (step config world (.sample counts output)) := by
  obtain ⟨noted, before, right⟩ := sent
  obtain ⟨batch, current, added⟩ := invariant.current noted
  rw [step, current]
  cases output with
  | none =>
    constructor
    · exact invariant.ordered
    · intro record stored
      exact Or.inl (invariant.records_before before record stored)
    · exact invariant.notAhead
    · intro _
      exact noted
    · intro _
      refine ⟨batch, current, fun reqId isNew => ?_⟩
      obtain ⟨row, inside, placed, _⟩ := added reqId isNew
      exact ⟨row, inside, placed, fun unsampled => absurd unsampled (by simp)⟩
    · intro reqId entry stored built
      obtain ⟨past, _⟩ := invariant.tracked reqId entry stored built
      refine ⟨past, fun accounted => ?_⟩
      -- The step just sampled has no record, so nothing is claimed of the entry.
      obtain ⟨record, there, same, _⟩ := accounted _ past (Or.inr ⟨rfl, rfl⟩)
      exact absurd same (Nat.ne_of_lt (invariant.records_before before record there))
    · intro cam result last kept
      obtain ⟨past, original | _⟩ := invariant.cached cam result last kept
      · exact ⟨past, Or.inl original⟩
      · exact ⟨past, Or.inr fun _ unsampled => absurd unsampled (by simp)⟩
  | some output =>
    obtain ⟨tracker, sampled, pruned⟩ := noteSample_spec world.globals.registry batch.toInputBatch output
    dsimp only
    rw [sampled]
    obtain ⟨dropped, kept, old, pushed⟩ := pushRecord_suffix world.globals.registry.records
      (stepRecord world.globals.registry.serial batch.toInputBatch output)
    have earlier : ∀ record ∈ kept, record.serial < world.globals.registry.serial :=
      fun record stored => invariant.records_before before record
        (old ▸ List.mem_append_right dropped stored)
    constructor
    · have ordered := invariant.ordered
      rw [old, List.map_append, List.pairwise_append] at ordered
      dsimp only [World.withRegistry]
      rw [pushed, List.map_append, List.pairwise_append]
      refine ⟨ordered.2.1, List.pairwise_singleton _ _, ?_⟩
      intro serial stored newest isNew
      obtain ⟨record, there, rfl⟩ := List.mem_map.mp stored
      rw [List.map_singleton, List.mem_singleton] at isNew
      exact isNew ▸ earlier record there
    · intro record stored
      dsimp only [World.withRegistry] at stored
      rw [pushed, List.mem_append, List.mem_singleton] at stored
      rcases stored with there | rfl
      · exact Or.inl (earlier record there)
      · exact Or.inr ⟨rfl, rfl⟩
    · exact invariant.notAhead
    · intro _
      exact noted
    · intro _
      refine ⟨batch, current, fun reqId isNew => ?_⟩
      obtain ⟨row, inside, placed, _⟩ := added reqId isNew
      exact ⟨row, inside, placed, fun unsampled => absurd unsampled (by simp)⟩
    · intro reqId entry stored built
      have explains := invariant.tracked reqId entry (pruned reqId entry stored) built
      refine ⟨explains.1, fun accounted => ?_⟩
      apply explains_recorded invariant before _ _ _ ⟨dropped, kept, old, pushed⟩ rfl reqId entry
        (postUpdate_eq _ _ counts world.device output right reqId) explains
      intro serial since closed
      apply accounted serial since
      rcases Nat.lt_or_eq_of_le closed with earlier | now
      · exact Or.inl earlier
      · exact Or.inr ⟨now, rfl⟩
    · intro cam result last kept
      obtain ⟨past, original | _⟩ := invariant.cached cam result last kept
      · exact ⟨past, Or.inl original⟩
      · exact ⟨past, Or.inr fun _ unsampled => absurd unsampled (by simp)⟩

end Preservation

section Mirror

/-- The invariant holds in every reachable state. -/
theorem invariant_reachable (config : Config) (device : ρ → Int) {world : World ρ}
    (reachable : Reachable (mirror config device) world) : Invariant config world := by
  apply reachable.invariant
  · have unnoted : ¬ ((-1 : Int) = (0 : Nat)) := by decide
    exact ⟨List.Pairwise.nil, fun record stored => absurd stored List.not_mem_nil,
      Int.le_of_lt (by decide : (-1 : Int) < (0 : Nat)),
      fun built => absurd built Bool.false_ne_true, fun noted => absurd noted unnoted,
      fun reqId entry stored => absurd stored (by simp [mirror, Globals.initial, Registry.initial]),
      fun cam result last => absurd last (by simp [mirror, Globals.initial])⟩
  · intro state event invariant sent
    cases event with
    | execute real desync => exact invariant_execute invariant real desync sent
    | add reqId count => exact invariant_add invariant reqId count sent
    | batch inputBatch => exact invariant_batch invariant inputBatch sent
    | build cam query capturing => exact invariant_build invariant cam query capturing sent
    | sample counts output => exact invariant_sample invariant counts output sent

/-- In every reachable state known values are the device's counts. A build that uses them returns
the device's lengths, every other build returns what the deployed body returns, and these agree
unless the deployed body only knows optimistic lengths. -/
theorem mirror_exact (config : Config) (device : ρ → Int) {world : World ρ}
    (reachable : Reachable (mirror config device) world) (cam : Cam) (query : Nat → Bool)
    (capturing : Bool) (sent : allowed config world (.build cam query capturing)) :
    let registry := world.globals.registry
    let result := (patchedKvLensHost config query capturing world.globals cam).1
    (∀ batch values, registry.currentIb = some batch →
      registry.hostValues query (some batch) = some values →
        values = batch.rows.map world.device) ∧
    (world.globals.reentered cam = none →
      (registry.eligibleValues query capturing).isSome = true →
        result = world.exactLens config cam) ∧
    (world.globals.reentered cam = none → registry.eligibleValues query capturing = none →
      result = originalKvLens config.builder cam) ∧
    (result = world.exactLens config cam ∨ result = originalKvLens config.builder cam) ∧
    (world.Noted → (originalBodyWithCtx config.builder cam).branch ≠ .optimisticSeqLens →
      result = world.exactLens config cam) := by
  intro registry result
  have invariant := invariant_reachable config device reachable
  obtain ⟨now, before, sameObject, agree⟩ := id sent
  have either : result = world.exactLens config cam ∨
      result = originalKvLens config.builder cam := by
    rcases build_cases invariant cam query capturing sent with ⟨again, _⟩ | ⟨_, _, _,
      ⟨_, _, original, _⟩ | ⟨_, _, _, _, _, lens⟩⟩
    · rw [Globals.reentered] at again
      split at again
      next last kept lastCam lastResult =>
        split at again
        next same =>
          obtain rfl := sameObject last lastCam same
          obtain rfl : kept = result := Option.some.inj again
          rcases (invariant.cached last _ lastCam lastResult).2 with original | device
          · exact Or.inr original
          · exact Or.inl (device now before).2
        next => exact absurd again (by simp)
      next => exact absurd again (by simp)
    · exact Or.inr original
    · exact lens.symm.imp And.right And.right
  refine ⟨?_, ?_, ?_, either, ?_⟩
  · intro batch values current known
    exact (invariant.hostValues_exact before batch current query values known).2
  · intro fresh eligible
    rcases build_cases invariant cam query capturing sent with ⟨again, _⟩ | ⟨_, _, _,
      ⟨_, none, _, _⟩ | ⟨_, _, _, _, _, ⟨none, _⟩ | ⟨_, device⟩⟩⟩
    · exact absurd (fresh.symm.trans again) (by simp)
    · exact absurd eligible (by simp [registry, none])
    · exact absurd eligible (by simp [registry, none])
    · exact device
  · intro fresh ineligible
    rcases build_cases invariant cam query capturing sent with ⟨again, _⟩ | ⟨_, _, _,
      ⟨_, _, original, _⟩ | ⟨_, _, _, _, _, ⟨_, original⟩ | ⟨some, _⟩⟩⟩
    · exact absurd (fresh.symm.trans again) (by simp)
    · exact original
    · exact original
    · exact absurd some (by rw [ineligible]; simp)
  · intro noted known
    rcases either with device | original
    · exact device
    · obtain ⟨batch, current, _⟩ := invariant.current noted
      rw [original, exactLens_eq batch.toInputBatch cam current]
      exact originalKvLens_eq (agree noted batch.toInputBatch current).faithful known

end Mirror

section Orders

/-- Asynchronous scheduling with the deployed bounds. -/
def deployed : Config :=
  ⟨⟨true, ⟨2048, 4⟩⟩, false⟩

/-- A batch of one prefilling request with three tokens. -/
def prefillBatch (computed : Int) : ScheduledBatch Nat where
  reqIds := [7]
  numReqs := 1
  idxMapping := [0]
  queryStartLoc := [0, 3]
  cuNumLogits := [0, 1]
  isPrefilling := [true]
  numComputedTokens := [computed]
  distinct := by decide
  listed := by decide
  mapped := by decide
  counted := Nat.le_refl 1
  flagged := by decide
  logits := by decide
  located := by decide
  first := rfl
  tokens := by decide

/-- A batch that verifies three drafts of the same request. -/
def verifyBatch (computed : Int) : ScheduledBatch Nat where
  reqIds := [7]
  numReqs := 1
  idxMapping := [0]
  queryStartLoc := [0, 4]
  cuNumLogits := [0, 4]
  isPrefilling := [false]
  numComputedTokens := [computed]
  distinct := by decide
  listed := by decide
  mapped := by decide
  counted := Nat.le_refl 1
  flagged := by decide
  logits := by decide
  located := by decide
  first := rfl
  tokens := by decide

/-- Metadata for a batch of one request, with the positions the device prepared. -/
def camOf (step number : Nat) (batch : InputBatch Nat) (positions : List Int) : Cam :=
  ⟨step, number, 1, batch.queryStartLoc, some positions, [], none⟩

/-- The build of a batch, when every event has fired. -/
def buildOf (step number : Nat) (batch : InputBatch Nat) (positions : List Int) : Event Nat :=
  .build (camOf step number batch positions) (fun _ => true) false

/-- The sample of a step whose counts have been copied. -/
def sampleOf (counts : List Int) : Event Nat :=
  .sample counts (some ⟨some counts, some 0⟩)

/-- A request is added with five computed tokens and prefilled, then two of its drafts are rejected
in a step that builds nothing; the next step is about to build. -/
def verifiedRun : List (Event Nat) :=
  [.execute true false, .add 7 5, .batch (prefillBatch 5),
    buildOf 1 0 (prefillBatch 5).toInputBatch [5, 6, 7], sampleOf [1],
    .execute true false, .batch (verifyBatch 8), sampleOf [2],
    .execute true false, .batch (verifyBatch 12)]

/-- The state a run from a fresh process ends in. -/
def worldAfter (events : List (Event Nat)) : World Nat :=
  (mirror deployed fun _ => 0).run (mirror deployed fun _ => 0).initial events

/-- Metadata agree with a batch of one request when the positions are contiguous from its count. -/
theorem matches_camOf (device : Nat → Int) (step number : Nat) (batch : ScheduledBatch Nat)
    (positions : List Int) (single : batch.numReqs = 1)
    (right : positions = devicePositions (rowCounts device batch.toInputBatch) batch.queryStartLoc 1) :
    Matches deployed device batch.toInputBatch (camOf step number batch.toInputBatch positions) := by
  have located := batch.located
  have rows : Cumulative batch.queryStartLoc 1 := by
    refine ⟨batch.first, fun request inside => Nat.le_of_lt (batch.tokens request ?_)⟩
    omega
  have size : positions.length = startOf batch.queryStartLoc 1 := by
    rw [right, devicePositions_length _ _ _ rows]
  constructor
  · constructor
    · exact rows
    · intro given same _
      obtain rfl : positions = given := Option.some.inj same
      exact (List.take_of_length_le (Nat.le_of_eq size)).trans right
    · intro planned
      exact absurd planned (by decide)
  · exact Nat.le_of_eq single
  · intro row inside
    have bounded : row < batch.queryStartLoc.length := Nat.lt_of_le_of_lt inside located
    rw [startOf, List.getD_eq_getElem?_getD, camOf, List.getElem?_eq_getElem bounded,
      Option.getD_some]
  · intro row low high
    rw [single] at low
    exact absurd high (Nat.not_lt.mpr low)
  · intro compared
    exact absurd compared (by decide)

/-- The run keeps the order of hooks that the module documents, so the theorem applies to it. -/
theorem verifiedRun_reachable :
    Reachable (mirror deployed fun _ => 0) (worldAfter verifiedRun) := by
  have unnoted : ∀ world : World Nat, decide world.Noted = false → ¬ world.Noted :=
    fun _ => of_decide_eq_false
  apply Reachable.initial.run
  refine ⟨fun _ => Or.inl rfl, unnoted _ rfl, ⟨unnoted _ rfl, ?_⟩, ⟨rfl, rfl, ?_, ?_⟩,
    ⟨rfl, rfl, fun seen same => (Option.some.inj same).symm⟩, fun _ => Or.inr rfl,
    ⟨unnoted _ rfl, fun reqId isNew => nomatch isNew⟩,
    ⟨rfl, rfl, fun seen same => (Option.some.inj same).symm⟩, fun _ => Or.inl rfl,
    ⟨unnoted _ rfl, fun reqId isNew => nomatch isNew⟩, trivial⟩
  · intro reqId isNew
    obtain rfl := List.mem_singleton.mp isNew
    exact ⟨0, by decide, rfl, rfl⟩
  · intro last kept
    nomatch kept
  · intro _ batch current
    obtain rfl : (prefillBatch 5).toInputBatch = batch := Option.some.inj current
    exact matches_camOf _ 1 0 (prefillBatch 5) _ rfl rfl

/-- The third step builds from the host's count, which is two less than the scheduler's, and plans
the device's lengths. -/
theorem mirror_exact_verified :
    let world := worldAfter verifiedRun
    let cam := camOf 3 0 (verifyBatch 12).toInputBatch [10, 11, 12, 13]
    world.globals.registry.hostValues (fun _ => true) world.globals.registry.currentIb = some [10] ∧
      (patchedKvLensHost deployed (fun _ => true) false world.globals cam).1 =
        world.exactLens deployed cam := by
  intro world cam
  refine ⟨rfl, (mirror_exact deployed (fun _ => 0) verifiedRun_reachable cam (fun _ => true) false
    ⟨rfl, rfl, ?_, ?_⟩).2.1 rfl rfl⟩
  · intro last kept same
    obtain rfl := Option.some.inj kept
    exact absurd same (by decide)
  · intro _ batch current
    obtain rfl : (verifyBatch 12).toInputBatch = batch := Option.some.inj current
    exact matches_camOf _ 3 0 (verifyBatch 12) _ rfl rfl

/-- A build after the sample of its own step: the record is counted now and again in the next
step. -/
def lateBuildRun : List (Event Nat) :=
  [.execute true false, .add 7 5, .batch (prefillBatch 5),
    buildOf 1 0 (prefillBatch 5).toInputBatch [5, 6, 7], sampleOf [1],
    .execute true false, .batch (verifyBatch 8),
    buildOf 2 0 (verifyBatch 8).toInputBatch [8, 9, 10, 11], sampleOf [2],
    buildOf 2 1 (verifyBatch 8).toInputBatch [8, 9, 10, 11],
    .execute true false, .batch (verifyBatch 10)]

/-- A tracked request is added again in a step that builds nothing. -/
def skippedBuildRun : List (Event Nat) :=
  [.execute true false, .add 7 5, .batch (prefillBatch 5),
    buildOf 1 0 (prefillBatch 5).toInputBatch [5, 6, 7], sampleOf [1],
    .execute true false, .add 7 0, .batch (prefillBatch 0), sampleOf [1],
    .execute true false, .batch (verifyBatch 3)]

/-- The sample of a step comes after the next step began, so its record has the wrong serial. -/
def lateSampleRun : List (Event Nat) :=
  [.execute true false, .add 7 5, .batch (prefillBatch 5),
    buildOf 1 0 (prefillBatch 5).toInputBatch [5, 6, 7],
    .execute true false, sampleOf [1], .batch (verifyBatch 8),
    buildOf 2 0 (verifyBatch 8).toInputBatch [8, 9, 10, 11],
    .execute true false, .batch (verifyBatch 8)]

/-- The values known at the end of a run, and the device's count of the request. -/
def outcome (events : List (Event Nat)) : Option (List Int) × Int :=
  let world := worldAfter events
  (world.globals.registry.hostValues (fun _ => true) world.globals.registry.currentIb,
    world.device 7)

/-- In the other orders of the hooks the registry returns a value that is not the device's count. -/
theorem hook_order_matters :
    outcome lateBuildRun = (some [12], 10) ∧ outcome skippedBuildRun = (some [11], 3) ∧
      outcome lateSampleRun = (some [11], 8) := by
  exact ⟨rfl, rfl, rfl⟩

end Orders

end GlmSpark.KvLensMirror
