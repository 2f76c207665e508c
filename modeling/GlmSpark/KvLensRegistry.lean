import GlmSpark.Dict
import GlmSpark.KvLens
import Mathlib.Algebra.Ring.Int.Defs

/-!
# A host registry of computed token counts

Under asynchronous scheduling the host does not know how many tokens the device has
computed for a request. The registry remembers the count of an earlier build and
the records of the steps since then; the count of the current build is their sum,
or unknown. Here the registry and the build that consults it are translated, and
every operation is given one statement of what it does to the tracked entries.
-/

namespace GlmSpark.KvLensRegistry

open KvLens

universe u
variable {ρ : Type u} [DecidableEq ρ]

section Registry

/-- The device's count of a request as of one build. -/
structure TrackerEntry where
  value : Int
  serial : Nat
  deriving DecidableEq, Repr

/-- What the sampler of a step hands to the host: the sampled counts, and the event that guards
their copy. -/
structure AsyncOutput where
  numSampledTokens : Option (List Int)
  copyEvent : Option Nat

/-- Facts about one scheduled step that the host can see. -/
structure StepRecord (ρ : Type u) where
  serial : Nat
  reqIds : List ρ
  idxMapping : List Int
  queryStartLoc : List Nat
  cuNumLogits : List Nat
  isPrefilling : List Bool
  numSampled : Option (List Int)
  copyEvent : Option Nat

/-- Tokens the device adds to the count of a row, as far as the record knows. -/
def StepRecord.deltaFor (record : StepRecord ρ) (row : Nat) : Int :=
  if record.idxMapping.getD row 0 < 0 then 0
  else
    let qlen : Int :=
      (startOf record.queryStartLoc (row + 1) : Int) - (startOf record.queryStartLoc row : Int)
    if record.isPrefilling.getD row false then qlen
    else
      match record.numSampled with
      | none => 0
      | some counts =>
        let nlogits : Int :=
          (startOf record.cuNumLogits (row + 1) : Int) - (startOf record.cuNumLogits row : Int)
        let numRejected := nlogits - counts.getD row 0
        qlen - numRejected

/-- The row of a request in a recorded step. -/
def StepRecord.rowOf (record : StepRecord ρ) (reqId : ρ) : Option Nat :=
  record.reqIds.idxOf? reqId

/-- Whether the sampled counts have arrived; `query` answers for the events. -/
def StepRecord.fired (record : StepRecord ρ) (query : Nat → Bool) : Bool :=
  match record.copyEvent with
  | none => record.numSampled.isSome
  | some event => query event

/-- The registry of one worker: the number of the scheduled step, the batch noted for it, the
records of sampled steps and the tracked counts. -/
structure Registry (ρ : Type u) where
  serial : Nat
  currentIb : Option (InputBatch ρ)
  currentIbSerial : Int
  addedNow : List ρ
  records : List (StepRecord ρ)
  tracker : List (ρ × TrackerEntry)
  desync : Bool

/-- The registry of a fresh process. -/
def Registry.initial : Registry ρ :=
  ⟨0, none, -1, [], [], [], false⟩

/-- A scheduled step begins: it gets the next number, and nothing was added in it yet. -/
def Registry.noteSerial (registry : Registry ρ) : Registry ρ :=
  { registry with serial := registry.serial + 1, addedNow := [] }

/-- The runner constructed a batch; it belongs to the step that is scheduled now. -/
def Registry.noteCurrentBatch (registry : Registry ρ) (inputBatch : InputBatch ρ) : Registry ρ :=
  { registry with currentIb := some inputBatch, currentIbSerial := registry.serial }

/-- A request was added, so the device count was reset. -/
def Registry.noteAdded (registry : Registry ρ) (reqId : ρ) : Registry ρ :=
  { registry with addedNow := reqId :: registry.addedNow }

/-- Latch whether the runner is in a configuration that cannot be mirrored. -/
def Registry.noteDesync (registry : Registry ρ) (desync : Bool) : Registry ρ :=
  { registry with desync := desync }

/-- Drop old tracker entries once there are too many. -/
def Registry.prune (registry : Registry ρ) : Registry ρ :=
  if registry.tracker.length ≤ 4096 then registry
  else
    let cutoff : Int := (registry.serial : Int) - 1024
    let stale := (registry.tracker.filter fun entry => (entry.2.serial : Int) < cutoff).map Prod.fst
    { registry with tracker := stale.foldl (fun tracker key => Dict.erase key tracker) registry.tracker }

/-- The record of a sampled batch. -/
def stepRecord (serial : Nat) (inputBatch : InputBatch ρ) (output : AsyncOutput) : StepRecord ρ :=
  ⟨serial, inputBatch.rows, inputBatch.idxMapping, inputBatch.queryStartLoc,
    inputBatch.cuNumLogits, inputBatch.isPrefilling, output.numSampledTokens, output.copyEvent⟩

/-- Append to a queue that keeps the eight newest records. -/
def pushRecord (records : List (StepRecord ρ)) (record : StepRecord ρ) : List (StepRecord ρ) :=
  let extended := records ++ [record]
  extended.drop (extended.length - 8)

/-- Capture the sampled counts of one step. -/
def Registry.noteSample (registry : Registry ρ) (inputBatch : InputBatch ρ) (output : AsyncOutput) :
    Registry ρ :=
  Registry.prune { registry with
    records := pushRecord registry.records (stepRecord registry.serial inputBatch output) }

/-- The record of one step, when the queue still holds it. -/
def Registry.recordFor (registry : Registry ρ) (serial : Nat) : Option (StepRecord ρ) :=
  registry.records.find? fun record => record.serial == serial

/-- Add the deltas of a request over all records from one serial on. -/
def unfoldRecords (query : Nat → Bool) (reqId : ρ) (fromSerial : Nat) :
    List (StepRecord ρ) → Int → Option Int
  | [], value => some value
  | record :: rest, value =>
    if record.serial < fromSerial then unfoldRecords query reqId fromSerial rest value
    else
      match record.rowOf reqId with
      | none => unfoldRecords query reqId fromSerial rest value
      | some row =>
        if record.numSampled.isNone then none
        else if record.fired query = false then none
        else unfoldRecords query reqId fromSerial rest (value + record.deltaFor row)

/-- The count of a request at the current build, or nothing when a step is unaccounted for. -/
def Registry.unfoldValue (registry : Registry ρ) (query : Nat → Bool) (reqId : ρ) : Option Int :=
  match registry.tracker.lookup reqId with
  | none => none
  | some entry =>
    if (List.range' entry.serial (registry.serial - entry.serial)).any
        (fun expected => (registry.recordFor expected).isNone) then none
    else unfoldRecords query reqId entry.serial registry.records entry.value

/-- The counts of all rows, or nothing when one of them is unknown. -/
def Registry.rowValues (registry : Registry ρ) (query : Nat → Bool) (inputBatch : InputBatch ρ) :
    List (ρ × Nat) → Option (List Int)
  | [] => some []
  | (reqId, row) :: rest =>
    let value :=
      if reqId ∈ registry.addedNow then inputBatch.numComputedTokens[row]?
      else registry.unfoldValue query reqId
    match value with
    | none => none
    | some value => (registry.rowValues query inputBatch rest).map (value :: ·)

/-- Exact counts for the rows of a batch, or nothing. -/
def Registry.hostValues (registry : Registry ρ) (query : Nat → Bool)
    (inputBatch : Option (InputBatch ρ)) : Option (List Int) :=
  match inputBatch with
  | none => none
  | some inputBatch =>
    if registry.desync ∨ registry.currentIbSerial ≠ registry.serial then none
    else registry.rowValues query inputBatch inputBatch.rows.zipIdx

/-- Store the counts of some requests as of one serial. -/
def anchor (serial : Nat) (values : List (ρ × Int)) (tracker : List (ρ × TrackerEntry)) :
    List (ρ × TrackerEntry) :=
  values.foldl (fun tracker pair => Dict.assign pair.1 ⟨pair.2, serial⟩ tracker) tracker

/-- Remember the counts a build has used. -/
def Registry.commit (registry : Registry ρ) (inputBatch : InputBatch ρ) (values : List Int) :
    Registry ρ :=
  { registry with tracker := anchor registry.serial (inputBatch.rows.zip values) registry.tracker }

/-- Forget the counts of a batch's requests, so that the next build takes them from the deployed
body. -/
def Registry.invalidate (registry : Registry ρ) (inputBatch : InputBatch ρ) : Registry ρ :=
  { registry with
    tracker := inputBatch.rows.foldl (fun tracker key => Dict.erase key tracker) registry.tracker }

/-- Store the count before the first context of every row; a missing entry ends the loop. -/
def healRows (serial : Nat) (ctx : List Int) (queryStartLoc : List Nat) :
    List (ρ × Nat) → List (ρ × TrackerEntry) → List (ρ × TrackerEntry)
  | [], tracker => tracker
  | (reqId, row) :: rest, tracker =>
    match (queryStartLoc[row]?).bind (ctx[·]?) with
    | none => tracker
    | some first => healRows serial ctx queryStartLoc rest (Dict.assign reqId ⟨first - 1, serial⟩ tracker)

/-- Re-anchor the tracker from the contexts of the device. -/
def Registry.heal (registry : Registry ρ) (inputBatch : InputBatch ρ) (ctx : Option (List Int))
    (queryStartLoc : List Nat) : Registry ρ :=
  match ctx with
  | none => registry
  | some ctx =>
    { registry with
      tracker := healRows registry.serial ctx queryStartLoc inputBatch.rows.zipIdx registry.tracker }

end Registry

section Build

/-- The globals of the module: the registry and the last build. -/
structure Globals (ρ : Type u) where
  registry : Registry ρ
  lastCam : Option Cam
  lastResult : Option (Nat × List Int)

/-- The globals of a fresh process. -/
def Globals.initial : Globals ρ :=
  ⟨Registry.initial, none, none⟩

/-- The switches of the module: the metadata builder and the comparison mode. -/
structure Config where
  builder : Builder
  debug : Bool

/-- The result of the last build when it was made for the same metadata object. -/
def Globals.reentered (globals : Globals ρ) (cam : Cam) : Option (Nat × List Int) :=
  match globals.lastCam, globals.lastResult with
  | some last, some result => if Cam.same last cam then some result else none
  | _, _ => none

/-- The counts of the current batch when this build may use them. -/
def Registry.eligibleValues (registry : Registry ρ) (query : Nat → Bool) (capturing : Bool) :
    Option (List Int) :=
  match registry.currentIb with
  | none => none
  | some inputBatch =>
    if registry.currentIbSerial = registry.serial ∧ registry.desync = false ∧ capturing = false then
      registry.hostValues query (some inputBatch)
    else none

/-- A build from the host's counts; in comparison mode the device's lengths are kept. -/
def hostBuild (config : Config) (registry : Registry ρ) (inputBatch : InputBatch ρ)
    (values : List Int) (cam : Cam) : (Nat × List Int) × Registry ρ :=
  let (numRows, lens) :=
    lensFromValues config.builder.indexer values cam.queryStartLocCpu cam.numReqs
  if config.debug then
    let body := originalBodyWithCtx config.builder cam
    ((numRows, body.lens), registry.heal inputBatch body.ctx cam.queryStartLocCpu)
  else ((numRows, lens), registry.commit inputBatch values)

/-- A build by the deployed body, which re-anchors or forgets the batch of this step. -/
def deviceBuild (config : Config) (registry : Registry ρ) (cam : Cam) :
    (Nat × List Int) × Registry ρ :=
  let body := originalBodyWithCtx config.builder cam
  let noted :=
    match registry.currentIb with
    | none => registry
    | some inputBatch =>
      if registry.currentIbSerial = registry.serial then
        match body.branch with
        | .positions | .upperBound => registry.heal inputBatch body.ctx cam.queryStartLocCpu
        | .optimisticSeqLens => registry.invalidate inputBatch
        | .empty => registry
      else registry
  ((body.numRows, body.lens), noted)

/-- The wrapped `_kv_lens_host`: host values where the tracked counts allow them, otherwise the
deployed body with a heal or an invalidation. -/
def patchedKvLensHost (config : Config) (query : Nat → Bool) (capturing : Bool)
    (globals : Globals ρ) (cam : Cam) : (Nat × List Int) × Globals ρ :=
  match globals.reentered cam with
  | some result => (result, globals)
  | none =>
    let (result, registry) :=
      match globals.registry.currentIb, globals.registry.eligibleValues query capturing with
      | some inputBatch, some values => hostBuild config globals.registry inputBatch values cam
      | _, _ => deviceBuild config globals.registry cam
    (result, ⟨registry, some cam, some result⟩)

end Build

section Records

/-- Tokens the device adds to a request in a recorded step; none when it was not scheduled. -/
def StepRecord.deltaOf (record : StepRecord ρ) (reqId : ρ) : Int :=
  match record.rowOf reqId with
  | none => 0
  | some row => record.deltaFor row

/-- The record accounts for a request: it was not scheduled, or its counts will be known. -/
def StepRecord.Accounts (record : StepRecord ρ) (reqId : ρ) : Prop :=
  record.rowOf reqId = none ∨ record.numSampled.isSome

/-- Tokens of a request over all records from one serial on. -/
def pending (records : List (StepRecord ρ)) (fromSerial : Nat) (reqId : ρ) : Int :=
  ((records.filter fun record => fromSerial ≤ record.serial).map fun record =>
    record.deltaOf reqId).sum

/-- The tokens of two stretches of records add up. -/
theorem pending_append (records later : List (StepRecord ρ)) (fromSerial : Nat) (reqId : ρ) :
    pending (records ++ later) fromSerial reqId =
      pending records fromSerial reqId + pending later fromSerial reqId := by
  simp only [pending, List.filter_append, List.map_append, List.sum_append]

/-- A single record counts when it is recent enough. -/
theorem pending_single (record : StepRecord ρ) (fromSerial : Nat) (reqId : ρ)
    (recent : fromSerial ≤ record.serial) :
    pending [record] fromSerial reqId = record.deltaOf reqId := by
  simp [pending, recent]

/-- Records before the asked serial do not count. -/
theorem pending_eq_zero (records : List (StepRecord ρ)) (fromSerial : Nat) (reqId : ρ)
    (old : ∀ record ∈ records, record.serial < fromSerial) :
    pending records fromSerial reqId = 0 := by
  have none : records.filter (fun record => fromSerial ≤ record.serial) = [] := by
    rw [List.filter_eq_nil_iff]
    intro record stored
    have := old record stored
    simpa using this
  rw [pending, none, List.map_nil, List.sum_nil]

/-- A known sum is the pending tokens, and every record it used accounts for the request. -/
theorem unfoldRecords_spec (query : Nat → Bool) (reqId : ρ) (fromSerial : Nat)
    (records : List (StepRecord ρ)) (value total : Int)
    (known : unfoldRecords query reqId fromSerial records value = some total) :
    total = value + pending records fromSerial reqId ∧
      ∀ record ∈ records, fromSerial ≤ record.serial → record.Accounts reqId := by
  induction records generalizing value with
  | nil =>
    have same : value = total := Option.some.inj known
    simp [pending, same]
  | cons record rest ih =>
    rw [unfoldRecords] at known
    by_cases old : record.serial < fromSerial
    · rw [if_pos old] at known
      obtain ⟨sum, accounts⟩ := ih value known
      have skipped : pending (record :: rest) fromSerial reqId = pending rest fromSerial reqId := by
        simp [pending, Nat.not_le.mpr old]
      refine ⟨by rw [sum, skipped], fun other stored recent => ?_⟩
      rcases List.mem_cons.mp stored with rfl | later
      · exact absurd recent (Nat.not_le.mpr old)
      · exact accounts other later recent
    · rw [if_neg old] at known
      have counted : pending (record :: rest) fromSerial reqId =
          record.deltaOf reqId + pending rest fromSerial reqId := by
        simp [pending, Nat.not_lt.mp old]
      cases place : record.rowOf reqId with
      | none =>
        rw [place] at known
        obtain ⟨sum, accounts⟩ := ih value known
        have nothing : record.deltaOf reqId = 0 := by simp [StepRecord.deltaOf, place]
        constructor
        · rw [sum, counted, nothing, Int.zero_add]
        · intro other stored recent
          rcases List.mem_cons.mp stored with rfl | later
          · exact Or.inl place
          · exact accounts other later recent
      | some row =>
        rw [place] at known
        have present : record.numSampled.isSome := by
          by_contra missing
          simp [Option.not_isSome_iff_eq_none.mp missing] at known
        have arrived : record.fired query = true := by
          by_contra waiting
          simp [waiting] at known
        rw [Option.isSome_iff_ne_none] at present
        simp only [Option.isNone_iff_eq_none, present, if_false, arrived, Bool.true_eq_false] at known
        obtain ⟨sum, accounts⟩ := ih _ known
        have added : record.deltaOf reqId = record.deltaFor row := by simp [StepRecord.deltaOf, place]
        constructor
        · rw [sum, counted, added]
          omega
        · intro other stored recent
          rcases List.mem_cons.mp stored with rfl | later
          · exact Or.inr (Option.isSome_iff_ne_none.mpr present)
          · exact accounts other later recent

/-- What a known count rests on: an entry, a record of every step since, and the pending tokens. -/
theorem unfoldValue_spec (registry : Registry ρ) (query : Nat → Bool) (reqId : ρ) (total : Int)
    (known : registry.unfoldValue query reqId = some total) :
    ∃ entry, registry.tracker.lookup reqId = some entry ∧
      total = entry.value + pending registry.records entry.serial reqId ∧
      (∀ serial, entry.serial ≤ serial → serial < registry.serial →
        ∃ record ∈ registry.records, record.serial = serial) ∧
      ∀ record ∈ registry.records, entry.serial ≤ record.serial → record.Accounts reqId := by
  rw [Registry.unfoldValue] at known
  cases tracked : registry.tracker.lookup reqId with
  | none => simp [tracked] at known
  | some entry =>
    rw [tracked] at known
    dsimp only at known
    split at known
    · exact absurd known (by simp)
    next complete =>
      obtain ⟨sum, accounts⟩ := unfoldRecords_spec query reqId entry.serial registry.records
        entry.value total known
      refine ⟨entry, rfl, sum, ?_, accounts⟩
      intro serial since before
      have expected : serial ∈ List.range' entry.serial (registry.serial - entry.serial) := by
        rw [List.mem_range'_1]
        omega
      have there : (registry.recordFor serial).isNone = false := by
        by_contra missing
        exact complete (List.any_eq_true.mpr ⟨serial, expected, by simpa using missing⟩)
      obtain ⟨record, found⟩ := Option.isSome_iff_exists.mp (by simpa using there)
      exact ⟨record, List.mem_of_find?_eq_some found, by
        simpa using List.find?_some found⟩

omit [DecidableEq ρ] in
/-- The queue after a push holds the newest records in order. -/
theorem pushRecord_suffix (records : List (StepRecord ρ)) (record : StepRecord ρ) :
    ∃ dropped kept, records = dropped ++ kept ∧ pushRecord records record = kept ++ [record] := by
  have few : (records ++ [record]).length - 8 ≤ records.length := by
    rw [List.length_append, List.length_singleton]
    omega
  refine ⟨_, _, (List.take_append_drop ((records ++ [record]).length - 8) records).symm, ?_⟩
  rw [pushRecord, List.drop_append_of_le_length few]

end Records

section Tracker

/-- Anchored requests read their new count, all others are unchanged. -/
theorem lookup_anchor (serial : Nat) (reqIds : List ρ) (count : ρ → Int)
    (tracker : List (ρ × TrackerEntry)) (reqId : ρ) :
    (anchor serial (reqIds.map fun reqId => (reqId, count reqId)) tracker).lookup reqId =
      if reqId ∈ reqIds then some ⟨count reqId, serial⟩ else tracker.lookup reqId := by
  induction reqIds generalizing tracker with
  | nil => simp [anchor]
  | cons first rest ih =>
    have step : anchor serial ((first :: rest).map fun reqId => (reqId, count reqId)) tracker =
        anchor serial (rest.map fun reqId => (reqId, count reqId))
          (Dict.assign first ⟨count first, serial⟩ tracker) := rfl
    rw [step, ih, Dict.lookup_assign]
    by_cases later : reqId ∈ rest
    · simp [later]
    · by_cases here : reqId = first
      · simp [here]
      · simp [later, here]

/-- Erased keys read as nothing, all others are unchanged. -/
theorem lookup_eraseAll {β : Type} (keys : List ρ) (dict : List (ρ × β)) (reqId : ρ) :
    (keys.foldl (fun dict key => Dict.erase key dict) dict).lookup reqId =
      if reqId ∈ keys then none else dict.lookup reqId := by
  induction keys generalizing dict with
  | nil => simp
  | cons first rest ih =>
    rw [List.foldl_cons, ih, Dict.lookup_erase]
    by_cases later : reqId ∈ rest
    · simp [later]
    · by_cases here : reqId = first
      · simp [here]
      · simp [later, here]

/-- Pruning only forgets entries: whatever is still tracked is tracked as before. A forgotten
request is treated as a new one later. -/
theorem prune_spec (registry : Registry ρ) :
    ∃ tracker, registry.prune = { registry with tracker := tracker } ∧
      ∀ reqId entry, tracker.lookup reqId = some entry →
        registry.tracker.lookup reqId = some entry := by
  rw [Registry.prune]
  split
  next => exact ⟨registry.tracker, rfl, fun _ _ stored => stored⟩
  next =>
    refine ⟨_, rfl, fun reqId entry stored => ?_⟩
    rw [lookup_eraseAll] at stored
    split at stored
    · exact absurd stored (by simp)
    · exact stored

/-- A sample adds its record, and the tracker only forgets. -/
theorem noteSample_spec (registry : Registry ρ) (inputBatch : InputBatch ρ)
    (output : AsyncOutput) :
    ∃ tracker, registry.noteSample inputBatch output = { registry with
        records := pushRecord registry.records (stepRecord registry.serial inputBatch output),
        tracker := tracker } ∧
      ∀ reqId entry, tracker.lookup reqId = some entry →
        registry.tracker.lookup reqId = some entry :=
  prune_spec _

/-- When every row's first context is there, healing anchors every row. -/
theorem healRows_eq (serial : Nat) (ctx : List Int) (queryStartLoc : List Nat) (count : ρ → Int)
    (rows : List (ρ × Nat)) (tracker : List (ρ × TrackerEntry))
    (read : ∀ entry ∈ rows, (queryStartLoc[entry.2]?).bind (ctx[·]?) = some (count entry.1 + 1)) :
    healRows serial ctx queryStartLoc rows tracker =
      anchor serial ((rows.map Prod.fst).map fun reqId => (reqId, count reqId)) tracker := by
  induction rows generalizing tracker with
  | nil => rfl
  | cons entry rest ih =>
    obtain ⟨reqId, row⟩ := entry
    have here := read (reqId, row) (List.mem_cons_self)
    have value : count reqId + 1 - 1 = count reqId := by omega
    rw [healRows, here]
    dsimp only
    rw [value, ih _ fun entry later => read entry (List.mem_cons_of_mem _ later)]
    rfl

end Tracker

section Rows

/-- Known row values are the counts of the rows when each single value is. -/
theorem rowValues_spec (registry : Registry ρ) (query : Nat → Bool) (inputBatch : InputBatch ρ)
    (count : ρ → Int) (rows : List (ρ × Nat)) (values : List Int)
    (added : ∀ entry ∈ rows, entry.1 ∈ registry.addedNow →
      inputBatch.numComputedTokens[entry.2]? = some (count entry.1))
    (mirrored : ∀ entry ∈ rows, entry.1 ∉ registry.addedNow → ∀ value,
      registry.unfoldValue query entry.1 = some value → value = count entry.1)
    (known : registry.rowValues query inputBatch rows = some values) :
    values = rows.map fun entry => count entry.1 := by
  induction rows generalizing values with
  | nil => simpa [Registry.rowValues] using known.symm
  | cons entry rest ih =>
    obtain ⟨reqId, row⟩ := entry
    rw [Registry.rowValues] at known
    split at known
    · exact absurd known (by simp)
    next value single =>
      have own : value = count reqId := by
        by_cases isNew : reqId ∈ registry.addedNow
        · rw [if_pos isNew, added (reqId, row) List.mem_cons_self isNew] at single
          exact (Option.some.inj single).symm
        · rw [if_neg isNew] at single
          exact mirrored (reqId, row) List.mem_cons_self isNew value single
      obtain ⟨others, rowsKnown, rfl⟩ := Option.map_eq_some_iff.mp known
      rw [List.map_cons, own, ih others
        (fun entry later => added entry (List.mem_cons_of_mem _ later))
        (fun entry later => mirrored entry (List.mem_cons_of_mem _ later)) rowsKnown]

end Rows

end GlmSpark.KvLensRegistry
