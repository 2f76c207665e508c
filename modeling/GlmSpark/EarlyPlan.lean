import GlmSpark.KvLens
import GlmSpark.Runs

/-!
# Planning lengths from an early snapshot

After the update of every real step the device's counts are copied into a ring of
pinned buffers. The next step plans its lengths from that copy, and from the host's
counts for requests added since. The state slots of finished requests are reused, so
the copy is right for a request only as long as the request keeps its slot.

In every reachable state of the hooks, the runner and the device, an accepted plan
has the counts the step's batch was prepared with. A copy is accepted only when the
step before took it, and no update lies between a step's update and the next batch.
-/

namespace GlmSpark.EarlyPlan

open KvLens Runs

universe u
variable {ρ : Type u} [DecidableEq ρ]

section Core

/-- Why the deployed path has to run. -/
inductive Reason
  | desync
  | noBatch
  | noSnapshot
  | rowMismatch
  | qslMismatch
  | batchShape
  | filteredRow
  | idxRange
  deriving DecidableEq, Repr

/-- A copy of the device's counts: the step it was taken in and the buffer its reader reads. -/
structure Snapshot where
  serial : Nat
  slot : Nat

/-- The bookkeeping of one worker: the number of the scheduled step, its batch, the snapshot of the
device's counts and what invalidates it. -/
structure Core (ρ : Type u) where
  serial : Nat
  batch : Option (Nat × InputBatch ρ)
  snap : Option Snapshot
  added : List ρ
  desync : Bool
  inRealStep : Bool

/-- The bookkeeping of a fresh process. -/
def Core.initial : Core ρ :=
  ⟨0, none, none, [], false, false⟩

/-- `execute_model` was called; only token-carrying calls are real steps. -/
def Core.beginStep (core : Core ρ) (real : Bool) : Core ρ :=
  { core with
    batch := none
    inRealStep := real
    serial := if real then core.serial + 1 else core.serial }

/-- A request was added, so its count on the device was set. -/
def Core.noteAdded (core : Core ρ) (reqId : ρ) : Core ρ :=
  { core with added := reqId :: core.added }

/-- The runner prepared the batch of a real step. -/
def Core.noteBatch (core : Core ρ) (inputBatch : InputBatch ρ) : Core ρ :=
  if core.inRealStep then { core with batch := some (core.serial, inputBatch) } else core

/-- A copy was taken; it contains everything that was staged before it. -/
def Core.noteSnapshot (core : Core ρ) (slot : Nat) : Core ρ :=
  if core.inRealStep then { core with snap := some ⟨core.serial, slot⟩, added := [] } else core

/-- A copy failed: there is no snapshot, so the next plan is made the stock way. -/
def Core.dropSnapshot (core : Core ρ) : Core ρ :=
  { core with snap := none }

/-- The base of every row: the host's count of an added request, else the copied count. -/
def readBases (added : List ρ) (dev : List Int) :
    List (ρ × Int × Int) → Except Reason (List Int)
  | [] => .ok []
  | (rid, index, host) :: rest =>
    if rid ∈ added then (readBases added dev rest).map (host :: ·)
    else
      match dev[index.toNat]? with
      | none => .error .idxRange
      | some base => (readBases added dev rest).map (base :: ·)

/-- The bases of a batch once its step and the copy are accepted. -/
def batchBases (added : List ρ) (dev : List Int) (inputBatch : InputBatch ρ) (camNumReqs : Nat)
    (camQsl : List Nat) : Except Reason (List Int) :=
  let numReqs := inputBatch.numReqs
  if numReqs ≠ camNumReqs then .error .rowMismatch
  else if inputBatch.queryStartLoc.take (numReqs + 1) ≠ camQsl.take (numReqs + 1) then
    .error .qslMismatch
  else
    let reqIds := inputBatch.reqIds.take numReqs
    let idx := inputBatch.idxMapping.take numReqs
    let host := inputBatch.numComputedTokens.take numReqs
    if reqIds.length ≠ numReqs ∨ idx.length ≠ numReqs ∨ host.length ≠ numReqs then
      .error .batchShape
    else if idx.any (· < 0) then .error .filteredRow
    else readBases added dev (reqIds.zip (idx.zip host))

/-- The counts of the batch being built, or the reason to take the deployed path. The ring is read
after the event of the copy. -/
def Core.planBases (core : Core ρ) (ring : Nat → List Int) (camNumReqs : Nat) (camQsl : List Nat) :
    Except Reason (List Int) :=
  if core.desync then .error .desync
  else
    match core.batch with
    | none => .error .noBatch
    | some (batchSerial, inputBatch) =>
      if batchSerial ≠ core.serial then .error .noBatch
      else
        match core.snap with
        | none => .error .noSnapshot
        | some snap =>
          if (snap.serial : Int) ≠ (core.serial : Int) - 1 then .error .noSnapshot
          else batchBases core.added (ring snap.slot) inputBatch camNumReqs camQsl

end Core

section Runner

/-- The bookkeeping, the device's counts by state slot, and the runner: who owns which slot, the
counts staged since the last update, whether the step has updated, and the counts by row that the
batches of this step were prepared with. -/
structure World (ρ : Type u) where
  core : Core ρ
  device : Nat → Int
  slotOf : ρ → Option Nat
  staged : ρ → Option Int
  ring : Nat → List Int
  ringI : Nat
  active : Bool
  updated : Bool
  prepared : List (Nat → Int)
  cache : Option (Cam × Nat × (Nat × List Int))

/-- What happens. An update may change every count; a copy may fail after it was made; a build may
be compared with the deployed path. -/
inductive Event (ρ : Type u)
  | beginStep (real : Bool)
  | desync (unsupported : Bool)
  | switch (on : Bool)
  | add (reqId : ρ) (slot : Nat) (count : Int)
  | remove (reqId : ρ)
  | batch (inputBatch : InputBatch ρ)
  | update (counts : Nat → Int)
  | snapshot (recorded : Bool)
  | drop
  | build (cam : Cam) (capturing checked : Bool)

/-- The counts the device holds for the rows of a batch. -/
def slotCounts (device : Nat → Int) (inputBatch : InputBatch ρ) (row : Nat) : Int :=
  device (inputBatch.idxMapping.getD row 0).toNat

/-- The result of an earlier build of the same metadata object in the same step. -/
def World.reentered (world : World ρ) (cam : Cam) : Option (Nat × List Int) :=
  match world.cache with
  | none => none
  | some (cached, serial, result) =>
    if Cam.same cached cam ∧ serial = world.core.serial then some result else none

/-- The wrapped `_kv_lens_host`: lengths from the early plan where it is valid, otherwise the
wrapped body's. -/
def patchedKvLensHost (builder : Builder) (capturing checked : Bool) (world : World ρ) (cam : Cam) :
    (Nat × List Int) × World ρ :=
  if world.active = false ∨ builder.asyncScheduling = false ∨ capturing = true then
    (originalKvLens builder cam, world)
  else
    match world.reentered cam with
    | some result => (result, world)
    | none =>
      let qsl := cam.queryStartLocCpu.take (cam.numReqs + 1)
      let result :=
        match world.core.planBases world.ring cam.numReqs qsl with
        | .error _ => originalKvLens builder cam
        | .ok bases =>
          if checked then originalKvLens builder cam
          else (startOf qsl cam.numReqs, lensFromBases builder.indexer bases qsl)
      (result, { world with cache := some (cam, world.core.serial, result) })

/-- One event; `slots` is the number of state slots. -/
def step (builder : Builder) (slots : Nat) (world : World ρ) : Event ρ → World ρ
  | .beginStep real =>
    let core := world.core.beginStep real
    if real then { world with core := core, updated := false, prepared := [] }
    else { world with core := core }
  | .desync unsupported => { world with core := { world.core with desync := unsupported } }
  | .switch on => { world with active := on }
  | .add reqId slot count =>
    { world with
      core := world.core.noteAdded reqId
      device := Function.update world.device slot count
      slotOf := Function.update world.slotOf reqId (some slot)
      staged := Function.update world.staged reqId (some count) }
  | .remove reqId => { world with slotOf := Function.update world.slotOf reqId none }
  | .batch inputBatch =>
    { world with
      core := world.core.noteBatch inputBatch
      prepared :=
        if world.core.inRealStep then slotCounts world.device inputBatch :: world.prepared
        else world.prepared }
  | .update counts => { world with device := counts, staged := fun _ => none, updated := true }
  | .snapshot recorded =>
    if world.active ∧ world.core.inRealStep then
      let slot := world.ringI % 3
      { world with
        ring := Function.update world.ring slot ((List.range slots).map world.device)
        ringI := world.ringI + 1
        core := if recorded then world.core.noteSnapshot slot else world.core.dropSnapshot }
    else world
  | .drop => { world with core := world.core.dropSnapshot }
  | .build cam capturing checked => (patchedKvLensHost builder capturing checked world cam).2

/-- A batch agrees with the runner's state: its rows name the slots of their requests, and the host
count of a request added since the last update is the staged one. -/
def Describes (world : World ρ) (inputBatch : InputBatch ρ) : Prop :=
  ∀ (row : Nat) (reqId : ρ) (index : Int), inputBatch.rows[row]? = some reqId →
    inputBatch.idxMapping[row]? = some index → 0 ≤ index →
      world.slotOf reqId = some index.toNat ∧
        ∀ (count host : Int), world.staged reqId = some count →
          inputBatch.numComputedTokens[row]? = some host → host = count

/-- The request is not a row of the noted batch. -/
def World.Unlisted (world : World ρ) (reqId : ρ) : Prop :=
  ∀ serial inputBatch, world.core.batch = some (serial, inputBatch) → reqId ∉ inputBatch.rows

/-- What the runner promises. A request is added to a slot no other request owns; the requests of
the noted batch are neither added again nor removed. A step updates once, after its batch and before
its copy; steps that are not real do not update. -/
def allowed (world : World ρ) : Event ρ → Prop
  | .add reqId slot _ =>
    world.Unlisted reqId ∧ ∀ other, other ≠ reqId → world.slotOf other ≠ some slot
  | .remove reqId => world.Unlisted reqId
  | .batch inputBatch =>
    world.core.inRealStep = true → world.updated = false ∧ Describes world inputBatch
  | .update _ => world.core.inRealStep = true ∧ world.updated = false
  | .snapshot _ => world.active = true → world.core.inRealStep = true → world.updated = true
  | .build cam _ _ =>
    ∀ cached serial result, world.cache = some (cached, serial, result) →
      Cam.same cached cam → cached = cam
  | _ => True

/-- A fresh process beside a device with any counts. -/
def World.initial (device : Nat → Int) : World ρ :=
  ⟨Core.initial, device, fun _ => none, fun _ => none, fun _ => [], 0, false, false, [], none⟩

/-- The hooks beside the runner and the device. -/
def mirror (builder : Builder) (slots : Nat) (device : Nat → Int) : System (World ρ) (Event ρ) where
  initial := World.initial device
  step := step builder slots
  allowed := allowed

end Runner

section Invariant

/-- No update lies between the copy and now. -/
def World.Current (world : World ρ) (snap : Snapshot) : Prop :=
  snap.serial = world.core.serial ∨ snap.serial + 1 = world.core.serial ∧ world.updated = false

/-- A current copy has the counts of all requests but the added ones, whose counts are staged. -/
def World.Held (world : World ρ) (snap : Snapshot) : Prop :=
  ∀ (reqId : ρ) (slot : Nat), world.slotOf reqId = some slot →
    (reqId ∈ world.core.added → ∃ count, world.staged reqId = some count) ∧
      (reqId ∉ world.core.added → ∀ value, (world.ring snap.slot)[slot]? = some value →
        value = world.device slot)

/-- The rows of a batch still own their slots, and the counts by row are what the host's counts or
the copy of the step before give. -/
def World.RowsHeld (world : World ρ) (inputBatch : InputBatch ρ) (counts : Nat → Int) : Prop :=
  ∀ (row : Nat) (reqId : ρ) (index : Int), inputBatch.rows[row]? = some reqId →
    inputBatch.idxMapping[row]? = some index → 0 ≤ index →
      world.slotOf reqId = some index.toNat ∧
        (world.updated = false → counts row = world.device index.toNat) ∧
        ∀ snap, world.core.snap = some snap → snap.serial + 1 = world.core.serial →
          (reqId ∈ world.core.added → ∀ host, inputBatch.numComputedTokens[row]? = some host →
            host = counts row) ∧
          (reqId ∉ world.core.added → ∀ value, (world.ring snap.slot)[index.toNat]? = some value →
            value = counts row)

/-- What holds in every reachable state: a batch is that of the current step, a snapshot belongs to
a step that is over, and what is staged, held or cached agrees with them. -/
structure Invariant (builder : Builder) (world : World ρ) : Prop where
  batchNow : ∀ serial inputBatch, world.core.batch = some (serial, inputBatch) →
    serial = world.core.serial
  snapPast : ∀ snap, world.core.snap = some snap → snap.serial ≤ world.core.serial ∧
    (snap.serial = world.core.serial → world.updated = true)
  stagedHeld : ∀ reqId count slot, world.staged reqId = some count →
    world.slotOf reqId = some slot → world.device slot = count
  held : ∀ snap, world.core.snap = some snap → world.Current snap → world.Held snap
  batchHeld : ∀ serial inputBatch, world.core.batch = some (serial, inputBatch) →
    ∃ counts rest, world.prepared = counts :: rest ∧ world.RowsHeld inputBatch counts
  cached : ∀ cam serial result, world.cache = some (cam, serial, result) →
    serial ≤ world.core.serial ∧ (serial = world.core.serial →
      result = originalKvLens builder cam ∨ ∃ counts ∈ world.prepared,
        result = deviceLens builder.indexer counts cam.queryStartLocCpu cam.numReqs)

end Invariant

section Bases

/-- A prepended base is known only with the rest. -/
theorem map_cons_ok (value : Int) (outcome : Except Reason (List Int)) (bases : List Int)
    (known : outcome.map (value :: ·) = .ok bases) :
    ∃ others, outcome = .ok others ∧ bases = value :: others := by
  cases outcome with
  | error reason => exact absurd known (by simp [Except.map])
  | ok others => exact ⟨others, rfl, (Except.ok.inj known).symm⟩

/-- Known bases are the host's counts of added requests and the copied counts of all others. -/
theorem readBases_spec (added : List ρ) (dev : List Int) (rows : List (ρ × Int × Int))
    (bases : List Int) (known : readBases added dev rows = .ok bases) :
    bases.length = rows.length ∧ ∀ (row : Nat) (reqId : ρ) (index host : Int),
      rows[row]? = some (reqId, index, host) → (reqId ∈ added → bases[row]? = some host) ∧
        (reqId ∉ added → bases[row]? = dev[index.toNat]?) := by
  induction rows generalizing bases with
  | nil =>
    have none : [] = bases := Except.ok.inj known
    simp [← none]
  | cons entry rest ih =>
    obtain ⟨rid, own, held⟩ := entry
    rw [readBases] at known
    have step : ∃ base others, readBases added dev rest = .ok others ∧ bases = base :: others ∧
        (rid ∈ added → base = held) ∧ (rid ∉ added → dev[own.toNat]? = some base) := by
      by_cases isNew : rid ∈ added
      · rw [if_pos isNew] at known
        obtain ⟨others, restKnown, same⟩ := map_cons_ok held _ bases known
        exact ⟨held, others, restKnown, same, fun _ => rfl, fun old => absurd isNew old⟩
      · rw [if_neg isNew] at known
        cases read : dev[own.toNat]? with
        | none => simp [read] at known
        | some base =>
          rw [read] at known
          obtain ⟨others, restKnown, same⟩ := map_cons_ok base _ bases known
          exact ⟨base, others, restKnown, same, fun old => absurd old isNew, fun _ => rfl⟩
    obtain ⟨base, others, restKnown, rfl, fresh, copied⟩ := step
    obtain ⟨size, later⟩ := ih others restKnown
    refine ⟨by rw [List.length_cons, List.length_cons, size], ?_⟩
    rintro (_ | row) reqId index host there
    · obtain ⟨rfl, rfl, rfl⟩ : rid = reqId ∧ own = index ∧ held = host := by simpa using there
      exact ⟨fun isNew => congrArg some (fresh isNew), fun old => (copied old).symm⟩
    · exact later row reqId index host there

/-- What an accepted plan rests on: the batch of this step, the copy of the step before, and for
every row the host's count or the copied one. -/
theorem planBases_spec (core : Core ρ) (ring : Nat → List Int) (camNumReqs : Nat)
    (camQsl : List Nat) (bases : List Int)
    (known : core.planBases ring camNumReqs camQsl = .ok bases) :
    ∃ inputBatch snap, core.batch = some (core.serial, inputBatch) ∧ core.snap = some snap ∧
      snap.serial + 1 = core.serial ∧ inputBatch.numReqs = camNumReqs ∧
      bases.length = camNumReqs ∧ ∀ row, row < camNumReqs → ∃ reqId index host,
        inputBatch.rows[row]? = some reqId ∧ inputBatch.idxMapping[row]? = some index ∧ 0 ≤ index ∧
        inputBatch.numComputedTokens[row]? = some host ∧
        (reqId ∈ core.added → bases[row]? = some host) ∧
        (reqId ∉ core.added → bases[row]? = (ring snap.slot)[index.toNat]?) := by
  rw [Core.planBases] at known
  split at known
  · exact absurd known (by simp)
  split at known
  · exact absurd known (by simp)
  next serial inputBatch noted =>
  split at known
  · exact absurd known (by simp)
  next now =>
  split at known
  · exact absurd known (by simp)
  next snap taken =>
  split at known
  · exact absurd known (by simp)
  next before =>
  obtain rfl : serial = core.serial := not_not.mp now
  rw [batchBases] at known
  dsimp only at known
  split at known
  · exact absurd known (by simp)
  next rows =>
  obtain rfl : inputBatch.numReqs = camNumReqs := not_not.mp rows
  split at known
  · exact absurd known (by simp)
  split at known
  · exact absurd known (by simp)
  next shape =>
  split at known
  · exact absurd known (by simp)
  next unfiltered =>
  simp only [not_or, not_not] at shape
  obtain ⟨names, indices, hosts⟩ := shape
  obtain ⟨size, each⟩ := readBases_spec _ _ _ bases known
  have length : bases.length = inputBatch.numReqs := by
    rw [size, List.length_zip, List.length_zip, names, indices, hosts]
    omega
  refine ⟨inputBatch, snap, noted, taken, by omega, rfl, length, fun row inside => ?_⟩
  have named : row < (inputBatch.reqIds.take inputBatch.numReqs).length := by
    rw [names]
    exact inside
  have indexed : row < (inputBatch.idxMapping.take inputBatch.numReqs).length := by
    rw [indices]
    exact inside
  have hosted : row < (inputBatch.numComputedTokens.take inputBatch.numReqs).length := by
    rw [hosts]
    exact inside
  obtain ⟨reqId, name⟩ : ∃ reqId, (inputBatch.reqIds.take inputBatch.numReqs)[row]? = some reqId :=
    ⟨_, List.getElem?_eq_getElem named⟩
  obtain ⟨index, place⟩ : ∃ index,
      (inputBatch.idxMapping.take inputBatch.numReqs)[row]? = some index :=
    ⟨_, List.getElem?_eq_getElem indexed⟩
  obtain ⟨host, count⟩ : ∃ host,
      (inputBatch.numComputedTokens.take inputBatch.numReqs)[row]? = some host :=
    ⟨_, List.getElem?_eq_getElem hosted⟩
  have listed : ((inputBatch.reqIds.take inputBatch.numReqs).zip
      ((inputBatch.idxMapping.take inputBatch.numReqs).zip
        (inputBatch.numComputedTokens.take inputBatch.numReqs)))[row]? =
          some (reqId, index, host) := by
    rw [List.getElem?_zip_eq_some, List.getElem?_zip_eq_some]
    exact ⟨name, place, count⟩
  have positive : 0 ≤ index := by
    by_contra negative
    apply unfiltered
    rw [List.any_eq_true]
    exact ⟨index, List.mem_of_getElem? place, by simpa using negative⟩
  rw [List.getElem?_take_of_lt inside] at place count
  exact ⟨reqId, index, host, name, place, positive, count, each row reqId index host listed⟩

end Bases

section Preservation

variable {builder : Builder} {slots : Nat} {world : World ρ}

/-- The beginning of a step keeps the invariant: a copy of an older step is no longer current. -/
theorem invariant_beginStep (invariant : Invariant builder world) (real : Bool) :
    Invariant builder (step builder slots world (.beginStep real)) := by
  cases real with
  | false =>
    exact ⟨fun _ _ noted => absurd noted (by simp [step, Core.beginStep]), invariant.snapPast,
      invariant.stagedHeld, invariant.held, fun _ _ noted => absurd noted (by simp [step,
        Core.beginStep]), invariant.cached⟩
  | true =>
    constructor
    · intro serial inputBatch noted
      exact absurd noted (by simp [step, Core.beginStep])
    · intro snap taken
      obtain ⟨past, _⟩ := invariant.snapPast snap taken
      refine ⟨Nat.le_succ_of_le past, fun now => ?_⟩
      have next : snap.serial = world.core.serial + 1 := now
      omega
    · exact invariant.stagedHeld
    · intro snap taken current
      obtain ⟨past, _⟩ := invariant.snapPast snap taken
      apply invariant.held snap taken
      left
      rcases current with now | ⟨before, _⟩
      · have next : snap.serial = world.core.serial + 1 := now
        omega
      · exact Nat.succ_inj.mp before
    · intro serial inputBatch noted
      exact absurd noted (by simp [step, Core.beginStep])
    · intro cam serial result kept
      obtain ⟨past, _⟩ := invariant.cached cam serial result kept
      refine ⟨Nat.le_succ_of_le past, fun now => ?_⟩
      have next : serial = world.core.serial + 1 := now
      omega

/-- Adding a request to a free slot keeps the invariant. -/
theorem invariant_add (invariant : Invariant builder world) (reqId : ρ) (slot : Nat) (count : Int)
    (sent : allowed world (.add reqId slot count)) :
    Invariant builder (step builder slots world (.add reqId slot count)) := by
  obtain ⟨unlisted, free⟩ := sent
  -- The other requests keep their slots, their counts and whether they were added.
  have elsewhere : ∀ (other : ρ) (own : Nat), other ≠ reqId → world.slotOf other = some own →
      own ≠ slot := by
    rintro other own different owned rfl
    exact free other different owned
  have known : ∀ (other : ρ), other ≠ reqId →
      (other ∈ reqId :: world.core.added ↔ other ∈ world.core.added) := by
    intro other different
    simp [different]
  have kept : ∀ (other : ρ) (own : Nat), other ≠ reqId →
      (step builder slots world (.add reqId slot count)).slotOf other = some own →
        world.slotOf other = some own := by
    intro other own different owned
    simpa [step, different] using owned
  constructor
  · exact invariant.batchNow
  · exact invariant.snapPast
  · intro other value own stagedCount owned
    simp only [step] at stagedCount owned ⊢
    by_cases same : other = reqId
    · subst same
      rw [Function.update_self] at stagedCount owned
      obtain rfl := Option.some.inj stagedCount
      obtain rfl := Option.some.inj owned
      exact Function.update_self ..
    · rw [Function.update_of_ne same] at stagedCount owned
      rw [Function.update_of_ne (elsewhere other own same owned)]
      exact invariant.stagedHeld other value own stagedCount owned
  · intro snap taken current other own owned
    have held := invariant.held snap taken current
    by_cases same : other = reqId
    · subst same
      exact ⟨fun _ => ⟨count, Function.update_self ..⟩, fun old => absurd List.mem_cons_self old⟩
    · have before := kept other own same owned
      obtain ⟨stagedCount, copied⟩ := held other own before
      simp only [step, Core.noteAdded, known other same, Function.update_of_ne same,
        Function.update_of_ne (elsewhere other own same before)]
      exact ⟨stagedCount, copied⟩
  · intro serial inputBatch noted
    obtain ⟨counts, rest, prepared, rows⟩ := invariant.batchHeld serial inputBatch noted
    refine ⟨counts, rest, prepared, fun row other index placed indexed positive => ?_⟩
    obtain ⟨owned, device, bases⟩ := rows row other index placed indexed positive
    have different : other ≠ reqId := by
      rintro rfl
      exact unlisted serial inputBatch noted (List.mem_of_getElem? placed)
    simp only [step, Core.noteAdded, known other different, Function.update_of_ne different,
      Function.update_of_ne (elsewhere other index.toNat different owned)]
    exact ⟨owned, device, bases⟩
  · exact invariant.cached

/-- Removing a request that is not in the noted batch keeps the invariant. -/
theorem invariant_remove (invariant : Invariant builder world) (reqId : ρ)
    (sent : allowed world (.remove reqId)) :
    Invariant builder (step builder slots world (.remove reqId)) := by
  have kept : ∀ (other : ρ) (own : Nat),
      (step builder slots world (.remove reqId)).slotOf other = some own →
        world.slotOf other = some own := by
    intro other own owned
    by_cases same : other = reqId
    · simp [step, same] at owned
    · simpa [step, same] using owned
  constructor
  · exact invariant.batchNow
  · exact invariant.snapPast
  · intro other count own stagedCount owned
    exact invariant.stagedHeld other count own stagedCount (kept other own owned)
  · intro snap taken current other own owned
    exact invariant.held snap taken current other own (kept other own owned)
  · intro serial inputBatch noted
    obtain ⟨counts, rest, prepared, rows⟩ := invariant.batchHeld serial inputBatch noted
    refine ⟨counts, rest, prepared, fun row other index placed indexed positive => ?_⟩
    obtain ⟨owned, facts⟩ := rows row other index placed indexed positive
    have different : other ≠ reqId := by
      rintro rfl
      exact sent serial inputBatch noted (List.mem_of_getElem? placed)
    refine ⟨?_, facts⟩
    simpa [step, different] using owned
  · exact invariant.cached

/-- Preparing the batch of a step keeps the invariant. -/
theorem invariant_batch (invariant : Invariant builder world) (inputBatch : InputBatch ρ)
    (sent : allowed world (.batch inputBatch)) :
    Invariant builder (step builder slots world (.batch inputBatch)) := by
  cases within : world.core.inRealStep with
  | false =>
    have same : step builder slots world (.batch inputBatch) = world := by
      simp [step, Core.noteBatch, within]
    rw [same]
    exact invariant
  | true =>
    obtain ⟨before, described⟩ := sent within
    have after : step builder slots world (.batch inputBatch) = { world with
        core := { world.core with batch := some (world.core.serial, inputBatch) }
        prepared := slotCounts world.device inputBatch :: world.prepared } := by
      simp [step, Core.noteBatch, within]
    rw [after]
    constructor
    · intro serial noted same
      exact (congrArg Prod.fst (Option.some.inj same)).symm
    · exact invariant.snapPast
    · exact invariant.stagedHeld
    · exact invariant.held
    · intro serial noted same
      obtain rfl : inputBatch = noted := congrArg Prod.snd (Option.some.inj same)
      refine ⟨_, _, rfl, fun row reqId index placed indexed positive => ?_⟩
      obtain ⟨owned, hosted⟩ := described row reqId index placed indexed positive
      have own : slotCounts world.device inputBatch row = world.device index.toNat := by
        rw [slotCounts, List.getD_eq_getElem?_getD, indexed, Option.getD_some]
      refine ⟨owned, fun _ => own, fun snap taken previous => ?_⟩
      obtain ⟨fresh, copied⟩ := invariant.held snap taken (Or.inr ⟨previous, before⟩) reqId
        index.toNat owned
      rw [own]
      refine ⟨fun isNew host listed => ?_, copied⟩
      obtain ⟨count, stagedCount⟩ := fresh isNew
      rw [hosted count host stagedCount listed]
      exact (invariant.stagedHeld reqId count index.toNat stagedCount owned).symm
    · intro cam serial result kept
      obtain ⟨past, here⟩ := invariant.cached cam serial result kept
      refine ⟨past, fun now => (here now).imp_right ?_⟩
      rintro ⟨counts, there, lens⟩
      exact ⟨counts, List.mem_cons_of_mem _ there, lens⟩

/-- The update of a step keeps the invariant: no copy is current until the next one is taken. -/
theorem invariant_update (invariant : Invariant builder world) (counts : Nat → Int)
    (sent : allowed world (.update counts)) :
    Invariant builder (step builder slots world (.update counts)) := by
  obtain ⟨_, before⟩ := sent
  constructor
  · exact invariant.batchNow
  · intro snap taken
    exact ⟨(invariant.snapPast snap taken).1, fun _ => rfl⟩
  · intro reqId count slot stagedCount
    exact absurd stagedCount (by simp [step])
  · rintro snap taken (now | ⟨_, unupdated⟩)
    · have updated := (invariant.snapPast snap taken).2 now
      rw [before] at updated
      exact absurd updated Bool.false_ne_true
    · exact absurd unupdated (by simp [step])
  · intro serial inputBatch noted
    obtain ⟨counts, rest, prepared, rows⟩ := invariant.batchHeld serial inputBatch noted
    refine ⟨counts, rest, prepared, fun row reqId index placed indexed positive => ?_⟩
    obtain ⟨owned, _, bases⟩ := rows row reqId index placed indexed positive
    exact ⟨owned, fun unupdated => absurd unupdated (by simp [step]), bases⟩
  · exact invariant.cached

omit [DecidableEq ρ] in
/-- Without a copy the invariant asks less. -/
theorem invariant_drop (invariant : Invariant builder world) (ring : Nat → List Int) (ringI : Nat) :
    Invariant builder { world with
      core := world.core.dropSnapshot, ring := ring, ringI := ringI } := by
  have dropped : ∀ snap, world.core.dropSnapshot.snap ≠ some snap := by
    intro snap
    simp [Core.dropSnapshot]
  constructor
  · exact invariant.batchNow
  · intro snap taken
    exact absurd taken (dropped snap)
  · exact invariant.stagedHeld
  · intro snap taken
    exact absurd taken (dropped snap)
  · intro serial inputBatch noted
    obtain ⟨counts, rest, prepared, rows⟩ := invariant.batchHeld serial inputBatch noted
    refine ⟨counts, rest, prepared, fun row reqId index placed indexed positive => ?_⟩
    obtain ⟨owned, device, _⟩ := rows row reqId index placed indexed positive
    exact ⟨owned, device, fun snap taken => absurd taken (dropped snap)⟩
  · exact invariant.cached

/-- Taking a copy after the update keeps the invariant. -/
theorem invariant_snapshot (invariant : Invariant builder world) (recorded : Bool)
    (sent : allowed world (.snapshot recorded)) :
    Invariant builder (step builder slots world (.snapshot recorded)) := by
  rw [step]
  split
  · next hooked =>
    cases recorded with
    | false => exact invariant_drop invariant _ _
    | true =>
      have updated := sent hooked.1 hooked.2
      simp only [if_true, Core.noteSnapshot, hooked.2]
      constructor
      · exact invariant.batchNow
      · intro snap taken
        obtain rfl := Option.some.inj taken
        exact ⟨Nat.le_refl _, fun _ => updated⟩
      · exact invariant.stagedHeld
      · intro snap taken _ reqId slot owned
        obtain rfl := Option.some.inj taken
        refine ⟨fun isNew => absurd isNew List.not_mem_nil, fun _ value read => ?_⟩
        dsimp only at read
        rw [Function.update_self, List.getElem?_map] at read
        obtain ⟨index, inside, rfl⟩ := Option.map_eq_some_iff.mp read
        obtain ⟨_, rfl⟩ := List.getElem?_eq_some_iff.mp inside
        rw [List.getElem_range]
      · intro serial inputBatch noted
        obtain ⟨counts, rest, prepared, rows⟩ := invariant.batchHeld serial inputBatch noted
        refine ⟨counts, rest, prepared, fun row reqId index placed indexed positive => ?_⟩
        obtain ⟨owned, device, _⟩ := rows row reqId index placed indexed positive
        refine ⟨owned, device, fun snap taken previous => ?_⟩
        obtain rfl := Option.some.inj taken
        exact absurd previous (Nat.succ_ne_self _)
      · exact invariant.cached
  · exact invariant

end Preservation

section Mirror

variable {builder : Builder} {slots : Nat} {world : World ρ}

/-- An accepted plan has the counts the batch of this step was prepared with. Until the update
these are the device's counts, and the lengths they give are the device's. -/
theorem Invariant.plan_exact (invariant : Invariant builder world) (camNumReqs : Nat)
    (camQsl : List Nat) (bases : List Int)
    (planned : world.core.planBases world.ring camNumReqs camQsl = .ok bases) :
    ∃ inputBatch counts rest, world.core.batch = some (world.core.serial, inputBatch) ∧
      inputBatch.numReqs = camNumReqs ∧ world.prepared = counts :: rest ∧
      bases = (List.range camNumReqs).map counts ∧
      (world.updated = false → ∀ row, row < camNumReqs →
        counts row = slotCounts world.device inputBatch row) ∧
      ∀ indexer, (startOf camQsl camNumReqs, lensFromBases indexer bases camQsl) =
        deviceLens indexer counts camQsl camNumReqs := by
  obtain ⟨inputBatch, snap, noted, taken, previous, numReqs, length, rows⟩ :=
    planBases_spec world.core world.ring camNumReqs camQsl bases planned
  obtain ⟨counts, rest, prepared, held⟩ := invariant.batchHeld _ inputBatch noted
  have base : ∀ row, row < camNumReqs → bases[row]? = some (counts row) := by
    intro row inside
    obtain ⟨reqId, index, host, placed, indexed, positive, hosted, fresh, copied⟩ := rows row inside
    obtain ⟨_, _, right⟩ := held row reqId index placed indexed positive
    obtain ⟨fromHost, fromCopy⟩ := right snap taken previous
    by_cases isNew : reqId ∈ world.core.added
    · rw [fresh isNew, fromHost isNew host hosted]
    · have present : row < bases.length := length.symm ▸ inside
      have read := copied isNew
      rw [List.getElem?_eq_getElem present] at read ⊢
      rw [fromCopy isNew _ read.symm]
  have listed : bases = (List.range camNumReqs).map counts := by
    apply List.ext_getElem?
    intro row
    by_cases inside : row < camNumReqs
    · rw [base row inside, List.getElem?_map, List.getElem?_range inside, Option.map_some]
    · rw [List.getElem?_eq_none (by omega), List.getElem?_eq_none (by simpa using inside)]
  refine ⟨inputBatch, counts, rest, noted, numReqs, prepared, listed, ?_, ?_⟩
  · intro unupdated row inside
    obtain ⟨reqId, index, host, placed, indexed, positive, _, _, _⟩ := rows row inside
    obtain ⟨_, device, _⟩ := held row reqId index placed indexed positive
    rw [device unupdated, slotCounts, List.getD_eq_getElem?_getD, indexed, Option.getD_some]
  · intro indexer
    rw [lensFromBases_eq indexer counts camQsl bases fun row inside => base row (length ▸ inside),
      length]
    rfl

/-- What a build returns, and that it changes nothing but the remembered result. -/
theorem build_cases (invariant : Invariant builder world) (cam : Cam) (capturing checked : Bool) :
    let after := patchedKvLensHost builder capturing checked world cam
    (after.2 = world ∧ (after.1 = originalKvLens builder cam ∨
        world.reentered cam = some after.1)) ∨
      after.2 = { world with cache := some (cam, world.core.serial, after.1) } ∧
        (after.1 = originalKvLens builder cam ∨ ∃ counts ∈ world.prepared,
          after.1 = deviceLens builder.indexer counts cam.queryStartLocCpu cam.numReqs) := by
  intro after
  by_cases unhooked : world.active = false ∨ builder.asyncScheduling = false ∨ capturing = true
  · left
    have done : after = (originalKvLens builder cam, world) := if_pos unhooked
    rw [done]
    exact ⟨rfl, Or.inl rfl⟩
  · cases again : world.reentered cam with
    | some result =>
      left
      have done : after = (result, world) := by
        simp only [after, patchedKvLensHost, unhooked, again, if_false]
      rw [done]
      exact ⟨rfl, Or.inr rfl⟩
    | none =>
      right
      have known : after.2 = { world with cache := some (cam, world.core.serial, after.1) } := by
        simp only [after, patchedKvLensHost, unhooked, again, if_false]
      refine ⟨known, ?_⟩
      cases planned : world.core.planBases world.ring cam.numReqs
          (cam.queryStartLocCpu.take (cam.numReqs + 1)) with
      | error reason =>
        left
        simp only [after, patchedKvLensHost, unhooked, again, planned, if_false]
      | ok bases =>
        cases checked with
        | true =>
          left
          simp only [after, patchedKvLensHost, unhooked, again, planned, if_false, if_true]
        | false =>
          right
          obtain ⟨_, counts, rest, _, _, prepared, _, _, lens⟩ :=
            invariant.plan_exact cam.numReqs _ bases planned
          refine ⟨counts, prepared ▸ List.mem_cons_self, ?_⟩
          rw [← deviceLens_take, ← lens builder.indexer]
          simp [after, patchedKvLensHost, unhooked, again, planned]

/-- A metadata build keeps the invariant, whether or not it captures and whether or not its bases
are checked. -/
theorem invariant_build (invariant : Invariant builder world) (cam : Cam)
    (capturing checked : Bool) :
    Invariant builder (step builder slots world (.build cam capturing checked)) := by
  have after := build_cases invariant cam capturing checked
  rw [step]
  generalize patchedKvLensHost builder capturing checked world cam = outcome at after ⊢
  obtain ⟨result, next⟩ := outcome
  rcases after with ⟨same, _⟩ | ⟨same, lens⟩
  · dsimp only at same ⊢
    rw [same]
    exact invariant
  · dsimp only at same lens ⊢
    rw [same]
    refine ⟨invariant.batchNow, invariant.snapPast, invariant.stagedHeld, invariant.held,
      invariant.batchHeld, ?_⟩
    intro last serial kept remembered
    obtain ⟨rfl, rfl, rfl⟩ : cam = last ∧ world.core.serial = serial ∧ result = kept := by
      simpa using remembered
    exact ⟨Nat.le_refl _, fun _ => lens⟩

/-- The invariant holds in every reachable state. -/
theorem invariant_reachable (builder : Builder) (slots : Nat) (device : Nat → Int)
    {world : World ρ} (reachable : Reachable (mirror builder slots device) world) :
    Invariant builder world := by
  apply reachable.invariant
  · constructor
    · intro serial inputBatch noted
      exact absurd noted (by simp [mirror, World.initial, Core.initial])
    · intro snap taken
      exact absurd taken (by simp [mirror, World.initial, Core.initial])
    · intro reqId count slot stagedCount
      exact absurd stagedCount (by simp [mirror, World.initial])
    · intro snap taken
      exact absurd taken (by simp [mirror, World.initial, Core.initial])
    · intro serial inputBatch noted
      exact absurd noted (by simp [mirror, World.initial, Core.initial])
    · intro cam serial result kept
      exact absurd kept (by simp [mirror, World.initial])
  · intro state event invariant sent
    change Invariant builder (step builder slots state event)
    cases event with
    | beginStep real => exact invariant_beginStep invariant real
    | desync unsupported =>
      exact ⟨invariant.batchNow, invariant.snapPast, invariant.stagedHeld, invariant.held,
        invariant.batchHeld, invariant.cached⟩
    | switch on =>
      exact ⟨invariant.batchNow, invariant.snapPast, invariant.stagedHeld, invariant.held,
        invariant.batchHeld, invariant.cached⟩
    | add reqId slot count => exact invariant_add invariant reqId slot count sent
    | remove reqId => exact invariant_remove invariant reqId sent
    | batch inputBatch => exact invariant_batch invariant inputBatch sent
    | update counts => exact invariant_update invariant counts sent
    | snapshot recorded => exact invariant_snapshot invariant recorded sent
    | drop => exact invariant_drop invariant state.ring state.ringI
    | build cam capturing checked => exact invariant_build invariant cam capturing checked

/-- In every reachable state a plan is refused with a reason, or its bases are the counts the
device prepared the rows of this step's batch with, still held by the device until the step's
update, and the lengths from these bases are the device's. A build returns the deployed lengths or
the device's lengths of a batch of its step. -/
theorem early_plan_exact (builder : Builder) (slots : Nat) (device : Nat → Int)
    {world : World ρ} (reachable : Reachable (mirror builder slots device) world) :
    (∀ camNumReqs camQsl, match world.core.planBases world.ring camNumReqs camQsl with
      | .error _ => True
      | .ok bases => ∃ inputBatch counts rest,
        world.core.batch = some (world.core.serial, inputBatch) ∧
        inputBatch.numReqs = camNumReqs ∧ world.prepared = counts :: rest ∧
        bases = (List.range camNumReqs).map counts ∧
        (world.updated = false → ∀ row, row < camNumReqs →
          counts row = slotCounts world.device inputBatch row) ∧
        ∀ indexer, (startOf camQsl camNumReqs, lensFromBases indexer bases camQsl) =
          deviceLens indexer counts camQsl camNumReqs) ∧
    ∀ cam capturing checked, allowed world (.build cam capturing checked) →
      let result := (patchedKvLensHost builder capturing checked world cam).1
      result = originalKvLens builder cam ∨ ∃ counts ∈ world.prepared,
        result = deviceLens builder.indexer counts cam.queryStartLocCpu cam.numReqs := by
  have invariant := invariant_reachable builder slots device reachable
  constructor
  · intro camNumReqs camQsl
    split
    · trivial
    next bases planned => exact invariant.plan_exact camNumReqs camQsl bases planned
  · intro cam capturing checked sameObject result
    rcases build_cases invariant cam capturing checked with ⟨_, original | again⟩ | ⟨_, lens⟩
    · exact Or.inl original
    · rw [World.reentered] at again
      split at again
      · exact absurd again (by simp)
      next cached serial kept remembered =>
        split at again
        next here =>
          obtain rfl := sameObject cached serial kept remembered here.1
          obtain rfl : kept = result := Option.some.inj again
          exact (invariant.cached cached serial _ remembered).2 here.2
        next => exact absurd again (by simp)
    · exact lens

end Mirror

section Accepted

/-- A batch of one request with the host's count of it. -/
def batchOf (rows : Nat) (computed : Int) : InputBatch Nat :=
  ⟨[7], 1, [0], [0, rows], [0, rows], [false], [computed]⟩

/-- A request is added with five computed tokens, its step leaves it at eight and takes a copy; the
next step has prepared its batch while the host still expects nine. -/
def acceptedRun : List (Event Nat) :=
  [.switch true, .beginStep true, .add 7 0 5, .batch (batchOf 4 5), .update fun _ => 8,
    .snapshot true, .beginStep true, .batch (batchOf 4 9)]

/-- The state the run ends in. -/
def acceptedWorld : World Nat :=
  (mirror ⟨true, ⟨2048, 4⟩⟩ 2 fun _ => 0).run (World.initial fun _ => 0) acceptedRun

/-- The run keeps what the runner promises. -/
theorem acceptedWorld_reachable :
    Reachable (mirror ⟨true, ⟨2048, 4⟩⟩ 2 fun _ => 0) acceptedWorld := by
  apply Reachable.initial.run
  refine ⟨trivial, trivial, ⟨fun _ _ noted => (nomatch noted), fun other _ => ?_⟩, fun _ => ⟨rfl, ?_⟩,
    ⟨rfl, rfl⟩, fun _ _ => rfl, trivial, fun _ => ⟨rfl, ?_⟩, trivial⟩
  · exact fun owned => nomatch owned
  · rintro (_ | row) reqId index placed indexed _
    · obtain rfl := Option.some.inj placed
      obtain rfl := Option.some.inj indexed
      refine ⟨rfl, fun count host stagedCount listed => ?_⟩
      obtain rfl : 5 = count := Option.some.inj stagedCount
      exact (Option.some.inj listed).symm
    · exact absurd placed (by simp [InputBatch.rows, batchOf])
  · rintro (_ | row) reqId index placed indexed _
    · obtain rfl := Option.some.inj placed
      obtain rfl := Option.some.inj indexed
      exact ⟨rfl, fun count host stagedCount => nomatch stagedCount⟩
    · exact absurd placed (by simp [InputBatch.rows, batchOf])

/-- The plan of the next step is accepted with the device's count. -/
theorem early_plan_exact_accepted :
    acceptedWorld.core.planBases acceptedWorld.ring 1 [0, 4] = .ok [8] ∧
      ∃ counts rest, acceptedWorld.prepared = counts :: rest ∧ [8] = (List.range 1).map counts := by
  have planned : acceptedWorld.core.planBases acceptedWorld.ring 1 [0, 4] = .ok [8] := rfl
  have plan := (early_plan_exact _ 2 _ acceptedWorld_reachable).1 1 [0, 4]
  rw [planned] at plan
  obtain ⟨_, counts, rest, _, _, prepared, bases, _⟩ := plan
  exact ⟨planned, counts, rest, prepared, bases⟩

end Accepted

end GlmSpark.EarlyPlan
