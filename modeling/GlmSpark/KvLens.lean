import Mathlib.Data.List.Basic

/-!
# Attention lengths of one metadata build

The sparse attention planner needs one length for every flat row of a batch. The
rows of a request are contiguous and start at the number of tokens the device has
computed for it, so the lengths follow from one count per request. The source
derives them in several ways: from the positions on the device, from an upper bound
of the sequence lengths on the host, or from a list of counts. Here each is
translated, and shown to be the lengths of one common list of positions when its
input is right.
-/

namespace GlmSpark.KvLens

universe u

/-- The entry of a cumulative row count list. -/
def startOf (queryStartLoc : List Nat) (request : Nat) : Nat :=
  queryStartLoc.getD request 0

/-- Rows of one request, as the difference of neighbouring entries. -/
def queryLen (queryStartLoc : List Nat) (request : Nat) : Nat :=
  startOf queryStartLoc (request + 1) - startOf queryStartLoc request

/-- The first entries are cumulative counts: they start at zero and do not decrease. -/
structure Cumulative (queryStartLoc : List Nat) (numReqs : Nat) : Prop where
  first : startOf queryStartLoc 0 = 0
  ascending : ∀ request, request < numReqs →
    startOf queryStartLoc request ≤ startOf queryStartLoc (request + 1)

/-- The two numbers of the indexer that bound a length. -/
structure Indexer where
  indexTopk : Int
  indexKpool : Int

/-- The length planned for a row that attends to `ctx` tokens. -/
def Indexer.bound (indexer : Indexer) (ctx : Int) : Int :=
  if ctx ≤ indexer.indexTopk then ctx
  else indexer.indexTopk + ctx % max indexer.indexKpool 1

/-- The positions the device prepares: those of a request are contiguous and start at its count. -/
def devicePositions (computed : Nat → Int) (queryStartLoc : List Nat) (numReqs : Nat) : List Int :=
  (List.range numReqs).flatMap fun request =>
    (List.range (queryLen queryStartLoc request)).map fun (row : Nat) => computed request + (row : Int)

/-- Number of rows and lengths that follow from the device's counts. -/
def deviceLens (indexer : Indexer) (computed : Nat → Int) (queryStartLoc : List Nat)
    (numReqs : Nat) : Nat × List Int :=
  (startOf queryStartLoc numReqs,
    (devicePositions computed queryStartLoc numReqs).map fun position => indexer.bound (position + 1))

section Translated

/-- `repeat_interleave` of the request numbers: the request of every flat row. -/
def reqOfRow (queryStartLoc : List Nat) (numReqs : Nat) : List Nat :=
  (List.range numReqs).flatMap fun request =>
    List.replicate (queryLen queryStartLoc request) request

/-- `first_pos[req_of_row] + rows - qsl[req_of_row] + 1`. -/
def gatherCtx (firstPos : List Int) (queryStartLoc : List Nat) (numReqs : Nat) : List Int :=
  (reqOfRow queryStartLoc numReqs).zipIdx.map fun (request, row) =>
    firstPos.getD request 0 + (row : Int) - (startOf queryStartLoc request : Int) + 1

/-- Lengths from one count per request; padding requests count from zero. -/
def lensFromValues (indexer : Indexer) (values : List Int) (queryStartLoc : List Nat)
    (camNumReqs : Nat) : Nat × List Int :=
  let numRows := startOf queryStartLoc camNumReqs
  if numRows = 0 then (0, [])
  else
    let real := min values.length camNumReqs
    let firstPos := values.take real ++ List.replicate (camNumReqs - real) 0
    (numRows, (gatherCtx firstPos queryStartLoc camNumReqs).map indexer.bound)

/-- Lengths from one base per request, row by row. -/
def lensFromBases (indexer : Indexer) (bases : List Int) (queryStartLoc : List Nat) : List Int :=
  bases.zipIdx.flatMap fun (base, request) =>
    (List.range' (startOf queryStartLoc request) (queryLen queryStartLoc request)).map
      fun (row : Nat) => indexer.bound (base + ((row : Int) - (startOf queryStartLoc request : Int)) + 1)

/-- A metadata builder: whether the scheduler runs ahead, and its indexer. -/
structure Builder where
  asyncScheduling : Bool
  indexer : Indexer

/-- What the runner prepared for one step: the requests in row order, their state slots (negative
when filtered), cumulative rows and logits, and the host's counts of computed tokens. -/
structure InputBatch (ρ : Type u) where
  reqIds : List ρ
  numReqs : Nat
  idxMapping : List Int
  queryStartLoc : List Nat
  cuNumLogits : List Nat
  isPrefilling : List Bool
  numComputedTokens : List Int

/-- The requests of a batch, without padding. -/
def InputBatch.rows {ρ : Type u} (batch : InputBatch ρ) : List ρ :=
  batch.reqIds.take batch.numReqs

/-- The common attention metadata of one build. An object is known by the step it was made in
and its number there. -/
structure Cam where
  step : Nat
  number : Nat
  numReqs : Nat
  queryStartLocCpu : List Nat
  positions : Option (List Int)
  seqLens : List Int
  seqLensCpuUpperBound : Option (List Int)

/-- Two metadata values are the same object. -/
def Cam.same (one other : Cam) : Prop :=
  one.step = other.step ∧ one.number = other.number

/-- Whether two metadata objects are the same is decided by their identities. -/
instance (one other : Cam) : Decidable (Cam.same one other) :=
  inferInstanceAs (Decidable (_ ∧ _))

/-- Which branch of the deployed body computed the contexts. -/
inductive Branch
  | empty
  | upperBound
  | positions
  | optimisticSeqLens
  deriving DecidableEq, Repr

/-- Contexts from sequence lengths: `first_pos = seq_lens - q_lens`. -/
def seqLensCtx (seqLens : List Int) (queryStartLoc : List Nat) (numReqs : Nat) : List Int :=
  gatherCtx ((seqLens.take numReqs).zipIdx.map fun (seqLen, request) =>
    seqLen - (queryLen queryStartLoc request : Int)) queryStartLoc numReqs

/-- What the deployed body returns: the rows, the counts before the step if it knows them, the
lengths, and the branch it took. -/
structure BodyResult where
  numRows : Nat
  ctx : Option (List Int)
  lens : List Int
  branch : Branch

/-- The deployed `_kv_lens_host`, with the branch it took and the contexts of the rows. -/
def originalBodyWithCtx (builder : Builder) (cam : Cam) : BodyResult :=
  let numRows := startOf cam.queryStartLocCpu cam.numReqs
  let result (ctx : List Int) (branch : Branch) : BodyResult :=
    ⟨numRows, some ctx, ctx.map builder.indexer.bound, branch⟩
  let optimistic :=
    result (seqLensCtx cam.seqLens cam.queryStartLocCpu cam.numReqs) .optimisticSeqLens
  let fromPositions :=
    match cam.positions with
    | some positions =>
      if numRows ≤ positions.length then
        result ((positions.take numRows).map (· + 1)) .positions
      else optimistic
    | none => optimistic
  if numRows = 0 then ⟨0, none, [], .empty⟩
  else if builder.asyncScheduling then fromPositions
  else
    match cam.seqLensCpuUpperBound with
    | some seqLens => result (seqLensCtx seqLens cam.queryStartLocCpu cam.numReqs) .upperBound
    | none => fromPositions

/-- The deployed body as its callers see it. -/
def originalKvLens (builder : Builder) (cam : Cam) : Nat × List Int :=
  let body := originalBodyWithCtx builder cam
  (body.numRows, body.lens)

end Translated

section Positions

variable (computed : Nat → Int) (queryStartLoc : List Nat)

/-- One more request adds its own rows after all earlier ones. -/
theorem devicePositions_succ (numReqs : Nat) :
    devicePositions computed queryStartLoc (numReqs + 1) =
      devicePositions computed queryStartLoc numReqs ++
        (List.range (queryLen queryStartLoc numReqs)).map fun (row : Nat) =>
          computed numReqs + (row : Int) := by
  simp [devicePositions, List.range_succ]

/-- The first part of cumulative counts is cumulative. -/
theorem Cumulative.of_le {numReqs fewer : Nat} (cumulative : Cumulative queryStartLoc numReqs)
    (ordered : fewer ≤ numReqs) : Cumulative queryStartLoc fewer where
  first := cumulative.first
  ascending request inside := cumulative.ascending request (Nat.lt_of_lt_of_le inside ordered)

/-- The device prepares one position for every flat row. -/
theorem devicePositions_length (numReqs : Nat) (cumulative : Cumulative queryStartLoc numReqs) :
    (devicePositions computed queryStartLoc numReqs).length = startOf queryStartLoc numReqs := by
  induction numReqs with
  | zero => simp [devicePositions, cumulative.first]
  | succ numReqs ih =>
    have earlier := ih (cumulative.of_le _ (Nat.le_succ numReqs))
    have grows := cumulative.ascending numReqs (Nat.lt_succ_self numReqs)
    rw [devicePositions_succ, List.length_append, earlier, List.length_map, List.length_range,
      queryLen]
    omega

/-- Every flat row of the batch has a request, and there are as many as the last offset says. -/
theorem reqOfRow_length (numReqs : Nat) (cumulative : Cumulative queryStartLoc numReqs) :
    (reqOfRow queryStartLoc numReqs).length = startOf queryStartLoc numReqs := by
  rw [← devicePositions_length (fun _ => 0) queryStartLoc numReqs cumulative]
  simp [reqOfRow, devicePositions, List.length_flatMap]

/-- The first position of a request with rows is its count. -/
theorem devicePositions_first (numReqs request : Nat)
    (cumulative : Cumulative queryStartLoc numReqs) (inside : request < numReqs)
    (rows : startOf queryStartLoc request < startOf queryStartLoc (request + 1)) :
    (devicePositions computed queryStartLoc numReqs)[startOf queryStartLoc request]? =
      some (computed request) := by
  induction numReqs with
  | zero => exact absurd inside (Nat.not_lt_zero request)
  | succ numReqs ih =>
    have shorter := cumulative.of_le _ (Nat.le_succ numReqs)
    have size := devicePositions_length computed queryStartLoc numReqs shorter
    rw [devicePositions_succ]
    by_cases last : request = numReqs
    · subst last
      have nonempty : 0 < queryLen queryStartLoc request := Nat.sub_pos_of_lt rows
      rw [List.getElem?_append_right (by omega), size, Nat.sub_self]
      simp [nonempty]
    · have earlier : request < numReqs := by omega
      have found := ih shorter earlier
      have bounded : startOf queryStartLoc request <
          (devicePositions computed queryStartLoc numReqs).length :=
        (List.getElem?_eq_some_iff.mp found).1
      rw [List.getElem?_append_left bounded, found]

/-- Gathering from the right first positions gives the contexts of the device's positions. -/
theorem gatherCtx_eq (firstPos : List Int) (numReqs : Nat)
    (cumulative : Cumulative queryStartLoc numReqs)
    (right : ∀ request, request < numReqs → 0 < queryLen queryStartLoc request →
      firstPos.getD request 0 = computed request) :
    gatherCtx firstPos queryStartLoc numReqs =
      (devicePositions computed queryStartLoc numReqs).map (· + 1) := by
  induction numReqs with
  | zero => simp [gatherCtx, reqOfRow, devicePositions]
  | succ numReqs ih =>
    have shorter := cumulative.of_le _ (Nat.le_succ numReqs)
    have earlier := ih shorter fun request inside => right request (Nat.lt_succ_of_lt inside)
    have size := reqOfRow_length queryStartLoc numReqs shorter
    have rows : reqOfRow queryStartLoc (numReqs + 1) = reqOfRow queryStartLoc numReqs ++
        List.replicate (queryLen queryStartLoc numReqs) numReqs := by
      simp [reqOfRow, List.range_succ]
    rw [devicePositions_succ, List.map_append, ← earlier, gatherCtx, rows, List.zipIdx_append,
      List.map_append, size, ← gatherCtx]
    congr 1
    apply List.ext_getElem
    · simp
    · intro row left _
      have inside : row < queryLen queryStartLoc numReqs := by simpa using left
      have own := right numReqs (Nat.lt_succ_self numReqs) (Nat.zero_lt_of_lt inside)
      simp only [List.getElem_map, List.getElem_zipIdx, List.getElem_replicate, List.getElem_range,
        own]
      omega

end Positions

section Lengths

variable (indexer : Indexer) (computed : Nat → Int) (queryStartLoc : List Nat)

/-- Entries up to a cut are those of the whole list. -/
theorem startOf_take (numReqs request : Nat) (inside : request ≤ numReqs) :
    startOf (queryStartLoc.take (numReqs + 1)) request = startOf queryStartLoc request := by
  rw [startOf, startOf, List.getD_eq_getElem?_getD, List.getD_eq_getElem?_getD,
    List.getElem?_take_of_lt (by omega)]

/-- The device's lengths only depend on the entries of the planned requests. -/
theorem deviceLens_take (numReqs : Nat) :
    deviceLens indexer computed (queryStartLoc.take (numReqs + 1)) numReqs =
      deviceLens indexer computed queryStartLoc numReqs := by
  have rows : devicePositions computed (queryStartLoc.take (numReqs + 1)) numReqs =
      devicePositions computed queryStartLoc numReqs := by
    rw [devicePositions, devicePositions]
    apply List.flatMap_congr
    intro request inside
    have bounded := List.mem_range.mp inside
    rw [queryLen, queryLen, startOf_take queryStartLoc numReqs request (Nat.le_of_lt bounded),
      startOf_take queryStartLoc numReqs (request + 1) bounded]
  rw [deviceLens, deviceLens, rows, startOf_take queryStartLoc numReqs numReqs (Nat.le_refl _)]

/-- Without rows the device plans no length. -/
theorem deviceLens_empty (numReqs : Nat) (cumulative : Cumulative queryStartLoc numReqs)
    (empty : startOf queryStartLoc numReqs = 0) :
    deviceLens indexer computed queryStartLoc numReqs = (0, []) := by
  have none : devicePositions computed queryStartLoc numReqs = [] := by
    apply List.eq_nil_of_length_eq_zero
    rw [devicePositions_length computed queryStartLoc numReqs cumulative, empty]
  rw [deviceLens, none, empty, List.map_nil]

/-- The lengths of counts equal the device's lengths when every request with rows has its count
listed. -/
theorem lensFromValues_eq (values : List Int) (numReqs : Nat)
    (cumulative : Cumulative queryStartLoc numReqs)
    (right : ∀ request, request < numReqs → 0 < queryLen queryStartLoc request →
      values[request]? = some (computed request)) :
    lensFromValues indexer values queryStartLoc numReqs =
      deviceLens indexer computed queryStartLoc numReqs := by
  rw [lensFromValues]
  by_cases empty : startOf queryStartLoc numReqs = 0
  · rw [if_pos empty, deviceLens_empty indexer computed queryStartLoc numReqs cumulative empty]
  · have ctx : gatherCtx (values.take (min values.length numReqs) ++
        List.replicate (numReqs - min values.length numReqs) 0) queryStartLoc numReqs =
          (devicePositions computed queryStartLoc numReqs).map (· + 1) := by
      apply gatherCtx_eq computed queryStartLoc _ numReqs cumulative
      intro request inside rows
      have listed := right request inside rows
      have bounded := (List.getElem?_eq_some_iff.mp listed).1
      have taken : request < (values.take (min values.length numReqs)).length := by
        rw [List.length_take]
        omega
      rw [List.getD_eq_getElem?_getD, List.getElem?_append_left taken,
        List.getElem?_take_of_lt (by omega), listed, Option.getD_some]
    rw [if_neg empty]
    dsimp only
    rw [ctx, deviceLens, List.map_map]
    rfl

/-- The row by row lengths equal the device's when the bases are its counts. -/
theorem lensFromBases_eq (bases : List Int)
    (right : ∀ request, request < bases.length → bases[request]? = some (computed request)) :
    lensFromBases indexer bases queryStartLoc =
      (deviceLens indexer computed queryStartLoc bases.length).2 := by
  have listed : bases.zipIdx = (List.range bases.length).map fun request =>
      (computed request, request) := by
    apply List.ext_getElem
    · simp
    · intro request left _
      have inside : request < bases.length := by simpa using left
      have value := right request inside
      rw [List.getElem?_eq_getElem inside] at value
      simpa using value
  simp only [lensFromBases, deviceLens, devicePositions, listed, List.flatMap_map, List.map_flatMap,
    List.map_map]
  congr 1
  funext request
  rw [List.range'_eq_map_range, List.map_map]
  apply List.map_congr_left
  intro row _
  simp only [Function.comp_apply]
  congr 1
  omega

end Lengths

section DeployedBody

/-- The inputs of a build that the deployed body reads from the device, or from a host bound that
is exact without asynchronous scheduling, agree with the device's counts. -/
structure Faithful (builder : Builder) (computed : Nat → Int) (cam : Cam) : Prop where
  cumulative : Cumulative cam.queryStartLocCpu cam.numReqs
  positions : ∀ positions, cam.positions = some positions →
    startOf cam.queryStartLocCpu cam.numReqs ≤ positions.length →
      positions.take (startOf cam.queryStartLocCpu cam.numReqs) =
        devicePositions computed cam.queryStartLocCpu cam.numReqs
  upperBound : builder.asyncScheduling = false → ∀ seqLens,
    cam.seqLensCpuUpperBound = some seqLens → ∀ request, request < cam.numReqs →
      0 < queryLen cam.queryStartLocCpu request →
        seqLens[request]? = some (computed request + (queryLen cam.queryStartLocCpu request : Int))

variable {builder : Builder} {computed : Nat → Int} {cam : Cam}

/-- Contexts from exact sequence lengths are those of the device's positions. -/
theorem seqLensCtx_eq (seqLens : List Int) (cumulative : Cumulative cam.queryStartLocCpu cam.numReqs)
    (right : ∀ request, request < cam.numReqs → 0 < queryLen cam.queryStartLocCpu request →
      seqLens[request]? = some (computed request + (queryLen cam.queryStartLocCpu request : Int))) :
    seqLensCtx seqLens cam.queryStartLocCpu cam.numReqs =
      (devicePositions computed cam.queryStartLocCpu cam.numReqs).map (· + 1) := by
  apply gatherCtx_eq computed _ _ _ cumulative
  intro request inside rows
  have listed := right request inside rows
  rw [List.getD_eq_getElem?_getD, List.getElem?_map, List.getElem?_zipIdx,
    List.getElem?_take_of_lt inside, listed]
  simp only [Option.map_some, Option.getD_some, Nat.zero_add]
  omega

/-- What the deployed body can return on faithful inputs: it has no rows, it only knows the
optimistic lengths, or its contexts are exact. -/
theorem originalBody_cases (faithful : Faithful builder computed cam) :
    let body := originalBodyWithCtx builder cam
    (body.branch = .empty ∧ startOf cam.queryStartLocCpu cam.numReqs = 0 ∧ body.numRows = 0 ∧
        body.ctx = none ∧ body.lens = []) ∨
      body.branch = .optimisticSeqLens ∨
      ((body.branch = .positions ∨ body.branch = .upperBound) ∧
        body.numRows = startOf cam.queryStartLocCpu cam.numReqs ∧
        ∃ ctx, body.ctx = some ctx ∧ body.lens = ctx.map builder.indexer.bound ∧
          ctx = (devicePositions computed cam.queryStartLocCpu cam.numReqs).map (· + 1)) := by
  intro body
  by_cases empty : startOf cam.queryStartLocCpu cam.numReqs = 0
  · left
    simp [body, originalBodyWithCtx, empty]
  · right
    by_cases onHost : builder.asyncScheduling = false ∧ cam.seqLensCpuUpperBound.isSome
    · obtain ⟨planned, present⟩ := onHost
      obtain ⟨seqLens, bound⟩ := Option.isSome_iff_exists.mp present
      right
      have exact := seqLensCtx_eq seqLens faithful.cumulative
        (faithful.upperBound planned seqLens bound)
      simp [body, originalBodyWithCtx, empty, planned, bound, exact]
    · cases given : cam.positions with
      | none =>
        left
        cases ahead : builder.asyncScheduling with
        | true => simp [body, originalBodyWithCtx, empty, ahead, given]
        | false =>
          have absent : cam.seqLensCpuUpperBound = none := by simpa [ahead] using onHost
          simp [body, originalBodyWithCtx, empty, ahead, given, absent]
      | some positions =>
        by_cases enough : startOf cam.queryStartLocCpu cam.numReqs ≤ positions.length
        · right
          have exact := faithful.positions positions given enough
          cases ahead : builder.asyncScheduling with
          | true => simp [body, originalBodyWithCtx, empty, ahead, given, enough, exact]
          | false =>
            have absent : cam.seqLensCpuUpperBound = none := by simpa [ahead] using onHost
            simp [body, originalBodyWithCtx, empty, ahead, given, absent, enough, exact]
        · left
          cases ahead : builder.asyncScheduling with
          | true => simp [body, originalBodyWithCtx, empty, ahead, given, enough]
          | false =>
            have absent : cam.seqLensCpuUpperBound = none := by simpa [ahead] using onHost
            simp [body, originalBodyWithCtx, empty, ahead, given, absent, enough]

/-- Unless it only knows the optimistic lengths, the deployed body returns the device's lengths. -/
theorem originalKvLens_eq (faithful : Faithful builder computed cam)
    (known : (originalBodyWithCtx builder cam).branch ≠ .optimisticSeqLens) :
    originalKvLens builder cam =
      deviceLens builder.indexer computed cam.queryStartLocCpu cam.numReqs := by
  rcases originalBody_cases faithful with ⟨_, empty, rows, _, lens⟩ | optimistic |
    ⟨_, rows, ctx, _, lens, exact⟩
  · rw [deviceLens_empty _ _ _ _ faithful.cumulative empty, originalKvLens, rows, lens]
  · exact absurd optimistic known
  · rw [originalKvLens, rows, lens, exact, deviceLens, List.map_map]
    rfl

end DeployedBody

end GlmSpark.KvLens
