import GlmSpark.GreedyVerify
import GlmSpark.VocabArgmax
import Mathlib.Order.Nat

/-!
# The rejection sampler at temperature 0

`rejection_sample` of `rejection_sampler_utils.py` works on full logits rows. At
temperature 0 it needs the argmax of every row that checks a draft, found over tiles of
8192 lanes, and the argmax of the bonus row, found over tiles of 1024. The vocabulary
parallel path of `glm_target_argmax.py` finds one argmax for each row from the slices of
the ranks and verifies on token ids.

Both are modelled for a batch in which every request is greedy, without logits of the
draft model. Buffers hold anything before they are written.
-/

namespace GlmSpark.RejectionSampler

open Blocks Ragged FirstMaximum VocabArgmax GreedyVerify

universe u
variable {V : Type u} [LinearOrder V] [OrderBot V]

/-- `RESAMPLE_BLOCK_SIZE`. -/
def resampleBlock : Nat := 1024

/-- The tiles of a row: greatest value and clamped id. -/
def tiles (size : Nat) (row : List V) : List (V × Nat) :=
  (List.range (cdiv row.length size)).map (blockArgmax size row)

/-- The id of the first tile with a greatest value, over a number of lanes that is a power
of two: `_compute_global_target_argmax`, and the end of `_insert_resampled_kernel`. -/
def tileWinner (tiles : List (V × Nat)) : Nat :=
  let lanes := tiles.map Prod.fst ++
    List.replicate (tiles.length.nextPowerOfTwo - tiles.length) ⊥
  (tiles.getD (argmax lanes) (⊥, 0)).2

/-- `_compute_local_logits_stats_kernel`, one row; the row of a bonus token is skipped. -/
def localLogitsStats (numSpeculativeSteps draftStepIdx : Nat) (stale : List (V × Nat))
    (row : List V) : List (V × Nat) :=
  if numSpeculativeSteps ≤ draftStepIdx then stale else tiles block row

/-- One iteration of the loop of `_rejection_kernel` for a greedy request. -/
def rejectionStep (stats : Nat → List (V × Nat)) (draftSampled : List Int) (start : Nat)
    (state : KernelState) (i : Nat) : KernelState :=
  let draft := draftSampled.getD (start + i + 1) 0
  let isValidDraft : Bool := 0 ≤ draft
  let draft := max 0 draft
  if state.verifying then
    let targetArgmax : Int := tileWinner (stats (start + i))
    let accepted := targetArgmax == draft && isValidDraft
    { verifying := accepted
      accepted := state.accepted + accepted.toNat
      sampled := state.sampled.set i (if accepted then draft else targetArgmax) }
  else state

/-- `_rejection_kernel`, then `_resample_kernel` and `_insert_resampled_kernel`, for one
greedy request: only a bonus token is resampled. -/
def rejectionProgram (logits : List (List V)) (stats : Nat → List (V × Nat))
    (draftSampled : List Int) (cu : List Nat) (r : Nat) (uninitialised : List Int) :
    List Int × Nat :=
  let start := cu.getD r 0
  let stop := cu.getD (r + 1) 0
  let last := (List.range (stop - start - 1)).foldl (rejectionStep stats draftSampled start)
    { verifying := true, accepted := 0, sampled := uninitialised }
  let resampleTokenIdx := start + last.accepted
  let isBonus := resampleTokenIdx = stop - 1
  (if isBonus then last.sampled.set last.accepted
      (tileWinner (tiles resampleBlock (logits.getD resampleTokenIdx [])))
    else last.sampled,
    last.accepted + 1)

/-- What the sampler's buffers hold before they are written. -/
structure Stale (V : Type u) where
  stats : Nat → List (V × Nat)
  sampled : Nat → List Int

/-- `rejection_sample` at temperature 0: the stock verification over the full logits, block by
block. -/
def rejectionSample (stale : Stale V) (logits : List (List V)) (draftSampled : List Int)
    (cu expandedLocalPos : List Nat) (numReqs numSpeculativeSteps : Nat) :
    List (List Int) × List Nat :=
  let stats := fun idx => localLogitsStats numSpeculativeSteps (expandedLocalPos.getD idx 0)
    (stale.stats idx) (logits.getD idx [])
  let programs := (List.range numReqs).map fun r =>
    rejectionProgram logits stats draftSampled cu r
      ((List.range (numSpeculativeSteps + 1)).map fun col => (stale.sampled r).getD col 0)
  (programs.map Prod.fst, programs.map Prod.snd)

/-- The implementation of the local argmax: one pass, or tile by tile. -/
inductive LocalImpl
  | torch
  | triton
  deriving DecidableEq

/-- `local_argmax`, one row. -/
def LocalImpl.argmax (impl : LocalImpl) (logits : List V) : V × Nat :=
  match impl with
  | .torch => localArgmaxTorch logits
  | .triton => localArgmax logits

/-- `vocab_parallel_greedy`, one row: the slices of the ranks, gathered in rank order. -/
def vocabParallelGreedy (impl : LocalImpl) (shards : List (List V)) : Nat :=
  let pairs := shards.mapIdx fun rank shard =>
    let (val, idx) := impl.argmax shard
    packPair (val, idx + offset shards rank) 0
  if shards.length = 1 then (pairs[0]?.map Pair.id).getD 0 else reducePairs pairs

/-- The logits rows of one request: its input ids and, for each row, the slices of the
ranks, which have the given sizes. -/
structure LogitsRows (V : Type u) (sizes : List Nat) where
  ids : List Int
  logits : List (List (List V))
  same_length : logits.length = ids.length
  nonempty : 0 < ids.length
  shaped : ∀ row ∈ logits, row.map List.length = sizes

/-- A batch of greedy requests over a sharded vocabulary. -/
structure LogitsBatch (V : Type u) (numSpeculativeSteps : Nat) where
  sizes : List Nat
  members : List (LogitsRows V sizes)
  fits : ∀ rows ∈ members, rows.ids.length ≤ numSpeculativeSteps + 1
  counts : numSpeculativeSteps + 1 < 2 ^ 31
  ranks : sizes ≠ []
  inhabited : ∀ size ∈ sizes, 0 < size
  vocabulary : sizes.sum ≤ 2 ^ 24

namespace LogitsBatch

variable {numSpeculativeSteps : Nat} (batch : LogitsBatch V numSpeculativeSteps)

/-- The slices of all logits rows. -/
def shardLogits : List (List (List V)) := (batch.members.map LogitsRows.logits).flatten

/-- The full logits rows. -/
def fullLogits : List (List V) := batch.shardLogits.map List.flatten

/-- The flat input ids of all logits rows. -/
def draft : List Int := (batch.members.map LogitsRows.ids).flatten

/-- `cu_num_logits`. -/
def cu : List Nat := offsets (batch.members.map LogitsRows.ids)

/-- `expanded_local_pos`: the place of each row in its request. -/
def localPos : List Nat := (batch.members.map fun rows => List.range rows.ids.length).flatten

/-- `fast_sample`: the target of every row, then `greedy_verify`. -/
def fastSample (impl : LocalImpl) (backend : Backend) : List (List Int) × List Nat :=
  greedyVerify backend (batch.shardLogits.map fun row => (vocabParallelGreedy impl row : Int))
    batch.draft batch.cu batch.members.length (numSpeculativeSteps + 1)

/-- The stock sampler on the full logits. -/
def stockSample (stale : Stale V) : List (List Int) × List Nat :=
  rejectionSample stale batch.fullLogits batch.draft batch.cu batch.localPos batch.members.length
    numSpeculativeSteps

end LogitsBatch

section Rows

/-- The first tile with a greatest value has the row's first maximal id. -/
theorem tileWinner_eq {row : List V} (nonempty : row ≠ []) (size : Nat) (positive : 0 < size) :
    tileWinner (tiles size row) = argmax row := by
  obtain ⟨best, chosen, first⟩ := tiles_isFirst nonempty size positive
  have same := first.unique (argmax_isFirst nonempty)
  have some_tile : (tiles size row).map Prod.fst ≠ [] := by
    intro none
    rw [List.map_eq_nil_iff] at none
    change (tiles size row)[_]? = _ at chosen
    rw [none] at chosen
    exact nomatch chosen
  have lanes := (argmax_append_bot some_tile
    ((tiles size row).length.nextPowerOfTwo - (tiles size row).length)).2
  change (tiles size row)[argmax ((tiles size row).map Prod.fst)]? = some best at chosen
  rw [tileWinner, lanes, List.getD_eq_getElem?_getD, chosen, Option.getD_some, same]

/-- A rank's local argmax is the first maximum of its slice. -/
theorem localImpl_isFirst (impl : LocalImpl) {logits : List V} (nonempty : logits ≠ []) :
    IsFirst logits.zipIdx (impl.argmax logits) := by
  cases impl with
  | torch => exact localArgmaxTorch_isFirst nonempty
  | triton => exact localArgmax_isFirst nonempty

omit [LinearOrder V] [OrderBot V] in
/-- The entries of the slices, each at its place in the vocabulary, are those of the full row. -/
theorem entries_flatten (shards : List (List V)) (base : Nat) :
    (shards.mapIdx fun rank shard =>
      shard.zipIdx.map fun entry => (entry.1, base + offset shards rank + entry.2)).flatten =
        shards.flatten.zipIdx base := by
  induction shards generalizing base with
  | nil => rfl
  | cons first rest ih =>
    have shifted : first.zipIdx.map (fun entry => (entry.1, base + offset (first :: rest) 0 + entry.2)) =
        first.zipIdx base := by
      apply List.ext_getElem
      · simp
      intro index _ _
      simp [offset]
    rw [List.mapIdx_cons, List.flatten_cons, shifted, List.flatten_cons, List.zipIdx_append, ← ih]
    congr 2
    apply List.mapIdx_eq_mapIdx_iff.mpr
    intro rank _
    simp only [offset_cons, Nat.add_assoc]

/-- Without a second rank the reduction is the only pair's id. -/
theorem reducePairs_single (pairs : List (Pair V)) (single : pairs.length = 1) :
    (pairs[0]?.map Pair.id).getD 0 = reducePairs pairs := by
  have some_value : pairs.map Pair.value ≠ [] := by
    intro none
    rw [List.map_eq_nil_iff.mp none] at single
    exact nomatch single
  obtain ⟨inside, _, _⟩ := argmax_spec some_value
  rw [List.length_map, single] at inside
  rw [reducePairs, Nat.lt_one_iff.mp inside]

omit [LinearOrder V] [OrderBot V] in
/-- Slices that are not empty make a row that is not empty. -/
theorem flatten_ne_nil {shards : List (List V)} (ranks : shards ≠ [])
    (inhabited : ∀ shard ∈ shards, shard ≠ []) : shards.flatten ≠ [] := by
  obtain ⟨shard, rest, rfl⟩ := List.exists_cons_of_ne_nil ranks
  have some_logit := inhabited shard List.mem_cons_self
  rw [List.flatten_cons]
  exact fun none => some_logit (List.append_eq_nil_iff.mp none).1

/-- The ranks together find the first maximal id of the full row. -/
theorem vocabParallelGreedy_eq (impl : LocalImpl) (shards : List (List V)) (ranks : shards ≠ [])
    (inhabited : ∀ shard ∈ shards, shard ≠ []) (vocabulary : shards.flatten.length ≤ 2 ^ 24) :
    vocabParallelGreedy impl shards = argmax shards.flatten := by
  let range := fun rank (shard : List V) =>
    shard.zipIdx.map fun entry => (entry.1, 0 + offset shards rank + entry.2)
  let pair := fun rank (shard : List V) =>
    packPair ((impl.argmax shard).1, (impl.argmax shard).2 + offset shards rank) 0
  have some_pair : shards.mapIdx pair ≠ [] := by
    rw [Ne, List.mapIdx_eq_nil_iff]
    exact ranks
  have each : List.Forall₂ IsFirst (shards.mapIdx range)
      ((shards.mapIdx pair).map fun pair => (pair.value, pair.id)) := by
    refine List.forall₂_iff_get.mpr ⟨by simp, fun rank inside inside' => ?_⟩
    have listed : rank < shards.length := by simpa using inside
    have nonempty := inhabited _ (List.getElem_mem listed)
    have local_ := localImpl_isFirst impl nonempty
    have below := zipIdx_id_lt _ _ local_.present
    have owned := row_before_end shards rank _ listed below
    have exact_id : toFloat32 ((impl.argmax shards[rank]).2 + offset shards rank) =
        offset shards rank + (impl.argmax shards[rank]).2 := by
      rw [toFloat32_exact (by omega), Nat.add_comm]
    have shifted := local_.shift (offset shards rank)
    simpa [range, pair, packPair, exact_id] using shifted
  have ascending : (shards.mapIdx range).Pairwise fun early late =>
      ∀ entry ∈ early, ∀ other ∈ late, entry.2 < other.2 := by
    rw [List.pairwise_iff_getElem]
    intro early late inside inside' ordered entry member other member'
    have listed : early < shards.length := by simpa using inside
    simp only [range, List.getElem_mapIdx, Nat.zero_add, List.mem_map] at member member'
    obtain ⟨found, there, rfl⟩ := member
    obtain ⟨found', _, rfl⟩ := member'
    have below := zipIdx_id_lt _ _ there
    have before := row_before_next shards early found.2 listed below
    have upward := offset_mono shards (show early + 1 ≤ late from ordered)
    dsimp only
    omega
  obtain ⟨best, first, reduced⟩ := reducePairs_isFirst some_pair each ascending
  rw [entries_flatten shards 0] at first
  have same := first.unique (argmax_isFirst (flatten_ne_nil ranks inhabited))
  have answer : vocabParallelGreedy impl shards = reducePairs (shards.mapIdx pair) := by
    unfold vocabParallelGreedy
    dsimp only
    split
    next single => exact reducePairs_single _ (by rw [List.length_mapIdx, single])
    next => rfl
  rw [answer, reduced, same]

end Rows

section Batches

variable {numSpeculativeSteps : Nat} (batch : LogitsBatch V numSpeculativeSteps)

/-- A request's rows with the first maximal id of each as its target. -/
def LogitsRows.verify {sizes : List Nat} (rows : LogitsRows V sizes) : VerifyRows where
  ids := rows.ids
  targets := rows.logits.map fun row => (FirstMaximum.argmax row.flatten : Int)
  same_length := by rw [List.length_map, rows.same_length]
  nonempty := rows.nonempty

/-- The batch on token ids. -/
def LogitsBatch.verify : VerifyBatch (numSpeculativeSteps + 1) where
  members := batch.members.map LogitsRows.verify
  fits := by
    intro rows member
    obtain ⟨rows, listed, rfl⟩ := List.mem_map.mp member
    exact batch.fits rows listed
  counts := batch.counts

/-- The batch on token ids has the ids of the batch with logits. -/
theorem verify_ids : batch.verify.members.map VerifyRows.ids = batch.members.map LogitsRows.ids := by
  simp only [LogitsBatch.verify, List.map_map]
  rfl

/-- So it has the same flat drafts. -/
theorem verify_draft : batch.verify.draft = batch.draft := by
  rw [VerifyBatch.draft, verify_ids, LogitsBatch.draft]

/-- And the same bounds of the requests. -/
theorem verify_cu : batch.verify.cu = batch.cu := by
  rw [VerifyBatch.cu, verify_ids, LogitsBatch.cu]

/-- And as many members. -/
theorem verify_length : batch.verify.members.length = batch.members.length :=
  List.length_map _

omit [LinearOrder V] [OrderBot V] in
/-- Every row's slices cover the vocabulary and none is empty. -/
theorem row_shards (row : List (List V)) (listed : row ∈ batch.shardLogits) :
    row ≠ [] ∧ (∀ shard ∈ row, shard ≠ []) ∧ row.flatten.length ≤ 2 ^ 24 := by
  obtain ⟨logits, owned, member⟩ := List.mem_flatten.mp listed
  obtain ⟨rows, _, rfl⟩ := List.mem_map.mp owned
  have shaped := rows.shaped row member
  refine ⟨?_, ?_, ?_⟩
  · rintro rfl
    exact batch.ranks shaped.symm
  · rintro shard inside rfl
    have size : 0 ∈ batch.sizes := shaped ▸ List.mem_map.mpr ⟨[], inside, rfl⟩
    exact absurd (batch.inhabited 0 size) (lt_irrefl 0)
  · rw [List.length_flatten, shaped]
    exact batch.vocabulary

/-- The targets of the fast path are those of the batch on token ids. -/
theorem fast_targets (impl : LocalImpl) :
    (batch.shardLogits.map fun row => (vocabParallelGreedy impl row : Int)) =
      batch.verify.target := by
  have same : batch.verify.target =
      batch.shardLogits.map fun row => (FirstMaximum.argmax row.flatten : Int) := by
    simp only [VerifyBatch.target, LogitsBatch.verify, LogitsBatch.shardLogits, List.map_map,
      List.map_flatten]
    rfl
  rw [same]
  apply List.map_congr_left
  intro row listed
  obtain ⟨ranks, inhabited, vocabulary⟩ := row_shards batch row listed
  rw [vocabParallelGreedy_eq impl row ranks inhabited vocabulary]

variable {batch} {req : Nat} {rows : LogitsRows V batch.sizes}

/-- A request of the batch, on token ids. -/
theorem verify_at (at_req : batch.members[req]? = some rows) :
    batch.verify.members[req]? = some rows.verify := by
  rw [LogitsBatch.verify, List.getElem?_map, at_req, Option.map_some]

/-- A flat row of a request: its full logits, and its place in the request. -/
theorem row_read (at_req : batch.members[req]? = some rows) (i : Nat)
    (owned : i < rows.ids.length) :
    ∃ row, row ∈ batch.shardLogits ∧
      batch.fullLogits.getD (offset (batch.members.map LogitsRows.ids) req + i) [] = row.flatten ∧
      batch.localPos.getD (offset (batch.members.map LogitsRows.ids) req + i) 0 = i ∧
      batch.verify.target.getD (offset (batch.members.map LogitsRows.ids) req + i) 0 =
        (FirstMaximum.argmax row.flatten : Int) := by
  obtain ⟨inside, member⟩ := List.getElem?_eq_some_iff.mp at_req
  have logits_offset : offset (batch.members.map LogitsRows.ids) req =
      offset (batch.members.map LogitsRows.logits) req :=
    offset_of_lengths _ _ (by simp [LogitsRows.same_length]) req
  have places_offset : offset (batch.members.map LogitsRows.ids) req =
      offset (batch.members.map fun rows => List.range rows.ids.length) req :=
    offset_of_lengths _ _ (by simp) req
  have owned' : i < rows.logits.length := by rw [rows.same_length]; exact owned
  have flat := flatten_getElem? (batch.members.map LogitsRows.logits) req i (by simpa using inside)
    (by simpa [member] using owned')
  have place := flatten_getElem? (batch.members.map fun rows => List.range rows.ids.length) req i
    (by simpa using inside) (by simpa [member] using owned)
  have target := target_read (verify_at at_req) i owned
  rw [verify_ids] at target
  simp only [List.getElem_map, member] at flat place
  refine ⟨rows.logits[i], List.mem_of_getElem? flat, ?_, ?_, ?_⟩
  · rw [logits_offset, LogitsBatch.fullLogits, List.getD_eq_getElem?_getD, List.getElem?_map,
      LogitsBatch.shardLogits, flat]
    rfl
  · rw [places_offset, LogitsBatch.localPos, List.getD_eq_getElem?_getD, place]
    simp
  · rw [target]
    simp [LogitsRows.verify, List.getD_eq_getElem?_getD, List.getElem?_eq_getElem owned']

/-- A row of a request that checks a draft has its first maximal id as the stock target. -/
theorem stats_read (stale : Stale V) (at_req : batch.members[req]? = some rows) (i : Nat)
    (checks : i + 1 < rows.ids.length) :
    (tileWinner (localLogitsStats numSpeculativeSteps
      (batch.localPos.getD (offset (batch.members.map LogitsRows.ids) req + i) 0)
      (stale.stats (offset (batch.members.map LogitsRows.ids) req + i))
      (batch.fullLogits.getD (offset (batch.members.map LogitsRows.ids) req + i) [])) : Int) =
        batch.verify.target.getD (offset (batch.members.map LogitsRows.ids) req + i) 0 := by
  obtain ⟨row, listed, full, place, target⟩ := row_read at_req i (by omega)
  obtain ⟨ranks, inhabited, _⟩ := row_shards batch row listed
  have fits := batch.fits rows (List.mem_of_getElem? at_req)
  rw [full, place, target, localLogitsStats, if_neg (by omega),
    tileWinner_eq (flatten_ne_nil ranks inhabited) block (by decide)]

/-- A round of the stock loop is a round of the loop on token ids. -/
theorem rejectionStep_eq (stats : Nat → List (V × Nat)) (target draftSampled : List Int)
    (start i : Nat) (state : KernelState)
    (same : (tileWinner (stats (start + i)) : Int) = target.getD (start + i) 0) :
    rejectionStep stats draftSampled start state i =
      verifyKernelStep target draftSampled start state i := by
  unfold rejectionStep verifyKernelStep
  dsimp only
  rw [same]
  by_cases real : 0 ≤ draftSampled.getD (start + i + 1) 0
  · rw [max_eq_right real]
  · have placeholder : decide (0 ≤ draftSampled.getD (start + i + 1) 0) = false :=
      decide_eq_false real
    simp only [placeholder, Bool.and_false, Bool.false_eq_true, if_false]

/-- The stock sampler's program for a request is the verify program on token ids. -/
theorem rejectionProgram_eq (stale : Stale V) (at_req : batch.members[req]? = some rows)
    (uninitialised : List Int) :
    rejectionProgram batch.fullLogits (fun idx => localLogitsStats numSpeculativeSteps
        (batch.localPos.getD idx 0) (stale.stats idx) (batch.fullLogits.getD idx []))
        batch.draft batch.cu req uninitialised =
      greedyVerifyProgram batch.verify.target batch.verify.draft batch.verify.cu req
        uninitialised := by
  have start := cu_start (verify_at at_req)
  have stop := cu_stop (verify_at at_req)
  have positive := rows.nonempty
  rw [verify_cu, verify_ids] at start stop
  change _ = _ + rows.ids.length at stop
  rw [verify_cu, verify_draft]
  have span : offset (batch.members.map LogitsRows.ids) req + rows.ids.length -
      offset (batch.members.map LogitsRows.ids) req - 1 = rows.ids.length - 1 := by omega
  simp only [rejectionProgram, greedyVerifyProgram, start, stop, span]
  rw [List.foldl_ext _ (verifyKernelStep batch.verify.target batch.draft
    (offset (batch.members.map LogitsRows.ids) req)) _ fun state i checked => ?_]
  · generalize (List.range (rows.ids.length - 1)).foldl _ _ = last
    have bonus : offset (batch.members.map LogitsRows.ids) req + last.accepted =
        offset (batch.members.map LogitsRows.ids) req + rows.ids.length - 1 ↔
          last.accepted = rows.ids.length - 1 := by omega
    by_cases all : last.accepted = rows.ids.length - 1
    · obtain ⟨row, listed, full, _, target⟩ := row_read at_req (rows.ids.length - 1) (by omega)
      obtain ⟨ranks, inhabited, _⟩ := row_shards batch row listed
      rw [if_pos (bonus.mpr all), if_pos all, all, full, target,
        tileWinner_eq (flatten_ne_nil ranks inhabited) resampleBlock (by decide)]
    · rw [if_neg (mt bonus.mp all), if_neg all]
  · have below : i < rows.ids.length - 1 := List.mem_range.mp checked
    exact rejectionStep_eq _ _ _ _ _ _ (stats_read stale at_req i (by omega))

end Batches

/-- The vocabulary-parallel greedy path samples as many tokens for every request as the stock
rejection sampler at temperature 0, and the same ones: for any ranks and slices, either local
argmax, either verification, ties wherever they fall, and any draft ids. -/
theorem fastSample_eq_stock {numSpeculativeSteps : Nat} (batch : LogitsBatch V numSpeculativeSteps)
    (impl : LocalImpl) (backend : Backend) (stale : Stale V) (req : Nat)
    (present : req < batch.members.length) :
    (batch.fastSample impl backend).2.getD req 0 = (batch.stockSample stale).2.getD req 0 ∧
      committed (batch.fastSample impl backend) req = committed (batch.stockSample stale) req := by
  have at_req : batch.members[req]? = some batch.members[req] := List.getElem?_eq_getElem present
  have verified := verify_at at_req
  have fits := batch.verify.fits _ (List.mem_of_getElem? verified)
  have room : batch.members[req].verify.ids.length ≤
      ((List.range (numSpeculativeSteps + 1)).map fun col =>
        (stale.sampled req).getD col 0).length := by
    simpa using fits
  have commits := greedy_verify_commits backend verified
  have count := greedy_verify_count backend verified
  have program := rejectionProgram_eq stale at_req
    ((List.range (numSpeculativeSteps + 1)).map fun col => (stale.sampled req).getD col 0)
  have stockCommits := program_commits verified _ room
  have stockCount := program_count verified _ room
  rw [← program] at stockCommits stockCount
  have fast : batch.fastSample impl backend = greedyVerify backend batch.verify.target
      batch.verify.draft batch.verify.cu batch.verify.members.length (numSpeculativeSteps + 1) := by
    rw [LogitsBatch.fastSample, fast_targets, verify_draft, verify_cu, verify_length]
  rw [fast]
  constructor
  · rw [count, ← stockCount]
    simp [LogitsBatch.stockSample, rejectionSample, present]
  · rw [commits, ← stockCommits]
    simp [committed, LogitsBatch.stockSample, rejectionSample, present]

/-- One request with a draft over two ranks; its first row ties across the ranks. -/
def tied : LogitsBatch Nat 1 where
  sizes := [2, 2]
  members := [⟨[5, 1], [[[3, 7], [7, 1]], [[0, 4], [9, 9]]], rfl, by decide, by decide⟩]
  fits := by decide
  counts := by decide
  ranks := by decide
  inhabited := by decide
  vocabulary := by decide

/-- The tie goes to the lower id, which is the draft, on both paths. -/
theorem fastSample_eq_stock_tied :
    committed (tied.fastSample .torch .torch) 0 = [1, 2] ∧
      committed (tied.fastSample .torch .torch) 0 =
        committed (tied.stockSample ⟨fun _ => [], fun _ => []⟩) 0 :=
  ⟨by decide, (fastSample_eq_stock tied .torch .torch ⟨fun _ => [], fun _ => []⟩ 0 (by decide)).2⟩

end GlmSpark.RejectionSampler
