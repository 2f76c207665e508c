import GlmSpark.KpoolRing
import GlmSpark.PrefillChunks

/-!
# How a prefill reads the pool cache

For every chunk `build_prefill_chunk_metadata` tells which rows of a gathered buffer each
query attends to, and the loop of `sparse_attn_indexer_kpool` gathers the pool keys of the
chunk's requests into a workspace that all chunks share. Only the first chunk of a group
gathers; the later ones, which have the same requests and other queries, find the keys still
there. A chunk without keys is left out.

The bounds are written by one program for each request. What a query attends to must be the
complete pools of its own request up to its own token.
-/

namespace GlmSpark.PrefillReads

open KpoolTail Launch PrefillChunks Program Ragged Runs

variable {V : Type}

/-- A request of a step: its new tokens, all its tokens, and the slots of its pools. -/
structure Request where
  query : ℕ
  seq : ℕ
  locs : List ℕ
  among : query ≤ seq

/-- What the splitter sees of a request. -/
def Request.lens (ratio : ℕ) (request : Request) : Lens := ⟨request.query, request.seq / ratio⟩

/-- A pool's key in the cache, through the slot the block table names. -/
def Request.key (memory : Cell → V) (request : Request) (pool : ℕ) : V :=
  memory (.pool (request.locs.getD pool 0))

/-- `query_start_loc` of some requests: the queries before each of them. -/
def queryStartLoc (ratio : ℕ) (requests : List Request) (b : ℕ) : ℕ :=
  queries ((requests.map (Request.lens ratio)).take b)

/-- `cu_seq_lens` of some requests: the pools before each of them, in pools and not in tokens. -/
def cuSeqLens (ratio : ℕ) (requests : List Request) (b : ℕ) : ℕ :=
  keys ((requests.map (Request.lens ratio)).take b)

/-- What the metadata kernel writes: for each query the first and the past-the-last key, for each
key its request. -/
inductive MetaCell
  | cuSeqLenKs (row : ℕ)
  | cuSeqLenKe (row : ℕ)
  | tokenToSeq (key : ℕ)
  deriving DecidableEq, Repr

/-- `BuildPrefillChunkMetadataKernel.kernel` for one request of a chunk. -/
def chunkMetadata (ratio : ℕ) (group : List Request) (sliceStart sliceStop : ℕ)
    (b : Fin group.length) : Program MetaCell ℕ Unit :=
  let queryStart := queryStartLoc ratio group b
  let queryLen := queryStartLoc ratio group (b + 1) - queryStart
  let seqStart := cuSeqLens ratio group b
  let compressedSeqLen := cuSeqLens ratio group (b + 1) - seqStart
  let startPos := group[b].seq - queryLen
  let mask := fun out => queryStart ≤ out + sliceStart ∧ out + sliceStart < queryStart + queryLen ∧
    out + sliceStart < sliceStop
  .store (fun cell => match cell with
    | .cuSeqLenKs out => if mask out then some seqStart else none
    | _ => none) <|
  .store (fun cell => match cell with
    | .cuSeqLenKe out =>
      if mask out then
        some (seqStart + (startPos + 1 + (out + sliceStart - queryStart)) / ratio)
      else none
    | _ => none) <|
  .store (fun cell => match cell with
    | .tokenToSeq key =>
      if seqStart ≤ key ∧ key < seqStart + compressedSeqLen then some b else none
    | _ => none) <|
  .done ()

/-- The requests of a chunk, in the order of the batch. -/
def groupOf (requests : List Request) (spec : ChunkSpec) : List Request :=
  (requests.drop spec.reqStart).take (spec.reqStop - spec.reqStart)

/-- The keys of the requests, one after the other, where the offsets of the metadata look for them. -/
def groupKeys (memory : Cell → V) (ratio : ℕ) (group : List Request) : List V :=
  (group.map fun request => (List.range (request.seq / ratio)).map (request.key memory)).flatten

/-- A workspace has the keys of a group at its beginning. -/
def Holds (memory : Cell → V) (ratio : ℕ) (group : List Request) (workspace : ℕ → V) : Prop :=
  ∀ row key, (groupKeys memory ratio group)[row]? = some key → workspace row = key

/-- The custom operation `cp_gather_indexer_k_quant_cache`, which is not part of the repository. All
that is relied on is that it copies the keys of the requests, one after the other, to the beginning
of the workspace; what it leaves in the rows behind them is not said. -/
structure Gather (V : Type) where
  copy : (Cell → V) → ℕ → List Request → (ℕ → V) → ℕ → V
  copies : ∀ memory ratio group workspace, Holds memory ratio group (copy memory ratio group workspace)

/-- A gather that leaves the rows behind the keys as they were. -/
def Gather.overwrite : Gather V where
  copy memory ratio group workspace row := (groupKeys memory ratio group).getD row (workspace row)
  copies memory ratio group workspace row key here := by
    dsimp only
    rw [List.getD_eq_getElem?_getD, here, Option.getD_some]

/-- The workspace, and for every token so far the keys it attends to. -/
structure Loop (V : Type) where
  workspace : ℕ → V
  rows : List (ℕ × List V)

/-- One turn of the loop over the chunks, with the bounds its metadata holds. -/
def turn (gather : Gather V) (memory : Cell → V) (ratio : ℕ) (requests : List Request)
    (bounds : ChunkSpec → MetaCell → ℕ) (loop : Loop V) (spec : ChunkSpec) : Loop V :=
  let group := groupOf requests spec
  -- `build` drops a chunk whose metadata is `None`
  if keys (group.map (Request.lens ratio)) = 0 then loop
  else
    let skipKvGather := 0 < spec.queryStart
    let workspace := if skipKvGather then loop.workspace
      else gather.copy memory ratio group loop.workspace
    let tokenStart := queryStartLoc ratio requests spec.reqStart + spec.queryStart
    { workspace
      rows := loop.rows ++ (List.range (spec.queryStop - spec.queryStart)).map fun out =>
        let ks := bounds spec (.cuSeqLenKs out)
        (tokenStart + out, (List.range (bounds spec (.cuSeqLenKe out) - ks)).map fun row =>
          workspace (ks + row)) }

/-- Each chunk's metadata is what some interleaving of its programs left in new buffers. -/
def Built (ratio : ℕ) (requests : List Request) (chunks : List ChunkSpec)
    (bounds : ChunkSpec → MetaCell → ℕ) : Prop :=
  ∀ spec ∈ chunks, ∃ blank, Launches
    (chunkMetadata ratio (groupOf requests spec) spec.queryStart spec.queryStop) blank (bounds spec)

/-- The complete pools of a request up to one of its new tokens. -/
def ownKeys (memory : Cell → V) (ratio : ℕ) (request : Request) (t : ℕ) : List V :=
  (List.range ((request.seq - request.query + t + 1) / ratio)).map (request.key memory)

/-- What every token of the step has to attend to. -/
def tokenKeys (memory : Cell → V) (ratio : ℕ) (requests : List Request) : List (List V) :=
  (requests.map fun request => (List.range request.query).map (ownKeys memory ratio request)).flatten

section Bounds

variable {β : Type} (ratio : ℕ) (group : List Request)

/-- The queries before a request, as rows of any table with one row a query. -/
theorem queryStartLoc_eq (entry : Request → ℕ → β) (b : ℕ) :
    queryStartLoc ratio group b =
      offset (group.map fun request => (List.range request.query).map (entry request)) b := by
  simp [queryStartLoc, queries, offset, ← List.map_take, Function.comp_def, Request.lens]

/-- The keys before a request, as rows of any table with one row a key. -/
theorem cuSeqLens_eq (entry : Request → ℕ → β) (b : ℕ) :
    cuSeqLens ratio group b = offset (group.map fun request =>
      (List.range (request.seq / ratio)).map (entry request)) b := by
  simp [cuSeqLens, keys, offset, ← List.map_take, Function.comp_def, Request.lens]

/-- The queries before the next request are those before this one and its own. -/
theorem queryStartLoc_succ {group : List Request} {b : ℕ} (inside : b < group.length) :
    queryStartLoc ratio group (b + 1) = queryStartLoc ratio group b + group[b].query := by
  rw [queryStartLoc_eq _ _ fun _ t => t, queryStartLoc_eq _ _ fun _ t => t,
    offset_succ _ _ (by simpa using inside)]
  simp

/-- The keys before the next request are those before this one and its own complete pools. -/
theorem cuSeqLens_succ {group : List Request} {b : ℕ} (inside : b < group.length) :
    cuSeqLens ratio group (b + 1) = cuSeqLens ratio group b + group[b].seq / ratio := by
  rw [cuSeqLens_eq _ _ fun _ t => t, cuSeqLens_eq _ _ fun _ t => t,
    offset_succ _ _ (by simpa using inside)]
  simp

/-- Query offsets never decrease along the batch, also where a request has no new token. -/
theorem queryStartLoc_mono {b c : ℕ} (ordered : b ≤ c) :
    queryStartLoc ratio group b ≤ queryStartLoc ratio group c := by
  rw [queryStartLoc_eq _ _ fun _ t => t, queryStartLoc_eq _ _ fun _ t => t]
  exact offset_mono _ ordered

/-- Key offsets never decrease either; a request without a complete pool adds none. -/
theorem cuSeqLens_mono {b c : ℕ} (ordered : b ≤ c) :
    cuSeqLens ratio group b ≤ cuSeqLens ratio group c := by
  rw [cuSeqLens_eq _ _ fun _ t => t, cuSeqLens_eq _ _ fun _ t => t]
  exact offset_mono _ ordered

/-- The cells of a request: the bounds of its queries and the places of its keys. -/
def Own (ratio : ℕ) (group : List Request) (sliceStart b : ℕ) : MetaCell → Prop
  | .cuSeqLenKs out | .cuSeqLenKe out =>
    queryStartLoc ratio group b ≤ out + sliceStart ∧
      out + sliceStart < queryStartLoc ratio group (b + 1)
  | .tokenToSeq key => cuSeqLens ratio group b ≤ key ∧ key < cuSeqLens ratio group (b + 1)

variable {ratio group}

/-- A program writes the cells of its request. -/
theorem within_chunkMetadata (sliceStart sliceStop : ℕ) (b : Fin group.length) :
    Within (fun _ => False) (Own ratio group sliceStart b)
      (chunkMetadata ratio group sliceStart sliceStop b) := by
  have upward := queryStartLoc_mono ratio group (Nat.le_add_right b.val 1)
  have upward' := cuSeqLens_mono ratio group (Nat.le_add_right b.val 1)
  refine ⟨fun cell wrote => ?_, fun cell wrote => ?_, fun cell wrote => ?_, trivial⟩ <;>
    cases cell <;> simp [Own] at wrote ⊢ <;> omega

/-- No metadata cell belongs to two requests of a chunk. So the programs of a chunk do not race, in
whatever order they run. -/
theorem own_apart {sliceStart b c : ℕ} (different : b ≠ c) (cell : MetaCell)
    (own : Own ratio group sliceStart b cell) : ¬ Own ratio group sliceStart c cell := by
  intro own'
  rcases Nat.lt_or_gt_of_ne different with before | after
  · have upward := queryStartLoc_mono ratio group (show b + 1 ≤ c from before)
    have upward' := cuSeqLens_mono ratio group (show b + 1 ≤ c from before)
    cases cell <;> simp only [Own] at own own' <;> omega
  · have upward := queryStartLoc_mono ratio group (show c + 1 ≤ b from after)
    have upward' := cuSeqLens_mono ratio group (show c + 1 ≤ b from after)
    cases cell <;> simp only [Own] at own own' <;> omega

/-- After the launch the bounds of a query are the first key of its request and the end of the
complete pools up to its own token. -/
theorem bounds_of_launch {sliceStart sliceStop : ℕ} {blank bounds : MetaCell → ℕ}
    (launch : Launches (chunkMetadata ratio group sliceStart sliceStop) blank bounds) {b t out : ℕ}
    (inside : b < group.length) (owned : t < group[b].query)
    (place : out + sliceStart = queryStartLoc ratio group b + t) (cut : out + sliceStart < sliceStop) :
    bounds (.cuSeqLenKs out) = cuSeqLens ratio group b ∧
    bounds (.cuSeqLenKe out) = cuSeqLens ratio group b +
      (group[b].seq - group[b].query + t + 1) / ratio := by
  have next := queryStartLoc_succ ratio inside
  have alone := fun cell (own : Own ratio group sliceStart b cell) =>
    launches_inside (within_chunkMetadata sliceStart sliceStop)
      (fun one other different cell touched => own_apart (fun same => different (Fin.ext same)) cell
        (touched.resolve_left id)) launch ⟨b, inside⟩ cell
      fun other different => own_apart (fun same => different (Fin.ext same.symm)) cell own
  refine ⟨(alone (.cuSeqLenKs out) ⟨by omega, by omega⟩).trans ?_,
    (alone (.cuSeqLenKe out) ⟨by omega, by omega⟩).trans ?_⟩
  · have mask : queryStartLoc ratio group b ≤ out + sliceStart ∧
        out + sliceStart < queryStartLoc ratio group b +
          (queryStartLoc ratio group (b + 1) - queryStartLoc ratio group b) ∧
        out + sliceStart < sliceStop := by omega
    simp only [chunkMetadata, run, written, if_pos mask, Option.getD_some, Option.getD_none]
  · have mask : queryStartLoc ratio group b ≤ out + sliceStart ∧
        out + sliceStart < queryStartLoc ratio group b +
          (queryStartLoc ratio group (b + 1) - queryStartLoc ratio group b) ∧
        out + sliceStart < sliceStop := by omega
    have width : queryStartLoc ratio group (b + 1) - queryStartLoc ratio group b = group[b].query := by
      omega
    have own : out + sliceStart - queryStartLoc ratio group b = t := by omega
    simp only [chunkMetadata, run, written, if_pos mask, Option.getD_some, Option.getD_none]
    rw [width, own]
    congr 2
    exact Nat.add_right_comm _ _ _

end Bounds

section Rows

variable {memory : Cell → V} {ratio : ℕ} {group : List Request}

/-- The table has a row for every query of the requests. -/
theorem tokenKeys_length (group : List Request) :
    (tokenKeys memory ratio group).length = queries (group.map (Request.lens ratio)) := by
  simp [tokenKeys, queries, Function.comp_def, Request.lens]

/-- A request's pools are in the workspace behind those of the requests before it. -/
theorem holds_key {workspace : ℕ → V} (holds : Holds memory ratio group workspace) {b pool : ℕ}
    (inside : b < group.length) (complete : pool < group[b].seq / ratio) :
    workspace (cuSeqLens ratio group b + pool) = group[b].key memory pool := by
  apply holds
  rw [cuSeqLens_eq _ _ fun request => request.key memory, groupKeys,
    flatten_getElem? _ b pool (by simpa using inside) (by simpa using complete)]
  simp

/-- What a query of the group attends to when the workspace has the group's keys. -/
theorem row_of_bounds {workspace : ℕ → V} (holds : Holds memory ratio group workspace)
    {sliceStart sliceStop : ℕ} {blank bounds : MetaCell → ℕ}
    (launch : Launches (chunkMetadata ratio group sliceStart sliceStop) blank bounds) {out : ℕ}
    (cut : out + sliceStart < sliceStop)
    (queried : sliceStop ≤ queries (group.map (Request.lens ratio))) :
    (List.range (bounds (.cuSeqLenKe out) - bounds (.cuSeqLenKs out))).map
        (fun row => workspace (bounds (.cuSeqLenKs out) + row)) =
      (tokenKeys memory ratio group).getD (sliceStart + out) [] := by
  have bounded : sliceStart + out < (tokenKeys memory ratio group).length := by
    rw [tokenKeys_length]
    omega
  obtain ⟨b, t, inside, owned, place⟩ := owner_exists _ _ bounded
  have inside' : b < group.length := by simpa using inside
  have owned' : t < group[b].query := by simpa using owned
  rw [← queryStartLoc_eq ratio] at place
  obtain ⟨first, last⟩ := bounds_of_launch launch inside' owned' (by omega) cut
  have own : (tokenKeys memory ratio group).getD (sliceStart + out) [] =
      ownKeys memory ratio group[b] t := by
    rw [List.getD_eq_getElem?_getD, place, queryStartLoc_eq _ _ (ownKeys memory ratio), tokenKeys,
      flatten_getElem? _ b t inside owned]
    simp
  have among := group[b].among
  rw [own, first, last, Nat.add_sub_cancel_left, ownKeys]
  refine List.map_congr_left fun pool listed => holds_key holds inside' ?_
  have early : (group[b].seq - group[b].query + t + 1) / ratio ≤ group[b].seq / ratio :=
    Nat.div_le_div_right (by omega)
  exact (List.mem_range.mp listed).trans_le early

end Rows

section Loop

variable {gather : Gather V} {memory : Cell → V} {ratio : ℕ} {requests : List Request}

/-- The rows a chunk has to add: every token of its slice with the complete pools of its own request,
or nothing when the group has none. -/
def attended (memory : Cell → V) (ratio : ℕ) (requests : List Request) (spec : ChunkSpec) :
    List (ℕ × List V) :=
  if keys ((groupOf requests spec).map (Request.lens ratio)) = 0 then []
  else (spec.tokens (queryStartLoc ratio requests)).map fun token =>
    (token, (tokenKeys memory ratio requests).getD token [])

/-- The tokens of a chunk's requests are those of the step from the first one on. -/
theorem tokenKeys_group {spec : ChunkSpec} {t : ℕ}
    (inside : t < queries ((groupOf requests spec).map (Request.lens ratio))) :
    (tokenKeys memory ratio requests).getD (queryStartLoc ratio requests spec.reqStart + t) [] =
      (tokenKeys memory ratio (groupOf requests spec)).getD t [] := by
  have append : ∀ front back : List Request, tokenKeys memory ratio (front ++ back) =
      tokenKeys memory ratio front ++ tokenKeys memory ratio back := fun front back => by
    rw [tokenKeys, List.map_append, List.flatten_append]
    rfl
  have before : (tokenKeys memory ratio (requests.take spec.reqStart)).length =
      queryStartLoc ratio requests spec.reqStart := by
    rw [tokenKeys_length, queryStartLoc, List.map_take]
  have parts : tokenKeys memory ratio requests = tokenKeys memory ratio (requests.take spec.reqStart) ++
      (tokenKeys memory ratio (groupOf requests spec) ++ tokenKeys memory ratio
        ((requests.drop spec.reqStart).drop (spec.reqStop - spec.reqStart))) := by
    rw [← append, ← append, groupOf, List.take_append_drop, List.take_append_drop]
  rw [← @tokenKeys_length _ memory] at inside
  rw [parts, List.getD_eq_getElem?_getD, List.getElem?_append_right (by omega), before,
    Nat.add_sub_cancel_left, List.getElem?_append_left inside, ← List.getD_eq_getElem?_getD]

/-- A group without keys has nothing to hold. -/
theorem holds_of_keyless {group : List Request} (keyless : keys (group.map (Request.lens ratio)) = 0)
    (workspace : ℕ → V) : Holds memory ratio group workspace := by
  have length : (groupKeys memory ratio group).length = keys (group.map (Request.lens ratio)) := by
    simp [groupKeys, keys, Function.comp_def, Request.lens]
  intro row key here
  rw [List.eq_nil_of_length_eq_zero (length.trans keyless), List.getElem?_nil] at here
  cases here

/-- A token of a chunk without keys belongs to a request without a complete pool. -/
theorem keyless_owner {spec : ChunkSpec}
    (keyless : keys ((groupOf requests spec).map (Request.lens ratio)) = 0) {t : ℕ}
    (inside : t < queries ((groupOf requests spec).map (Request.lens ratio))) :
    ∃ b row, ∃ member : b < requests.length, row < requests[b].query ∧
      queryStartLoc ratio requests spec.reqStart + t = queryStartLoc ratio requests b + row ∧
      requests[b].seq / ratio = 0 := by
  have length : ((groupOf requests spec).map fun request =>
      (List.range request.query).map id).flatten.length =
        queries ((groupOf requests spec).map (Request.lens ratio)) := by
    simp [queries, Function.comp_def, Request.lens]
  rw [← length] at inside
  obtain ⟨b, row, member, owned, rfl⟩ := owner_exists _ _ inside
  have member' : b < (groupOf requests spec).length := by simpa using member
  have owned' : row < (groupOf requests spec)[b].query := by simpa using owned
  have small : (groupOf requests spec)[b].seq / ratio = 0 := by
    have all : cuSeqLens ratio (groupOf requests spec) (groupOf requests spec).length = 0 := by
      rw [cuSeqLens, List.take_of_length_le (by rw [List.length_map]), keyless]
    have upward := cuSeqLens_mono ratio (groupOf requests spec)
      (show b + 1 ≤ (groupOf requests spec).length from member')
    rw [cuSeqLens_succ ratio member', all] at upward
    exact (Nat.add_eq_zero_iff.mp (Nat.le_zero.mp upward)).2
  have within : b < (requests.drop spec.reqStart).length ∧ b < spec.reqStop - spec.reqStart := by
    rw [groupOf, List.length_take] at member'
    omega
  have front : (groupOf requests spec).take b = (requests.drop spec.reqStart).take b := by
    rw [groupOf, List.take_take, Nat.min_eq_left (Nat.le_of_lt within.2)]
  have place : queryStartLoc ratio requests (spec.reqStart + b) =
      queryStartLoc ratio requests spec.reqStart + queryStartLoc ratio (groupOf requests spec) b := by
    simp only [queryStartLoc, queries, ← List.map_take, front, List.take_add, List.map_append,
      List.sum_append]
  have among : spec.reqStart + b < requests.length := by
    rw [List.length_drop] at within
    omega
  have same : (groupOf requests spec)[b] = requests[spec.reqStart + b] := by simp [groupOf]
  refine ⟨spec.reqStart + b, row, among, same ▸ owned', ?_, same ▸ small⟩
  rw [place, Nat.add_assoc, queryStartLoc_eq ratio (groupOf requests spec) fun _ => id]

/-- A chunk adds its rows and leaves its group's keys in the workspace, if it gathers or they are there
already. -/
theorem turn_spec {bounds : ChunkSpec → MetaCell → ℕ} {spec : ChunkSpec} {loop : Loop V}
    {blank : MetaCell → ℕ} (launch : Launches
      (chunkMetadata ratio (groupOf requests spec) spec.queryStart spec.queryStop) blank (bounds spec))
    (queried : spec.queryStop ≤ queries ((groupOf requests spec).map (Request.lens ratio)))
    (ready : Holds memory ratio (groupOf requests spec) loop.workspace ∨ spec.queryStart = 0) :
    (turn gather memory ratio requests bounds loop spec).rows =
        loop.rows ++ attended memory ratio requests spec ∧
      Holds memory ratio (groupOf requests spec)
        (turn gather memory ratio requests bounds loop spec).workspace := by
  by_cases keyless : keys ((groupOf requests spec).map (Request.lens ratio)) = 0
  · rw [turn, if_pos keyless, attended, if_pos keyless, List.append_nil]
    exact ⟨rfl, holds_of_keyless keyless loop.workspace⟩
  · have held : Holds memory ratio (groupOf requests spec)
        (turn gather memory ratio requests bounds loop spec).workspace := by
      rw [turn, if_neg keyless]
      dsimp only
      split
      next skips => exact ready.resolve_right skips.ne'
      next => exact gather.copies memory ratio _ loop.workspace
    refine ⟨?_, held⟩
    rw [turn, if_neg keyless] at held ⊢
    rw [attended, if_neg keyless, ChunkSpec.tokens, List.range'_eq_map_range, List.map_map]
    dsimp only at held ⊢
    congr 1
    refine List.map_congr_left fun out listed => ?_
    have inside := List.mem_range.mp listed
    have row := row_of_bounds held launch (show out + spec.queryStart < spec.queryStop by omega) queried
    have own := @tokenKeys_group _ memory ratio requests spec (spec.queryStart + out) (by omega)
    rw [Function.comp_apply, row, Nat.add_assoc, own]

/-- The slices of one group: once the first one has groupKeys, the keys stay. -/
theorem turns_group {bounds : ChunkSpec → MetaCell → ℕ} {start stop : ℕ} (cuts : List (ℕ × ℕ))
    {loop : Loop V}
    (built : Built ratio requests (cuts.map fun slice => ⟨start, stop, slice.1, slice.2⟩) bounds)
    (queried : ∀ slice ∈ cuts, slice.2 ≤
      queries (((requests.drop start).take (stop - start)).map (Request.lens ratio)))
    (ready : Holds memory ratio ((requests.drop start).take (stop - start)) loop.workspace ∨
      ∀ slice ∈ cuts.head?, slice.1 = 0) :
    ((cuts.map fun slice => (⟨start, stop, slice.1, slice.2⟩ : ChunkSpec)).foldl
        (turn gather memory ratio requests bounds) loop).rows =
      loop.rows ++ (cuts.map fun slice => (⟨start, stop, slice.1, slice.2⟩ : ChunkSpec)).flatMap
        (attended memory ratio requests) := by
  induction cuts generalizing loop with
  | nil => exact (List.append_nil _).symm
  | cons slice rest ih =>
    obtain ⟨blank, launch⟩ := built ⟨start, stop, slice.1, slice.2⟩ List.mem_cons_self
    have first : Holds memory ratio ((requests.drop start).take (stop - start)) loop.workspace ∨
        slice.1 = 0 := ready.imp id fun gathers => gathers slice rfl
    obtain ⟨added, held⟩ := turn_spec launch (queried slice List.mem_cons_self) first
    rw [List.map_cons, List.foldl_cons, List.flatMap_cons,
      ih (fun spec listed => built spec (List.mem_cons_of_mem _ listed))
        (fun cut listed => queried cut (List.mem_cons_of_mem _ listed)) (Or.inl held),
      added, List.append_assoc]

/-- From a request on, the chunks add their rows whatever the workspace held before. -/
theorem turns_rows {bounds : ChunkSpec → MetaCell → ℕ} (workspaceSize maxLogitsElems start : ℕ)
    {lens : List Lens} (from_start : lens = (requests.map (Request.lens ratio)).drop start)
    {loop : Loop V}
    (built : Built ratio requests (splitLoop workspaceSize maxLogitsElems start lens) bounds) :
    ((splitLoop workspaceSize maxLogitsElems start lens).foldl (turn gather memory ratio requests bounds)
        loop).rows =
      loop.rows ++ (splitLoop workspaceSize maxLogitsElems start lens).flatMap
        (attended memory ratio requests) := by
  induction start, lens using splitLoop.induct workspaceSize maxLogitsElems generalizing loop with
  | case1 start =>
    rw [splitLoop]
    exact (List.append_nil _).symm
  | case2 start first rest group ih =>
    have formed : Formed workspaceSize maxLogitsElems (first :: rest) group :=
      nextGroup_formed workspaceSize maxLogitsElems first rest
    have behind : rest.drop (group.taken - 1) =
        (requests.map (Request.lens ratio)).drop (start + group.taken) := by
      rw [drop_group _ _ formed, from_start, List.drop_drop]
    have width : queries (((requests.drop start).take (start + group.taken - start)).map
        (Request.lens ratio)) = group.chunkM := by
      rw [Nat.add_sub_cancel_left, List.map_take, List.map_drop, ← from_start, formed.chunkM]
    rw [splitLoop] at built ⊢
    have own := @turns_group _ gather memory ratio requests bounds start (start + group.taken)
      (slices maxLogitsElems group) loop (fun spec listed => built spec (List.mem_append_left _ listed))
      (fun slice listed => width ▸ slice_inside maxLogitsElems listed)
      (Or.inr fun slice listed => slices_head maxLogitsElems listed)
    rw [List.foldl_append, List.flatMap_append, ih behind fun spec listed =>
      built spec (List.mem_append_right _ listed), own, List.append_assoc]

end Loop

section Served

variable {compress : List V → V} {kpool numSpec : ℕ} {seen : Cell → V} {state : State V}

/-- A request of a step that reads what a holder stored, its new tokens among them. -/
structure Reader (V : Type) where
  holder : Holder V
  query : ℕ
  among : query ≤ holder.entries.length

/-- What the metadata says of a reader: its new tokens, its length and the pool slots of its block
table. -/
def Reader.request (reader : Reader V) : Request :=
  ⟨reader.query, reader.holder.entries.length, reader.holder.locs, reader.among⟩

/-- The complete pools of a reader's tokens up to one of its new ones, compressed. -/
def Reader.pools (compress : List V → V) (kpool : ℕ) (reader : Reader V) (t : ℕ) : List V :=
  (List.range ((reader.holder.entries.length - reader.query + t + 1) / kpool)).map fun pool =>
    compress (chunk kpool reader.holder.entries pool)

/-- The pools of every token of a step. -/
def tokenPools (compress : List V → V) (kpool : ℕ) (readers : List (Reader V)) : List (List V) :=
  (readers.map fun reader => (List.range reader.query).map (reader.pools compress kpool)).flatten

/-- A memory has the pools of some readers as the state has them. The loop of a step runs before the
step's decode requests are written, so it sees a memory of its own. -/
def Sees (seen : Cell → V) (state : State V) (readers : List (Reader V)) : Prop :=
  ∀ reader ∈ readers, ∀ loc ∈ reader.holder.locs, seen (.pool loc) = state.memory (.pool loc)

/-- The keys in a sound cache are the pools. -/
theorem ownKeys_eq_pools (sound : state.Sound compress kpool) {reader : Reader V} {id : ℕ}
    (held : state.holders id = some reader.holder)
    (sees : ∀ loc ∈ reader.holder.locs, seen (.pool loc) = state.memory (.pool loc))
    {t : ℕ} (owned : t < reader.query) :
    ownKeys seen kpool reader.request t = reader.pools compress kpool t := by
  refine List.map_congr_left fun pool listed => ?_
  have among := reader.among
  have early : (reader.holder.entries.length - reader.query + t + 1) / kpool ≤
      reader.holder.entries.length / kpool := Nat.div_le_div_right (by omega)
  have complete : pool < reader.holder.entries.length / kpool :=
    (List.mem_range.mp listed).trans_le early
  obtain ⟨loc, here, same⟩ := sound id reader.holder held _ pool (le_refl _) complete
  rw [List.take_length] at same
  rw [Request.key, Reader.request, List.getD_eq_getElem?_getD, here, Option.getD_some,
    sees loc (List.mem_of_getElem? here), same]

/-- So is the table of all their tokens. -/
theorem tokenKeys_eq_pools (sound : state.Sound compress kpool) {readers : List (Reader V)}
    (held : ∀ reader ∈ readers, ∃ id, state.holders id = some reader.holder)
    (sees : Sees seen state readers) :
    tokenKeys seen kpool (readers.map Reader.request) = tokenPools compress kpool readers := by
  rw [tokenKeys, tokenPools, List.map_map]
  congr 1
  refine List.map_congr_left fun reader listed => ?_
  obtain ⟨id, here⟩ := held reader listed
  exact List.map_congr_left fun t inside =>
    ownKeys_eq_pools sound here (sees reader listed) (List.mem_range.mp inside)

/-- The tokens that are scored, chunk by chunk. -/
def servedTokens (kpool : ℕ) (requests : List Request) (chunks : List ChunkSpec) : List ℕ :=
  chunks.flatMap fun spec =>
    if keys ((groupOf requests spec).map (Request.lens kpool)) = 0 then []
    else spec.tokens (queryStartLoc kpool requests)

/-- What the chunks add is a row for each token they serve, with the keys the table gives it. -/
theorem attended_eq (memory : Cell → V) (requests : List Request) (chunks : List ChunkSpec) :
    chunks.flatMap (attended memory kpool requests) =
      (servedTokens kpool requests chunks).map fun token =>
        (token, (tokenKeys memory kpool requests).getD token []) := by
  rw [servedTokens, List.map_flatMap]
  congr 1
  funext spec
  rw [attended]
  split <;> rfl

/-- The tokens that are scored are tokens of the chunks, in their order; those of chunks without
keys are left out. -/
theorem servedTokens_sublist (requests : List Request) (chunks : List ChunkSpec) :
    (servedTokens kpool requests chunks).Sublist
      (chunks.flatMap (ChunkSpec.tokens (queryStartLoc kpool requests))) := by
  induction chunks with
  | nil => exact List.Sublist.refl _
  | cons spec rest ih =>
    rw [servedTokens, List.flatMap_cons, List.flatMap_cons]
    refine List.Sublist.append ?_ ih
    split
    · exact List.nil_sublist _
    · exact List.Sublist.refl _

/-- The chunks of a step whose prefill requests are behind its decode requests. -/
def stepChunks (kpool workspaceSize maxLogitsBytes : ℕ) (decodes prefills : List (Reader V)) :
    List ChunkSpec :=
  splitIndexerPrefillChunks workspaceSize ((prefills.map Reader.request).map (Request.lens kpool))
    maxLogitsBytes decodes.length

/-- The tokens of the prefill requests. -/
def prefillTokens (decodes prefills : List (Reader V)) : List ℕ :=
  List.range' (decodes.map Reader.query).sum (prefills.map Reader.query).sum

/-- The chunks of a step take its prefill tokens once and in order. -/
theorem stepChunks_tokens (workspaceSize maxLogitsBytes : ℕ) (decodes prefills : List (Reader V)) :
    (stepChunks kpool workspaceSize maxLogitsBytes decodes prefills).flatMap (ChunkSpec.tokens
        (queryStartLoc kpool ((decodes ++ prefills).map Reader.request))) =
      prefillTokens decodes prefills := by
  have count : ∀ readers : List (Reader V),
      queries ((readers.map Reader.request).map (Request.lens kpool)) =
        (readers.map Reader.query).sum := fun readers => by
    simp [queries, Function.comp_def, Request.lens, Reader.request]
  have tokens := chunks_tokens workspaceSize ((decodes.map Reader.request).map (Request.lens kpool))
    ((prefills.map Reader.request).map (Request.lens kpool)) maxLogitsBytes
  rw [List.length_map, List.length_map, ← List.map_append, ← List.map_append, count, count] at tokens
  exact tokens

/-- The prefill requests of a step are those behind its decode requests. -/
theorem prefills_behind (decodes prefills : List (Reader V)) :
    (prefills.map Reader.request).map (Request.lens kpool) =
      (((decodes ++ prefills).map Reader.request).map (Request.lens kpool)).drop decodes.length := by
  rw [List.map_append, List.map_append, List.drop_left' (by rw [List.length_map, List.length_map])]

variable {gather : Gather V} {decodes prefills : List (Reader V)} {workspaceSize maxLogitsBytes : ℕ}

/-- The table of a step has the pools of its prefill tokens, which stand behind the decode tokens. -/
theorem tokenKeys_prefill (sound : state.Sound compress kpool)
    (held : ∀ reader ∈ decodes ++ prefills, ∃ id, state.holders id = some reader.holder)
    (sees : Sees seen state prefills) {token : ℕ} (listed : token ∈ prefillTokens decodes prefills) :
    (tokenKeys seen kpool ((decodes ++ prefills).map Reader.request)).getD token [] =
      (tokenPools compress kpool (decodes ++ prefills)).getD token [] := by
  obtain ⟨i, _, rfl⟩ := List.mem_range'.mp listed
  have front : (tokenKeys seen kpool (decodes.map Reader.request)).length =
      (decodes.map Reader.query).sum := by
    simp [tokenKeys, Function.comp_def, Reader.request]
  have front' : (tokenPools compress kpool decodes).length = (decodes.map Reader.query).sum := by
    simp [tokenPools, Function.comp_def]
  have behind := tokenKeys_eq_pools sound
    (fun reader listed => held reader (List.mem_append_right _ listed)) sees
  have parts : tokenKeys seen kpool ((decodes ++ prefills).map Reader.request) =
      tokenKeys seen kpool (decodes.map Reader.request) ++ tokenPools compress kpool prefills := by
    rw [← behind, tokenKeys, List.map_append, List.map_append, List.flatten_append]
    rfl
  have parts' : tokenPools compress kpool (decodes ++ prefills) =
      tokenPools compress kpool decodes ++ tokenPools compress kpool prefills := by
    rw [tokenPools, List.map_append, List.flatten_append]
    rfl
  rw [parts, parts', List.getD_eq_getElem?_getD, List.getElem?_append_right (by omega),
    List.getD_eq_getElem?_getD, List.getElem?_append_right (by omega), front, front']

/-- The loop of a step adds a row for every token that is scored. -/
theorem stepChunks_rows (sound : state.Sound compress kpool)
    (held : ∀ reader ∈ decodes ++ prefills, ∃ id, state.holders id = some reader.holder)
    (sees : Sees seen state prefills)
    {bounds : ChunkSpec → MetaCell → ℕ}
    (built : Built kpool ((decodes ++ prefills).map Reader.request)
      (stepChunks kpool workspaceSize maxLogitsBytes decodes prefills) bounds) (loop : Loop V) :
    ((stepChunks kpool workspaceSize maxLogitsBytes decodes prefills).foldl
        (turn gather seen kpool ((decodes ++ prefills).map Reader.request) bounds) loop).rows =
      loop.rows ++ (servedTokens kpool ((decodes ++ prefills).map Reader.request)
        (stepChunks kpool workspaceSize maxLogitsBytes decodes prefills)).map fun token =>
          (token, (tokenPools compress kpool (decodes ++ prefills)).getD token []) := by
  have served := @servedTokens_sublist kpool ((decodes ++ prefills).map Reader.request)
    (stepChunks kpool workspaceSize maxLogitsBytes decodes prefills)
  rw [stepChunks_tokens] at served
  have rows : ((stepChunks kpool workspaceSize maxLogitsBytes decodes prefills).foldl
      (turn gather seen kpool ((decodes ++ prefills).map Reader.request) bounds) loop).rows =
        loop.rows ++ (stepChunks kpool workspaceSize maxLogitsBytes decodes prefills).flatMap
          (attended seen kpool ((decodes ++ prefills).map Reader.request)) := by
    rw [stepChunks, splitIndexerPrefillChunks] at built ⊢
    exact turns_rows _ _ _ (prefills_behind decodes prefills) built
  rw [rows, attended_eq]
  congr 1
  refine List.map_congr_left fun token listed => ?_
  rw [tokenKeys_prefill sound held sees (served.subset listed)]

/-- A table of a step's tokens has a request's entries at its place. -/
theorem entry_of_reader {β : Type} (entry : Reader V → ℕ → β) {readers : List (Reader V)} {b t : ℕ}
    (inside : b < readers.length) (owned : t < readers[b].query) :
    (readers.map fun reader => (List.range reader.query).map (entry reader)).flatten[
      queryStartLoc kpool (readers.map Reader.request) b + t]? = some (entry readers[b] t) := by
  have place : queryStartLoc kpool (readers.map Reader.request) b =
      offset (readers.map fun reader => (List.range reader.query).map (entry reader)) b := by
    simp [queryStartLoc, queries, offset, ← List.map_take, Function.comp_def, Request.lens,
      Reader.request]
  rw [place, flatten_getElem? _ b t (by simpa using inside) (by simpa using owned)]
  simp

/-- A token that is left out belongs to a request without a complete pool. -/
theorem owner_of_left_out {token : ℕ} (listed : token ∈ prefillTokens decodes prefills)
    (left_out : token ∉ servedTokens kpool ((decodes ++ prefills).map Reader.request)
      (stepChunks kpool workspaceSize maxLogitsBytes decodes prefills)) :
    ∃ b t, ∃ inside : b < (decodes ++ prefills).length, t < (decodes ++ prefills)[b].query ∧
      token = queryStartLoc kpool ((decodes ++ prefills).map Reader.request) b + t ∧
      (decodes ++ prefills)[b].holder.entries.length / kpool = 0 := by
  rw [← stepChunks_tokens workspaceSize maxLogitsBytes] at listed
  obtain ⟨spec, chunked, slice⟩ := List.mem_flatMap.mp listed
  have keyless : keys ((groupOf ((decodes ++ prefills).map Reader.request) spec).map
      (Request.lens kpool)) = 0 := by
    by_contra keyed
    refine left_out (List.mem_flatMap.mpr ⟨spec, chunked, ?_⟩)
    rw [if_neg keyed]
    exact slice
  obtain ⟨_, stops, _⟩ := splitLoop_bounded _ _ _ _ (prefills_behind decodes prefills) chunked
  rw [← List.map_drop, ← List.map_take] at stops
  obtain ⟨i, below, rfl⟩ := List.mem_range'.mp slice
  obtain ⟨b, t, member, owned, place, small⟩ :=
    @keyless_owner _ _ _ keyless (spec.queryStart + i) (by rw [groupOf]; omega)
  have member' : b < (decodes ++ prefills).length := by rwa [List.length_map] at member
  rw [List.getElem_map] at owned small
  exact ⟨b, t, member', owned, by rw [Nat.one_mul, Nat.add_assoc, place], small⟩

/-- A token that is left out has no complete pool, so leaving it out loses no key. -/
theorem pools_of_left_out (compress : List V → V) {token : ℕ}
    (listed : token ∈ prefillTokens decodes prefills)
    (left_out : token ∉ servedTokens kpool ((decodes ++ prefills).map Reader.request)
      (stepChunks kpool workspaceSize maxLogitsBytes decodes prefills)) :
    (tokenPools compress kpool (decodes ++ prefills)).getD token [] = [] := by
  obtain ⟨b, t, inside, owned, rfl, small⟩ := owner_of_left_out listed left_out
  have among := (decodes ++ prefills)[b].among
  have none : ((decodes ++ prefills)[b].holder.entries.length - (decodes ++ prefills)[b].query +
      t + 1) / kpool = 0 := Nat.le_zero.mp (small ▸ Nat.div_le_div_right (by omega))
  rw [List.getD_eq_getElem?_getD, tokenPools, entry_of_reader _ inside owned, Option.getD_some,
    Reader.pools, none]
  rfl

end Served

/-- The metadata can always be built: each chunk's programs have an interleaving. -/
theorem exists_built (ratio : ℕ) (requests : List Request) (chunks : List ChunkSpec) :
    ∃ bounds, Built ratio requests chunks bounds := by
  choose bounds launched using fun spec : ChunkSpec => exists_launch
    (chunkMetadata ratio (groupOf requests spec) spec.queryStart spec.queryStop) fun _ => 0
  exact ⟨bounds, fun spec _ => ⟨_, launched spec⟩⟩

section Prompt

/-- A prompt of three tokens that is alone in the cache. -/
def prompt : Reader ℕ := ⟨⟨some 0, List.range (tailRing 2 2 + 1), [5, 6, 9], 3⟩, 3, le_refl 3⟩

/-- A state of the cache in which the prompt was stored is reachable. -/
theorem prompt_prefilled : ∃ memory : Cell → ℕ, Reachable
    (cache List.sum 2 2 (tailRing 2 2) fun _ => 0) (alone (tailRing 2 2) memory [5, 6, 9] 3) := by
  obtain ⟨memory, write⟩ := Batch.exists_writes List.sum 2 (tailRing 2 2)
    ⟨[], [aloneRow (tailRing 2 2) [] [5, 6, 9]], List.replicate 3 0⟩ fun _ => 0
  exact ⟨memory, alone_prefill (alone_admitted 2 2 (tailRing 2 2)) (by decide) rfl write⟩

/-- The prompt is held in that state by the only request. -/
theorem prompt_held (memory : Cell → ℕ) : ∀ reader ∈ [] ++ [prompt],
    ∃ id, (alone (tailRing 2 2) memory [5, 6, 9] 3).holders id = some reader.holder := by
  intro reader listed
  rw [List.mem_singleton.mp listed]
  exact ⟨0, rfl⟩

end Prompt

/-- The memory between the seed launch and the decode launch of a step has the pools of the step's
prefill requests as the step leaves them: the decode launch writes no cell of another request. -/
theorem seeded_sees [Inhabited V] {compress : List V → V} {kpool numSpec : ℕ} (positive : 0 < kpool)
    {blank : Cell → V} {state : State V}
    (reachable : Reachable (cache compress kpool numSpec (tailRing kpool numSpec) blank) state)
    {decode prefill : List (ℕ × List V)} {slotIn : List ℤ} {final : Cell → V}
    (sent : Allowed compress kpool numSpec (tailRing kpool numSpec) state
      (.write decode prefill slotIn final)) :
    ∃ inserted seeded,
      Launches ((state.batch decode prefill slotIn).insert compress kpool) state.memory inserted ∧
      Launches ((state.batch decode prefill slotIn).seed kpool (tailRing kpool numSpec)) inserted seeded ∧
      ∀ readers : List (Reader V), (∀ reader ∈ readers, ∃ request ∈ prefill,
          (step kpool state (.write decode prefill slotIn final)).holders request.1 =
            some reader.holder) →
        Sees seeded (step kpool state (.write decode prefill slotIn final)) readers := by
  have room := le_tailRing positive numSpec
  have inv := inv_of_reachable positive (by omega) (by omega) reachable
  have separate := inv.separate sent
  obtain ⟨_, _, _, mapped, inserted, seeded, insert, seed, update⟩ := id sent
  refine ⟨inserted, seeded, insert, seed, fun readers held reader listed loc own => ?_⟩
  obtain ⟨request, member, after⟩ := held reader listed
  obtain ⟨holder, ready⟩ := sent.ready (List.mem_append_right _ member)
  obtain ⟨_, _, row⟩ := ready.row
  -- the batch leaves the slots of the request as they were
  have slots : reader.holder.locs = holder.locs := by
    have wrote : (state.holders request.1).map (Holder.wrote decode prefill request.1) =
        some reader.holder := after
    rw [ready.1, Option.map_some] at wrote
    rw [← Option.some.inj wrote]
    exact (wrote_kept (inv.ok _ _ ready.1).counted decode prefill request.1).2.1
  have placed : state.row request ∈ (state.batch decode prefill slotIn).prefill :=
    List.mem_map_of_mem member
  refine (Batch.update_frame (by omega) mapped update _ fun other decoded owned => ?_).symm
  have outside := (separate.across decoded placed).pools loc owned
  rw [row] at outside
  exact outside (slots ▸ own)

/-- The loop of a prefill in every reachable state of the pool cache: whatever the workspace held and
however the metadata programs were interleaved, it scores prefill tokens in order and each at most
once, every one against exactly the complete pools of its own request up to itself, compressed from
the request's tokens. A token that is left out has no complete pool. The loop runs between the seed
launch and the decode launch of the step, on a memory `seen` that differs from the state's in cells
of decode requests only (`seeded_sees`). -/
theorem prefill_rows [Inhabited V] {compress : List V → V} {kpool numSpec : ℕ} (positive : 0 < kpool)
    {blank : Cell → V} {state : State V}
    (reachable : Reachable (cache compress kpool numSpec (tailRing kpool numSpec) blank) state)
    {decodes prefills : List (Reader V)}
    (held : ∀ reader ∈ decodes ++ prefills, ∃ id, state.holders id = some reader.holder)
    {seen : Cell → V} (sees : Sees seen state prefills)
    {workspaceSize maxLogitsBytes : ℕ} {bounds : ChunkSpec → MetaCell → ℕ}
    (built : Built kpool ((decodes ++ prefills).map Reader.request)
      (stepChunks kpool workspaceSize maxLogitsBytes decodes prefills) bounds)
    (gather : Gather V) (loop : Loop V) :
    ∃ served : List ℕ, served.Sublist (prefillTokens decodes prefills) ∧
      ((stepChunks kpool workspaceSize maxLogitsBytes decodes prefills).foldl
          (turn gather seen kpool ((decodes ++ prefills).map Reader.request) bounds) loop).rows =
        loop.rows ++ served.map (fun token =>
          (token, (tokenPools compress kpool (decodes ++ prefills)).getD token [])) ∧
      ∀ token ∈ prefillTokens decodes prefills, token ∉ served →
        (tokenPools compress kpool (decodes ++ prefills)).getD token [] = [] := by
  have room := le_tailRing positive numSpec
  have sound : state.Sound compress kpool :=
    (inv_of_reachable positive (by omega) (by omega) reachable).sound
  refine ⟨servedTokens kpool ((decodes ++ prefills).map Reader.request)
    (stepChunks kpool workspaceSize maxLogitsBytes decodes prefills), ?_, ?_, ?_⟩
  · rw [← stepChunks_tokens workspaceSize maxLogitsBytes]
    exact servedTokens_sublist _ _
  · exact stepChunks_rows sound held sees built loop
  · exact fun token listed left_out => pools_of_left_out compress listed left_out

/-- A prompt of three tokens, read token by token: the second one attends to the first pool. -/
theorem prefill_rows_three : ∃ memory : Cell → ℕ, ∃ bounds : ChunkSpec → MetaCell → ℕ,
    Reachable (cache List.sum 2 2 (tailRing 2 2) fun _ => 0) (alone (tailRing 2 2) memory [5, 6, 9] 3) ∧
      (1, [11]) ∈ ((stepChunks 2 8 4 [] [prompt]).foldl
        (turn .overwrite memory 2 [prompt.request] bounds) ⟨fun _ => 0, []⟩).rows := by
  obtain ⟨memory, prefilled⟩ := prompt_prefilled
  obtain ⟨bounds, built⟩ := exists_built 2 [prompt.request] (stepChunks 2 8 4 [] [prompt])
  obtain ⟨served, _, rows, others⟩ :=
    prefill_rows Nat.zero_lt_two prefilled (prompt_held memory) (fun _ _ _ _ => rfl) built .overwrite
      ⟨fun _ => 0, []⟩
  have scored : 1 ∈ served := by
    by_contra left_out
    exact absurd (others 1 (by decide) left_out) (by decide)
  have row : (1, [11]) ∈ served.map fun token =>
      (token, (tokenPools List.sum 2 [prompt]).getD token []) := List.mem_map.mpr ⟨1, scored, by decide⟩
  exact ⟨memory, bounds, prefilled, rows.symm ▸ row⟩

end GlmSpark.PrefillReads
