import GlmSpark.Blocks
import Mathlib.Algebra.BigOperators.Group.List.Basic
import Mathlib.Tactic.Linarith

/-!
# Prefill chunks of the indexer

`split_indexer_prefill_chunks` of `mla_indexer.py` cuts the prefill requests of a step into
groups whose keys fit a workspace and whose logits fit a budget. A request that does not fit
alone is a group of its own, and its queries are cut until the logits fit.

Every group is a run of consecutive requests, and its slices are consecutive runs of its
queries. The proofs follow the two loops: what the inner loop has taken, then one group after
the other.
-/

namespace GlmSpark.PrefillChunks

open Blocks

/-- What the splitter reads of a request: its new tokens and the keys it attends to. -/
structure Lens where
  query : ℕ
  seq : ℕ
deriving DecidableEq, Repr

/-- The queries of some requests. -/
def queries (requests : List Lens) : ℕ := (requests.map Lens.query).sum

/-- The keys of some requests. -/
def keys (requests : List Lens) : ℕ := (requests.map Lens.seq).sum

/-- `(req_slice, query_slice)`; the queries are counted from the group's first one. -/
structure ChunkSpec where
  reqStart : ℕ
  reqStop : ℕ
  queryStart : ℕ
  queryStop : ℕ
deriving DecidableEq, Repr

/-- `end - start`, `chunk_m` and `chunk_n`: how many requests were taken, with their queries and
keys. -/
structure Group where
  taken : ℕ
  chunkM : ℕ
  chunkN : ℕ

variable (workspaceSize maxLogitsElems : ℕ)

/-- The group is within the workspace and the logits budget. -/
def Fits (chunkM chunkN : ℕ) : Prop := chunkN ≤ workspaceSize ∧ chunkM * chunkN ≤ maxLogitsElems

/-- Whether a chunk fits is decided by its two products. -/
instance (chunkM chunkN : ℕ) : Decidable (Fits workspaceSize maxLogitsElems chunkM chunkN) :=
  inferInstanceAs (Decidable (_ ∧ _))

/-- The inner loop: requests join while they fit. -/
def grow (group : Group) : List Lens → Group
  | [] => group
  | lens :: rest =>
    let newM := group.chunkM + lens.query
    let newN := group.chunkN + lens.seq
    if Fits workspaceSize maxLogitsElems newM newN then grow ⟨group.taken + 1, newM, newN⟩ rest
    else group

/-- The next group: a request that does not fit alone is one by itself. -/
def nextGroup (first : Lens) (rest : List Lens) : Group :=
  let group := grow workspaceSize maxLogitsElems ⟨0, 0, 0⟩ (first :: rest)
  if group.taken = 0 then ⟨1, first.query, first.seq⟩ else group

/-- `max_q`: the queries of a slice that keep its logits within the budget, at least one. -/
def maxQuery (group : Group) : ℕ :=
  if 0 < group.chunkN then max 1 (maxLogitsElems / group.chunkN) else max 1 group.chunkM

/-- The query slices of a group, all of them of `max_q` queries but the last. -/
def slices (group : Group) : List (ℕ × ℕ) :=
  let maxQ := maxQuery maxLogitsElems group
  (List.range (cdiv group.chunkM maxQ)).map fun i =>
    (i * maxQ, i * maxQ + min maxQ (group.chunkM - i * maxQ))

/-- The outer loop, from a request on. -/
def splitLoop (start : ℕ) : List Lens → List ChunkSpec
  | [] => []
  | first :: rest =>
    let group := nextGroup workspaceSize maxLogitsElems first rest
    (slices maxLogitsElems group).map (fun slice =>
        ⟨start, start + group.taken, slice.1, slice.2⟩) ++
      splitLoop (start + group.taken) (rest.drop (group.taken - 1))
  termination_by requests => requests.length
  decreasing_by
    rw [List.length_drop, List.length_cons]
    omega

/-- `split_indexer_prefill_chunks`: requests are grouped while they fit, and a group's queries are
cut to the budget. -/
def splitIndexerPrefillChunks (requests : List Lens) (maxLogitsBytes requestOffset : ℕ) :
    List ChunkSpec :=
  splitLoop workspaceSize (maxLogitsBytes / 4) requestOffset requests

/-- The tokens of a chunk, `token_start` up to `token_end`, given `query_start_loc`. -/
def ChunkSpec.tokens (queryStartLoc : ℕ → ℕ) (spec : ChunkSpec) : List ℕ :=
  List.range' (queryStartLoc spec.reqStart + spec.queryStart) (spec.queryStop - spec.queryStart)

section Groups

/-- What the inner loop has taken: a leading part of the requests that fits. -/
theorem grow_spec (group : Group) (requests : List Lens) :
    ∃ count ≤ requests.length,
      grow workspaceSize maxLogitsElems group requests =
        ⟨group.taken + count, group.chunkM + queries (requests.take count),
          group.chunkN + keys (requests.take count)⟩ ∧
      (count = 0 ∨ Fits workspaceSize maxLogitsElems (group.chunkM + queries (requests.take count))
        (group.chunkN + keys (requests.take count))) := by
  induction requests generalizing group with
  | nil => exact ⟨0, le_refl 0, rfl, Or.inl rfl⟩
  | cons lens rest ih =>
    by_cases joins : Fits workspaceSize maxLogitsElems (group.chunkM + lens.query)
        (group.chunkN + lens.seq)
    · obtain ⟨count, inside, grown, fits⟩ :=
        ih ⟨group.taken + 1, group.chunkM + lens.query, group.chunkN + lens.seq⟩
      refine ⟨count + 1, Nat.succ_le_succ inside, ?_, Or.inr ?_⟩
      · rw [grow, if_pos joins, grown]
        simp [queries, keys, Nat.add_assoc, Nat.add_comm 1 count]
      · rcases fits with rfl | fits
        · simpa [queries, keys] using joins
        · simpa [queries, keys, Nat.add_assoc] using fits
    · refine ⟨0, Nat.zero_le _, ?_, Or.inl rfl⟩
      rw [grow, if_neg joins]
      rfl

/-- A group is a leading part of the requests, not empty, and fits unless it is one request. -/
structure Formed (requests : List Lens) (group : Group) : Prop where
  positive : 0 < group.taken
  inside : group.taken ≤ requests.length
  chunkM : group.chunkM = queries (requests.take group.taken)
  chunkN : group.chunkN = keys (requests.take group.taken)
  fits : group.taken = 1 ∨ Fits workspaceSize maxLogitsElems group.chunkM group.chunkN

/-- The inner loop takes at least the first request, sums what it takes, and stops only at the end
or where one more request would not fit. -/
theorem nextGroup_formed (first : Lens) (rest : List Lens) :
    Formed workspaceSize maxLogitsElems (first :: rest)
      (nextGroup workspaceSize maxLogitsElems first rest) := by
  obtain ⟨count, inside, grown, fits⟩ :=
    grow_spec workspaceSize maxLogitsElems ⟨0, 0, 0⟩ (first :: rest)
  simp only [Nat.zero_add] at grown fits
  rw [nextGroup, grown]
  dsimp only
  split
  next alone => exact ⟨Nat.one_pos, by simp, by simp [queries], by simp [keys], Or.inl rfl⟩
  next some =>
    exact ⟨Nat.pos_of_ne_zero some, inside, rfl, rfl, Or.inr (fits.resolve_left some)⟩

/-- A slice takes at least one query, so the slicing of a long request ends. -/
theorem maxQuery_pos (group : Group) : 0 < maxQuery maxLogitsElems group := by
  rw [maxQuery]
  split <;> exact Nat.lt_of_lt_of_le Nat.one_pos (le_max_left _ _)

/-- A slice stays within the budget, or has one query. -/
theorem slice_bounded {group : Group} {slice : ℕ × ℕ}
    (listed : slice ∈ slices maxLogitsElems group) :
    (slice.2 - slice.1) * group.chunkN ≤ maxLogitsElems ∨ slice.2 - slice.1 = 1 := by
  obtain ⟨i, inside, rfl⟩ := List.mem_map.mp listed
  have below := (lt_cdiv group.chunkM _ i (maxQuery_pos maxLogitsElems group)).mp
    (List.mem_range.mp inside)
  simp only [Nat.add_sub_cancel_left]
  by_cases keyless : group.chunkN = 0
  · rw [keyless, Nat.mul_zero]
    exact Or.inl (Nat.zero_le _)
  · have width : maxQuery maxLogitsElems group = max 1 (maxLogitsElems / group.chunkN) :=
      if_pos (Nat.pos_of_ne_zero keyless)
    rw [width] at below ⊢
    rcases le_total (maxLogitsElems / group.chunkN) 1 with small | large
    · rw [max_eq_left small] at below ⊢
      exact Or.inr (by omega)
    · rw [max_eq_right large]
      exact Or.inl ((Nat.mul_le_mul_right _ (min_le_left _ _)).trans (Nat.div_mul_le_self _ _))

/-- A slice ends inside the group's queries. -/
theorem slice_inside {group : Group} {slice : ℕ × ℕ} (listed : slice ∈ slices maxLogitsElems group) :
    slice.2 ≤ group.chunkM := by
  obtain ⟨i, inside, rfl⟩ := List.mem_map.mp listed
  have below := (lt_cdiv group.chunkM _ i (maxQuery_pos maxLogitsElems group)).mp
    (List.mem_range.mp inside)
  dsimp only
  omega

/-- The first slice begins with the group. -/
theorem slices_head {group : Group} {slice : ℕ × ℕ}
    (first : slice ∈ (slices maxLogitsElems group).head?) : slice.1 = 0 := by
  rw [slices, List.head?_map, Option.mem_def, Option.map_eq_some_iff] at first
  obtain ⟨i, leads, rfl⟩ := first
  rw [List.head?_range] at leads
  split at leads
  · cases leads
  · rw [← Option.some.inj leads, Nat.zero_mul]

/-- Consecutive pieces of a range make the range. -/
theorem pieces_range (base width total count : ℕ) :
    (List.range count).flatMap (fun i =>
      List.range' (base + i * width) (min width (total - i * width))) =
        List.range' base (min total (count * width)) := by
  induction count with
  | zero => simp
  | succ count ih =>
    rw [List.range_succ, List.flatMap_append, ih, List.flatMap_cons, List.flatMap_nil,
      List.append_nil, Nat.add_mul, Nat.one_mul]
    rcases Nat.le_total total (count * width) with past | before
    · rw [Nat.sub_eq_zero_of_le past, Nat.min_zero, List.range'_zero, List.append_nil,
        Nat.min_eq_left past, Nat.min_eq_left (by omega)]
    · rw [Nat.min_eq_right before, List.range'_append_1]
      congr 1
      omega

/-- The slices of a group take its queries in order, each once. -/
theorem slices_cover (base : ℕ) (group : Group) :
    (slices maxLogitsElems group).flatMap (fun slice =>
      List.range' (base + slice.1) (slice.2 - slice.1)) = List.range' base group.chunkM := by
  have whole : group.chunkM ≤ cdiv group.chunkM (maxQuery maxLogitsElems group) *
      maxQuery maxLogitsElems group := by
    by_contra short
    exact lt_irrefl _ ((lt_cdiv group.chunkM _ _ (maxQuery_pos maxLogitsElems group)).mpr
      (Nat.lt_of_not_le short))
  rw [slices, List.flatMap_map]
  simp only [Nat.add_sub_cancel_left]
  rw [pieces_range, Nat.min_eq_left whole]

end Groups

section Split

/-- The loop goes on behind the group. -/
theorem drop_group {first : Lens} {rest : List Lens} {group : Group}
    (formed : Formed workspaceSize maxLogitsElems (first :: rest) group) :
    rest.drop (group.taken - 1) = (first :: rest).drop group.taken := by
  obtain ⟨taken, same⟩ := Nat.exists_eq_succ_of_ne_zero formed.positive.ne'
  rw [same]
  rfl

/-- Where the queries of requests begin, among those of all requests. -/
theorem queries_drop (all : List Lens) (start count : ℕ) :
    queries (all.take (start + count)) =
      queries (all.take start) + queries ((all.drop start).take count) := by
  rw [List.take_add, queries, List.map_append, List.sum_append]
  rfl

/-- From a request on, the chunks take the rest of the tokens in order, each once. -/
theorem splitLoop_tokens (all : List Lens) (start : ℕ) {requests : List Lens}
    (from_start : requests = all.drop start) :
    (splitLoop workspaceSize maxLogitsElems start requests).flatMap
        (ChunkSpec.tokens fun req => queries (all.take req)) =
      List.range' (queries (all.take start)) (queries requests) := by
  induction start, requests using splitLoop.induct workspaceSize maxLogitsElems with
  | case1 start => rw [splitLoop]; rfl
  | case2 start first rest group ih =>
    have formed : Formed workspaceSize maxLogitsElems (first :: rest) group :=
      nextGroup_formed workspaceSize maxLogitsElems first rest
    have behind : rest.drop (group.taken - 1) = all.drop (start + group.taken) := by
      rw [drop_group _ _ formed, from_start, List.drop_drop]
    have split : queries (first :: rest) = group.chunkM + queries (all.drop (start + group.taken)) := by
      rw [formed.chunkM, ← behind, drop_group _ _ formed, queries, queries, queries, ← List.sum_append,
        ← List.map_append, List.take_append_drop]
    have own : ((slices maxLogitsElems group).map fun slice =>
        (⟨start, start + group.taken, slice.1, slice.2⟩ : ChunkSpec)).flatMap
          (ChunkSpec.tokens fun req => queries (all.take req)) =
        List.range' (queries (all.take start)) group.chunkM := by
      rw [List.flatMap_map]
      exact slices_cover maxLogitsElems (queries (all.take start)) group
    rw [splitLoop, List.flatMap_append, own, ih behind, queries_drop, behind, split, ← from_start,
      ← formed.chunkM, List.range'_append_1]

/-- Every chunk has a slice of its requests' queries that stays within the budget, or is one query, and
several requests fit the workspace. -/
theorem splitLoop_bounded (all : List Lens) (start : ℕ) {requests : List Lens}
    (from_start : requests = all.drop start) {spec : ChunkSpec}
    (listed : spec ∈ splitLoop workspaceSize maxLogitsElems start requests) :
    start ≤ spec.reqStart ∧
    spec.queryStop ≤ queries ((all.drop spec.reqStart).take (spec.reqStop - spec.reqStart)) ∧
    ((spec.queryStop - spec.queryStart) *
        keys ((all.drop spec.reqStart).take (spec.reqStop - spec.reqStart)) ≤ maxLogitsElems ∨
      spec.queryStop - spec.queryStart = 1) ∧
    (keys ((all.drop spec.reqStart).take (spec.reqStop - spec.reqStart)) ≤ workspaceSize ∨
      spec.reqStop = spec.reqStart + 1) := by
  induction start, requests using splitLoop.induct workspaceSize maxLogitsElems with
  | case1 start =>
    rw [splitLoop] at listed
    cases listed
  | case2 start first rest group ih =>
    have formed : Formed workspaceSize maxLogitsElems (first :: rest) group :=
      nextGroup_formed workspaceSize maxLogitsElems first rest
    have behind : rest.drop (group.taken - 1) = all.drop (start + group.taken) := by
      rw [drop_group _ _ formed, from_start, List.drop_drop]
    rw [splitLoop] at listed
    rcases List.mem_append.mp listed with own | later
    · obtain ⟨slice, cut, rfl⟩ := List.mem_map.mp own
      have width : keys ((all.drop start).take (start + group.taken - start)) = group.chunkN := by
        rw [Nat.add_sub_cancel_left, ← from_start, formed.chunkN]
      refine ⟨le_refl _, ?_, ?_, ?_⟩
      · dsimp only
        rw [Nat.add_sub_cancel_left, ← from_start, ← formed.chunkM]
        exact slice_inside maxLogitsElems cut
      · rw [width]
        exact slice_bounded maxLogitsElems cut
      · rw [width]
        rcases formed.fits with alone | fits
        · exact Or.inr (by rw [← alone])
        · exact Or.inl fits.1
    · obtain ⟨after, rest⟩ := ih behind later
      exact ⟨(Nat.le_add_right _ _).trans after, rest⟩

end Split

/-- Decode requests come first in a step; the chunks take the tokens behind theirs. -/
theorem chunks_tokens (decodes prefills : List Lens) (maxLogitsBytes : ℕ) :
    (splitIndexerPrefillChunks workspaceSize prefills maxLogitsBytes decodes.length).flatMap
        (ChunkSpec.tokens fun req => queries ((decodes ++ prefills).take req)) =
      List.range' (queries decodes) (queries prefills) := by
  have behind : prefills = (decodes ++ prefills).drop decodes.length := by rw [List.drop_left]
  have covered :=
    splitLoop_tokens workspaceSize (maxLogitsBytes / 4) (decodes ++ prefills) decodes.length behind
  rw [List.take_left] at covered
  exact covered

/-- The chunks take every token of the prefill requests once and in order. When every request alone
fits the workspace, every chunk does. Its logits take at most the given bytes unless the chunk is one
query. -/
theorem splitIndexerPrefillChunks_sound (decodes prefills : List Lens) (maxLogitsBytes : ℕ) :
    (splitIndexerPrefillChunks workspaceSize prefills maxLogitsBytes decodes.length).flatMap
        (ChunkSpec.tokens fun req => queries ((decodes ++ prefills).take req)) =
      List.range' (queries decodes) (queries prefills) ∧
    ∀ spec ∈ splitIndexerPrefillChunks workspaceSize prefills maxLogitsBytes decodes.length,
      ((∀ lens ∈ prefills, lens.seq ≤ workspaceSize) →
        keys (((decodes ++ prefills).drop spec.reqStart).take (spec.reqStop - spec.reqStart)) ≤
          workspaceSize) ∧
        ((spec.queryStop - spec.queryStart) * keys (((decodes ++ prefills).drop spec.reqStart).take
            (spec.reqStop - spec.reqStart)) * 4 ≤ maxLogitsBytes ∨
          spec.queryStop - spec.queryStart = 1) := by
  have behind : prefills = (decodes ++ prefills).drop decodes.length := by rw [List.drop_left]
  refine ⟨chunks_tokens workspaceSize decodes prefills maxLogitsBytes, fun spec listed => ?_⟩
  obtain ⟨after, _, logits, room⟩ :=
    splitLoop_bounded workspaceSize (maxLogitsBytes / 4) _ decodes.length behind listed
  refine ⟨fun fits => room.elim id fun alone => ?_, logits.imp (fun bounded => ?_) id⟩
  · obtain ⟨index, here⟩ := Nat.exists_eq_add_of_le after
    rw [alone, Nat.add_sub_cancel_left, here, ← List.drop_drop, List.drop_left]
    cases found : prefills.drop index with
    | nil => exact Nat.zero_le _
    | cons lens rest =>
      have member : lens ∈ prefills := List.mem_of_mem_drop (found ▸ List.mem_cons_self)
      simpa [keys] using fits lens member
  · exact (Nat.mul_le_mul_right 4 bounded).trans (Nat.div_mul_le_self maxLogitsBytes 4)

/-- Three prefill requests behind a decode request: two share a chunk, and a long one is cut query by
query. -/
def longLast : List Lens := [⟨2, 3⟩, ⟨1, 4⟩, ⟨3, 40⟩]

/-- `splitIndexerPrefillChunks_sound` there: the tokens, and the keys of the last chunk, which fill the
workspace. -/
theorem splitIndexerPrefillChunks_sound_three :
    (splitIndexerPrefillChunks 40 longLast 200 1).flatMap
        (ChunkSpec.tokens fun req => queries (([⟨1, 9⟩] ++ longLast : List Lens).take req)) =
      List.range' (queries [⟨1, 9⟩]) (queries longLast) ∧
    (⟨3, 4, 2, 3⟩ : ChunkSpec) ∈ splitIndexerPrefillChunks 40 longLast 200 1 ∧
    keys ((([⟨1, 9⟩] ++ longLast : List Lens).drop 3).take 1) ≤ 40 := by
  have sound := splitIndexerPrefillChunks_sound 40 [⟨1, 9⟩] longLast 200
  have last : (⟨3, 4, 2, 3⟩ : ChunkSpec) ∈ splitIndexerPrefillChunks 40 longLast 200 1 := by
    rw [splitIndexerPrefillChunks, longLast, splitLoop]
    refine List.mem_append_right _ ?_
    change _ ∈ splitLoop 40 50 3 [⟨3, 40⟩]
    rw [splitLoop]
    exact List.mem_append_left _ (by decide)
  exact ⟨sound.1, last, (sound.2 _ last).1 (by decide)⟩

end GlmSpark.PrefillChunks
