import GlmSpark.Ragged
import GlmSpark.Continuation

/-!
# Greedy verification on token ids

`greedy_verify` compares every logits row's target with the draft id checked at
that row and returns, per request, the sampled row and how many of its entries
count. Two implementations exist: tensor operations over the flat batch, and one
kernel program per request. In the flat arrays the draft id checked at row `j` is
the input id at row `j + 1` of the same request; the last row of a request checks
nothing.

The specification of both is the same: a request commits its targets up to and
including the first one that its draft missed. Entries of a sampled row past the
returned count are don't-care in both implementations and are not described.
-/

namespace GlmSpark.GreedyVerify

open Ragged

/-- The largest 64-bit integer, used as "no miss here". -/
def big : Nat := 2 ^ 63 - 1

/-- The draft id checked at a flat row: the next input id, `-1` after the last. -/
def nxt (draft : List Int) (row : Nat) : Int := (draft.tail ++ [-1]).getD row (-1)

/-- `match`: the checked id equals the row's target, is a real id, and the row is
not the last one of its request. -/
def rowMatch (target draft : List Int) (stop row : Nat) : Bool :=
  nxt draft row == target.getD row 0 && decide (0 ≤ nxt draft row) && decide (row < stop - 1)

/-- `miss`: the row's place in its request, or `big` where it matched. -/
def rowMiss (target draft : List Int) (cu : List Nat) (row : Nat) : Nat :=
  let req := searchsortedRight cu.tail row
  if rowMatch target draft (cu.getD (req + 1) 0) row then big else row - cu.getD req 0

/-- `scatter_reduce(amin, include_self=True)` of the misses into one request's
accumulator. -/
def firstMiss (target draft : List Int) (cu : List Nat) (req : Nat) : Nat :=
  (((List.range target.length).filter (fun row => searchsortedRight cu.tail row == req)).map
    (rowMiss target draft cu)).foldl min big

/-- `greedy_verify_torch`: the sampled rows and the number of valid entries. -/
def greedyVerifyTorch (target draft : List Int) (cu : List Nat) (numReqs width : Nat) :
    List (List Int) × List Nat :=
  let cu := cu.take (numReqs + 1)
  ((List.range numReqs).map fun req => (List.range width).map fun col =>
      target.getD (min (cu.getD req 0 + col) (cu.getD (req + 1) 0 - 1)) 0,
    (List.range numReqs).map fun req => firstMiss target draft cu req + 1)

/-- What one kernel program carries through its loop. -/
structure KernelState where
  verifying : Bool
  accepted : Nat
  sampled : List Int
deriving DecidableEq, Repr

/-- One iteration of the kernel loop. Once a draft was missed, nothing is read or
stored any more. -/
def verifyKernelStep (target draft : List Int) (start : Nat) (state : KernelState) (i : Nat) :
    KernelState :=
  if state.verifying then
    let t := target.getD (start + i) 0
    let d := draft.getD (start + i + 1) 0
    let ok := t == d && decide (0 ≤ d)
    { verifying := ok
      accepted := state.accepted + ok.toNat
      sampled := state.sampled.set i (if ok then d else t) }
  else state

/-- `_greedy_verify_kernel`, the program of request `r`; its sampled row starts
with whatever the allocation held. -/
def greedyVerifyProgram (target draft : List Int) (cu : List Nat) (r : Nat)
    (uninitialised : List Int) : List Int × Nat :=
  let start := cu.getD r 0
  let stop := cu.getD (r + 1) 0
  let n := stop - start - 1
  let last := (List.range n).foldl (verifyKernelStep target draft start)
    { verifying := true, accepted := 0, sampled := uninitialised }
  (if last.accepted = n then last.sampled.set n (target.getD (start + n) 0) else last.sampled,
    last.accepted + 1)

/-- The implementation `greedy_verify` dispatches to. The kernel's output buffer
has the given contents before the launch. -/
inductive Backend where
  | torch
  | kernel (uninitialised : Nat → List Int)

/-- `greedy_verify`: for each request its accepted drafts and one target more, by the torch
reference or by the kernel. -/
def greedyVerify (backend : Backend) (target draft : List Int) (cu : List Nat)
    (numReqs width : Nat) : List (List Int) × List Nat :=
  match backend with
  | .torch => greedyVerifyTorch target draft cu numReqs width
  | .kernel uninitialised =>
    let programs := (List.range numReqs).map fun r =>
      greedyVerifyProgram target draft cu r ((List.range width).map fun col =>
        (uninitialised r).getD col 0)
    (programs.map Prod.fst, programs.map Prod.snd)

/-- The tokens a request takes from the result: its sampled row up to the count. -/
def committed (result : List (List Int) × List Nat) (req : Nat) : List Int :=
  (result.1.getD req []).take (result.2.getD req 0)

/-- The logits rows of one request: the input ids (its last committed token, then
the drafts) and the target of every row. -/
structure VerifyRows where
  ids : List Int
  targets : List Int
  same_length : targets.length = ids.length
  nonempty : 0 < ids.length

/-- The draft ids of the request's rows. -/
def VerifyRows.drafts (rows : VerifyRows) : List Int := rows.ids.tail

/-- A batch whose rows fit the sampled buffer, whose counts fit an int32. -/
structure VerifyBatch (width : Nat) where
  members : List VerifyRows
  fits : ∀ rows ∈ members, rows.ids.length ≤ width
  counts : width < 2 ^ 31

namespace VerifyBatch

variable {width : Nat}

/-- The flat target ids of all logits rows. -/
def target (batch : VerifyBatch width) : List Int :=
  (batch.members.map VerifyRows.targets).flatten

/-- The flat input ids of all logits rows. -/
def draft (batch : VerifyBatch width) : List Int := (batch.members.map VerifyRows.ids).flatten

/-- `cu_num_logits`. -/
def cu (batch : VerifyBatch width) : List Nat := offsets (batch.members.map VerifyRows.ids)

end VerifyBatch

/-- Leading drafts that are real ids and equal their targets. -/
def acceptedDrafts : List Int → List Int → Nat
  | d :: ds, t :: ts => if d = t ∧ 0 ≤ d then acceptedDrafts ds ts + 1 else 0
  | _, _ => 0

/-- What a request commits: its targets up to and including the first missed one. -/
def VerifyRows.commits (rows : VerifyRows) : List Int :=
  rows.targets.take (acceptedDrafts rows.drafts rows.targets + 1)

/-- A draft token that is the target is accepted, and the comparison goes on behind it. -/
theorem acceptedDrafts_hit {d t : Int} (ok : d = t ∧ 0 ≤ d) (ds ts : List Int) :
    acceptedDrafts (d :: ds) (t :: ts) = acceptedDrafts ds ts + 1 := if_pos ok

/-- The first draft token that differs from its target, or is a placeholder, ends the comparison. -/
theorem acceptedDrafts_miss {d t : Int} (ok : ¬ (d = t ∧ 0 ≤ d)) (ds ts : List Int) :
    acceptedDrafts (d :: ds) (t :: ts) = 0 := if_neg ok

/-- No more drafts are accepted than were proposed. -/
theorem acceptedDrafts_le (drafts targets : List Int) :
    acceptedDrafts drafts targets ≤ drafts.length := by
  induction drafts generalizing targets with
  | nil => simp [acceptedDrafts]
  | cons d ds ih =>
    cases targets with
    | nil => simp [acceptedDrafts]
    | cons t ts =>
      have bound : acceptedDrafts ds ts ≤ ds.length := ih ts
      simp only [acceptedDrafts, List.length_cons]
      split <;> omega

/-- Every accepted draft equals its target and is a real id. -/
theorem acceptedDrafts_match (drafts targets : List Int) (i : Nat)
    (early : i < acceptedDrafts drafts targets) :
    drafts.getD i (-1) = targets.getD i 0 ∧ 0 ≤ drafts.getD i (-1) := by
  induction drafts generalizing targets i with
  | nil => simp [acceptedDrafts] at early
  | cons d ds ih =>
    cases targets with
    | nil => simp [acceptedDrafts] at early
    | cons t ts =>
      by_cases ok : d = t ∧ 0 ≤ d
      · cases i with
        | zero => simpa using ok
        | succ i =>
          have early' : i < acceptedDrafts ds ts := by
            rw [acceptedDrafts_hit ok] at early
            omega
          simpa using ih ts i early'
      · rw [acceptedDrafts_miss ok] at early
        omega

/-- The first draft that was not accepted, if there is one, is not a match. -/
theorem acceptedDrafts_stop (drafts targets : List Int)
    (guessed : acceptedDrafts drafts targets < drafts.length)
    (valued : drafts.length ≤ targets.length) :
    ¬ (drafts.getD (acceptedDrafts drafts targets) (-1) =
        targets.getD (acceptedDrafts drafts targets) 0 ∧
      0 ≤ drafts.getD (acceptedDrafts drafts targets) (-1)) := by
  induction drafts generalizing targets with
  | nil => simp at guessed
  | cons d ds ih =>
    cases targets with
    | nil => simp at valued
    | cons t ts =>
      by_cases ok : d = t ∧ 0 ≤ d
      · rw [acceptedDrafts_hit ok] at guessed ⊢
        simpa only [List.getD_cons_succ] using
          ih ts (by simpa using guessed) (by simpa using valued)
      · rw [acceptedDrafts_miss ok]
        simpa only [List.getD_cons_zero] using ok

/-- When every target is a real id the sign test never decides: the accepted
drafts are exactly the leading ones equal to their targets. -/
theorem acceptedDrafts_eq_leading (drafts targets : List Int) (real : ∀ t ∈ targets, 0 ≤ t) :
    acceptedDrafts drafts targets = Continuation.leading drafts targets := by
  induction drafts generalizing targets with
  | nil => rfl
  | cons d ds ih =>
    cases targets with
    | nil => rfl
    | cons t ts =>
      have head : 0 ≤ t := real t (by simp)
      have rest := ih ts (fun t member => real t (by simp [member]))
      by_cases same : d = t
      · simp [acceptedDrafts, Continuation.leading, same, head, rest]
      · simp [acceptedDrafts, Continuation.leading, same]

section Flat

variable {width : Nat} (batch : VerifyBatch width)

/-- Every member has one target for each of its draft rows, so targets and drafts are cut at the
same places. -/
theorem targets_lengths :
    (batch.members.map VerifyRows.targets).map List.length =
      (batch.members.map VerifyRows.ids).map List.length := by
  simp [VerifyRows.same_length]

/-- Targets and input ids share their cumulative counts. -/
theorem offset_targets (req : Nat) :
    offset (batch.members.map VerifyRows.targets) req =
      offset (batch.members.map VerifyRows.ids) req := by
  have lengths := congrArg (fun ls => (ls.take req).sum) (targets_lengths batch)
  simpa only [offset, List.map_take] using lengths

/-- The flat target array is as long as the flat draft array. -/
theorem target_length : batch.target.length = batch.draft.length := by
  have lengths := congrArg List.sum (targets_lengths batch)
  simpa only [VerifyBatch.target, VerifyBatch.draft, List.length_flatten] using lengths

variable {batch} {req : Nat} {rows : VerifyRows}

/-- A flat target read inside a request's span is that request's own target. -/
theorem target_read (at_req : batch.members[req]? = some rows) (i : Nat)
    (owned : i < rows.ids.length) :
    batch.target.getD (offset (batch.members.map VerifyRows.ids) req + i) 0 =
      rows.targets.getD i 0 := by
  obtain ⟨inside, rfl⟩ := List.getElem?_eq_some_iff.mp at_req
  rw [← offset_targets]
  have read := flatten_getElem? (batch.members.map VerifyRows.targets) req i
    (by simpa using inside) (by simpa [VerifyRows.same_length] using owned)
  simp only [VerifyBatch.target, List.getD_eq_getElem?_getD, read]
  simp [VerifyRows.same_length, owned]

/-- A flat input id inside a request's span is that request's own input id. -/
theorem draft_read (at_req : batch.members[req]? = some rows) (i : Nat)
    (owned : i < rows.ids.length) :
    batch.draft[offset (batch.members.map VerifyRows.ids) req + i]? = rows.ids[i]? := by
  obtain ⟨inside, rfl⟩ := List.getElem?_eq_some_iff.mp at_req
  have read := flatten_getElem? (batch.members.map VerifyRows.ids) req i
    (by simpa using inside) (by simpa using owned)
  simp [VerifyBatch.draft, read, owned]

/-- Where a request starts: at the cumulative count of drafts before it. -/
theorem cu_start (at_req : batch.members[req]? = some rows) :
    batch.cu.getD req 0 = offset (batch.members.map VerifyRows.ids) req := by
  obtain ⟨inside, rfl⟩ := List.getElem?_eq_some_iff.mp at_req
  rw [List.getD_eq_getElem?_getD, VerifyBatch.cu,
    offsets_getElem? _ _ (by simpa using Nat.le_of_lt inside), Option.getD_some]

/-- Where a request stops: its own drafts further on. The kernel reads its bounds from these two
entries. -/
theorem cu_stop (at_req : batch.members[req]? = some rows) :
    batch.cu.getD (req + 1) 0 =
      offset (batch.members.map VerifyRows.ids) req + rows.ids.length := by
  obtain ⟨inside, rfl⟩ := List.getElem?_eq_some_iff.mp at_req
  rw [List.getD_eq_getElem?_getD, VerifyBatch.cu,
    offsets_getElem? _ _ (by simpa using Nat.succ_le_of_lt inside), Option.getD_some,
    offset_succ _ _ (by simpa using inside)]
  simp

/-- Before the last row, the id checked at a row is the request's own next draft. -/
theorem nxt_read (at_req : batch.members[req]? = some rows) (i : Nat)
    (owned : i + 1 < rows.ids.length) :
    nxt batch.draft (offset (batch.members.map VerifyRows.ids) req + i) =
      rows.drafts.getD i (-1) := by
  have read := draft_read at_req (i + 1) owned
  have stored : offset (batch.members.map VerifyRows.ids) req + i < batch.draft.tail.length := by
    have flat : batch.draft[offset (batch.members.map VerifyRows.ids) req + (i + 1)]? ≠ none := by
      simp [read, owned]
    rw [Ne, List.getElem?_eq_none_iff] at flat
    rw [List.length_tail]
    omega
  rw [nxt, List.getD_eq_getElem?_getD, List.getElem?_append_left stored, List.getElem?_tail,
    Nat.add_assoc, read, VerifyRows.drafts, List.getD_eq_getElem?_getD, List.getElem?_tail]

/-- A row of a request misses at its own place, unless it is checked and equal. -/
theorem miss_read (at_req : batch.members[req]? = some rows) (i : Nat)
    (owned : i < rows.ids.length) :
    rowMiss batch.target batch.draft batch.cu
        (offset (batch.members.map VerifyRows.ids) req + i) =
      if i + 1 < rows.ids.length ∧ rows.drafts.getD i (-1) = rows.targets.getD i 0 ∧
        0 ≤ rows.drafts.getD i (-1) then big else i := by
  obtain ⟨inside, member⟩ := List.getElem?_eq_some_iff.mp at_req
  have owner : searchsortedRight batch.cu.tail
      (offset (batch.members.map VerifyRows.ids) req + i) = req :=
    search_owner _ req i (by simpa using inside) (by simpa [member] using owned)
  simp only [rowMiss, owner, rowMatch, cu_start at_req, cu_stop at_req, target_read at_req i owned,
    Nat.add_sub_cancel_left]
  by_cases checked : i + 1 < rows.ids.length
  · have early : offset (batch.members.map VerifyRows.ids) req + i <
        offset (batch.members.map VerifyRows.ids) req + rows.ids.length - 1 := by omega
    rw [nxt_read at_req i checked]
    simp [checked, early]
  · have late : ¬ offset (batch.members.map VerifyRows.ids) req + i <
        offset (batch.members.map VerifyRows.ids) req + rows.ids.length - 1 := by omega
    simp [checked, late]

/-- The minimum of a list that holds a lower bound of itself is that bound. -/
theorem foldl_min_eq (values : List Nat) (init least : Nat) (below : ∀ value ∈ values, least ≤ value)
    (start : least ≤ init) (attained : least = init ∨ least ∈ values) :
    values.foldl min init = least := by
  induction values generalizing init with
  | nil =>
    rcases attained with same | impossible
    · exact same.symm
    · simp at impossible
  | cons value rest ih =>
    have headBound : least ≤ value := below value (by simp)
    apply ih
    · exact fun other member => below other (by simp [member])
    · exact Nat.le_min.mpr ⟨start, headBound⟩
    · rcases attained with same | member
      · exact Or.inl (by omega)
      · rcases List.mem_cons.mp member with same | later
        · exact Or.inl (by omega)
        · exact Or.inr later

/-- The scatter minimum over a request's rows is its number of accepted drafts:
all earlier rows matched, and that row, checked or last, did not. -/
theorem firstMiss_eq (at_req : batch.members[req]? = some rows)
    (counted : rows.ids.length ≤ big) :
    firstMiss batch.target batch.draft batch.cu req =
      acceptedDrafts rows.drafts rows.targets := by
  obtain ⟨inside, member⟩ := List.getElem?_eq_some_iff.mp at_req
  have bound : acceptedDrafts rows.drafts rows.targets ≤ rows.drafts.length :=
    acceptedDrafts_le _ _
  have drafts_length : rows.drafts.length = rows.ids.length - 1 := List.length_tail
  have positive := rows.nonempty
  have span : (List.range batch.target.length).filter
      (fun row => searchsortedRight batch.cu.tail row == req) =
        (List.range rows.ids.length).map
          (offset (batch.members.map VerifyRows.ids) req + ·) := by
    rw [target_length]
    have owned := owned_rows (batch.members.map VerifyRows.ids) req (by simpa using inside)
    simp only [List.getElem_map, member] at owned
    exact owned
  have misses : (((List.range rows.ids.length).map
      (offset (batch.members.map VerifyRows.ids) req + ·)).map
        (rowMiss batch.target batch.draft batch.cu)) =
      (List.range rows.ids.length).map (fun i =>
        if i + 1 < rows.ids.length ∧ rows.drafts.getD i (-1) = rows.targets.getD i 0 ∧
          0 ≤ rows.drafts.getD i (-1) then big else i) := by
    rw [List.map_map]
    exact List.map_congr_left fun i present => miss_read at_req i (List.mem_range.mp present)
  rw [firstMiss, span, misses]
  apply foldl_min_eq
  · intro value present
    obtain ⟨i, bounded, rfl⟩ := List.mem_map.mp present
    have bounded' : i < rows.ids.length := List.mem_range.mp bounded
    split
    · omega
    · rename_i missed
      by_contra early
      have hit := acceptedDrafts_match rows.drafts rows.targets i (by omega)
      exact missed ⟨by omega, hit⟩
  · omega
  · right
    refine List.mem_map.mpr ⟨acceptedDrafts rows.drafts rows.targets,
      List.mem_range.mpr (by omega), ?_⟩
    rw [if_neg]
    rintro ⟨checked, hit⟩
    exact acceptedDrafts_stop rows.drafts rows.targets (by omega)
      (by rw [rows.same_length]; omega) hit

/-- The tensor implementation commits, for every request, its targets up to and
including the first missed draft. -/
theorem torch_commits (at_req : batch.members[req]? = some rows) :
    committed (greedyVerifyTorch batch.target batch.draft batch.cu batch.members.length width)
      req = rows.commits := by
  obtain ⟨inside, member⟩ := List.getElem?_eq_some_iff.mp at_req
  have fits : rows.ids.length ≤ width := batch.fits rows (List.mem_of_getElem? at_req)
  have counts := batch.counts
  have whole : batch.cu.take (batch.members.length + 1) = batch.cu :=
    List.take_of_length_le (by simp [VerifyBatch.cu])
  have count := firstMiss_eq at_req (show rows.ids.length ≤ big by unfold big; omega)
  have bound : acceptedDrafts rows.drafts rows.targets ≤ rows.drafts.length :=
    acceptedDrafts_le _ _
  have drafts_length : rows.drafts.length = rows.ids.length - 1 := List.length_tail
  have positive := rows.nonempty
  have sampled : ∀ col, col < rows.ids.length →
      batch.target.getD (min (offset (batch.members.map VerifyRows.ids) req + col)
        (offset (batch.members.map VerifyRows.ids) req + rows.ids.length - 1)) 0 =
          rows.targets.getD col 0 := by
    intro col owned
    rw [Nat.min_eq_left (by omega)]
    exact target_read at_req col owned
  apply List.ext_getElem?
  intro col
  simp only [committed, greedyVerifyTorch, whole, VerifyRows.commits, List.getElem?_take,
    List.getD_eq_getElem?_getD, List.getElem?_map, List.getElem?_range inside, Option.map_some,
    Option.getD_some, count]
  split
  · rename_i counted
    have owned : col < rows.ids.length := by omega
    have read := sampled col owned
    have columns : (List.range width)[col]? = some col := List.getElem?_range (by omega)
    have start := cu_start at_req
    have stop := cu_stop at_req
    simp only [List.getD_eq_getElem?_getD] at read start stop
    rw [columns, Option.map_some, start, stop, read]
    simp [rows.same_length, owned]
  · rfl

/-- What the kernel loop has established after `i` iterations: it counted the
accepted drafts among the first `i`, still verifies exactly when all of them were
accepted, and has stored every target it looked at. -/
structure LoopInvariant (rows : VerifyRows) (room i : Nat) (state : KernelState) : Prop where
  accepted : state.accepted = min i (acceptedDrafts rows.drafts rows.targets)
  verifying : state.verifying = decide (i ≤ acceptedDrafts rows.drafts rows.targets)
  room_kept : state.sampled.length = room
  stored : ∀ col, col < i → col ≤ acceptedDrafts rows.drafts rows.targets →
    state.sampled.getD col 0 = rows.targets.getD col 0

/-- One kernel iteration preserves the loop invariant. -/
theorem kernel_step_invariant (at_req : batch.members[req]? = some rows) {room i : Nat}
    {state : KernelState} (invariant : LoopInvariant rows room i state)
    (checked : i + 1 < rows.ids.length) (fits : rows.ids.length ≤ room) :
    LoopInvariant rows room (i + 1)
      (verifyKernelStep batch.target batch.draft
        (offset (batch.members.map VerifyRows.ids) req) state i) := by
  have drafts_length : rows.drafts.length = rows.ids.length - 1 := List.length_tail
  have target := target_read at_req i (by omega)
  have draft : batch.draft.getD (offset (batch.members.map VerifyRows.ids) req + i + 1) 0 =
      rows.drafts.getD i (-1) := by
    have read := draft_read at_req (i + 1) checked
    have stored : rows.ids[i + 1]? = some rows.ids[i + 1] := List.getElem?_eq_getElem checked
    rw [List.getD_eq_getElem?_getD, Nat.add_assoc, read, VerifyRows.drafts,
      List.getD_eq_getElem?_getD, List.getElem?_tail, stored]
    rfl
  by_cases running : i ≤ acceptedDrafts rows.drafts rows.targets
  · have on : state.verifying = true := by simp [invariant.verifying, running]
    have count : state.accepted = i := by rw [invariant.accepted]; omega
    by_cases ok : rows.drafts.getD i (-1) = rows.targets.getD i 0 ∧
        0 ≤ rows.drafts.getD i (-1)
    · have further : i + 1 ≤ acceptedDrafts rows.drafts rows.targets := by
        by_contra stopped
        have here : acceptedDrafts rows.drafts rows.targets = i := by omega
        have missed := acceptedDrafts_stop rows.drafts rows.targets (by omega)
          (by rw [rows.same_length]; omega)
        rw [here] at missed
        exact missed ok
      have flag : (batch.target.getD (offset (batch.members.map VerifyRows.ids) req + i) 0 ==
          batch.draft.getD (offset (batch.members.map VerifyRows.ids) req + i + 1) 0 &&
            decide (0 ≤ batch.draft.getD
              (offset (batch.members.map VerifyRows.ids) req + i + 1) 0)) = true := by
        rw [target, draft, Bool.and_eq_true, beq_iff_eq, decide_eq_true_eq]
        exact ⟨ok.1.symm, ok.2⟩
      simp only [verifyKernelStep, on, if_true, flag]
      refine ⟨?_, ?_, ?_, ?_⟩
      · simp only [count, Bool.toNat_true]
        omega
      · exact (decide_eq_true further).symm
      · simpa only [List.length_set] using invariant.room_kept
      · intro col early accepted
        by_cases last : col = i
        · subst col
          have inside : i < state.sampled.length := by rw [invariant.room_kept]; omega
          rw [draft, ok.1, List.getD_eq_getElem?_getD, List.getElem?_set_self inside,
            Option.getD_some]
        · rw [List.getD_eq_getElem?_getD, List.getElem?_set_ne (Ne.symm last),
            ← List.getD_eq_getElem?_getD]
          exact invariant.stored col (by omega) accepted
    · have here : acceptedDrafts rows.drafts rows.targets = i := by
        by_contra different
        exact ok (acceptedDrafts_match rows.drafts rows.targets i (by omega))
      have flag : (batch.target.getD (offset (batch.members.map VerifyRows.ids) req + i) 0 ==
          batch.draft.getD (offset (batch.members.map VerifyRows.ids) req + i + 1) 0 &&
            decide (0 ≤ batch.draft.getD
              (offset (batch.members.map VerifyRows.ids) req + i + 1) 0)) = false := by
        rw [target, draft, Bool.eq_false_iff, Ne, Bool.and_eq_true, beq_iff_eq, decide_eq_true_eq]
        exact fun both => ok ⟨both.1.symm, both.2⟩
      simp only [verifyKernelStep, on, if_true, flag]
      refine ⟨?_, ?_, ?_, ?_⟩
      · simp only [count, Bool.toNat_false]
        omega
      · exact (decide_eq_false (by omega)).symm
      · simpa only [List.length_set] using invariant.room_kept
      · intro col early accepted
        by_cases last : col = i
        · subst col
          have inside : i < state.sampled.length := by rw [invariant.room_kept]; omega
          rw [target, List.getD_eq_getElem?_getD]
          simp [List.getElem?_set_self inside]
        · rw [List.getD_eq_getElem?_getD, List.getElem?_set_ne (Ne.symm last),
            ← List.getD_eq_getElem?_getD]
          exact invariant.stored col (by omega) accepted
  · have off : state.verifying = false := by simp [invariant.verifying, running]
    simp only [verifyKernelStep, off, Bool.false_eq_true, if_false]
    refine ⟨?_, ?_, invariant.room_kept, ?_⟩
    · rw [invariant.accepted]
      omega
    · rw [off]
      simp only [Bool.false_eq, decide_eq_false_iff_not]
      omega
    · intro col early accepted
      exact invariant.stored col (by omega) accepted

/-- The loop invariant holds after any number of iterations over checked rows. -/
theorem kernel_loop_invariant (at_req : batch.members[req]? = some rows)
    (uninitialised : List Int) (fits : rows.ids.length ≤ uninitialised.length) (i : Nat)
    (checked : i < rows.ids.length) :
    LoopInvariant rows uninitialised.length i
      ((List.range i).foldl (verifyKernelStep batch.target batch.draft
        (offset (batch.members.map VerifyRows.ids) req))
        { verifying := true, accepted := 0, sampled := uninitialised }) := by
  induction i with
  | zero => exact ⟨by simp, by simp, rfl, fun col early => absurd early (by omega)⟩
  | succ i ih =>
    rw [List.range_succ, List.foldl_append]
    exact kernel_step_invariant at_req (ih (by omega)) checked fits

/-- The kernel program after its loop: it has counted the accepted drafts, and the last row's target
is stored where all were accepted. -/
theorem program_last (at_req : batch.members[req]? = some rows) (uninitialised : List Int)
    (fits : rows.ids.length ≤ uninitialised.length) :
    ∃ last, LoopInvariant rows uninitialised.length (rows.ids.length - 1) last ∧
      last.accepted = acceptedDrafts rows.drafts rows.targets ∧
      greedyVerifyProgram batch.target batch.draft batch.cu req uninitialised =
        (if last.accepted = rows.ids.length - 1 then
          last.sampled.set (rows.ids.length - 1) (batch.target.getD
            (offset (batch.members.map VerifyRows.ids) req + (rows.ids.length - 1)) 0)
          else last.sampled, last.accepted + 1) := by
  have drafts_length : rows.drafts.length = rows.ids.length - 1 := List.length_tail
  have positive := rows.nonempty
  have bound : acceptedDrafts rows.drafts rows.targets ≤ rows.drafts.length :=
    acceptedDrafts_le _ _
  have span : offset (batch.members.map VerifyRows.ids) req + rows.ids.length -
      offset (batch.members.map VerifyRows.ids) req - 1 = rows.ids.length - 1 := by omega
  have loop := kernel_loop_invariant at_req uninitialised fits (rows.ids.length - 1) (by omega)
  refine ⟨_, loop, ?_, ?_⟩
  · rw [loop.accepted]
    omega
  · simp only [greedyVerifyProgram, cu_start at_req, cu_stop at_req, span]

/-- The kernel program counts its accepted drafts and one more token. -/
theorem program_count (at_req : batch.members[req]? = some rows) (uninitialised : List Int)
    (fits : rows.ids.length ≤ uninitialised.length) :
    (greedyVerifyProgram batch.target batch.draft batch.cu req uninitialised).2 =
      acceptedDrafts rows.drafts rows.targets + 1 := by
  obtain ⟨last, _, count, program⟩ := program_last at_req uninitialised fits
  rw [program, count]

/-- The kernel program of a request commits its targets up to and including the
first missed draft, whatever its output buffer held before. -/
theorem program_commits (at_req : batch.members[req]? = some rows) (uninitialised : List Int)
    (fits : rows.ids.length ≤ uninitialised.length) :
    (greedyVerifyProgram batch.target batch.draft batch.cu req uninitialised).1.take
        (greedyVerifyProgram batch.target batch.draft batch.cu req uninitialised).2 =
      rows.commits := by
  have drafts_length : rows.drafts.length = rows.ids.length - 1 := List.length_tail
  have positive := rows.nonempty
  have bound : acceptedDrafts rows.drafts rows.targets ≤ rows.drafts.length :=
    acceptedDrafts_le _ _
  obtain ⟨last, loop, count, program⟩ := program_last at_req uninitialised fits
  rw [program]
  have bonus := target_read at_req (rows.ids.length - 1) (by omega)
  apply List.ext_getElem?
  intro col
  simp only [VerifyRows.commits, List.getElem?_take, count]
  split
  · rename_i counted
    have valued : rows.targets[col]? = some (rows.targets.getD col 0) := by
      rw [List.getD_eq_getElem?_getD, List.getElem?_eq_getElem (by rw [rows.same_length]; omega),
        Option.getD_some]
    have room : col < last.sampled.length := by rw [loop.room_kept]; omega
    have kept : col < rows.ids.length - 1 →
        last.sampled[col]? = some (rows.targets.getD col 0) := by
      intro early
      have stored := loop.stored col early (by omega)
      rw [List.getD_eq_getElem?_getD, List.getElem?_eq_getElem room, Option.getD_some] at stored
      rw [List.getElem?_eq_getElem room, stored]
    rw [valued]
    split
    · rename_i all
      by_cases lastRow : col = rows.ids.length - 1
      · subst lastRow
        rw [List.getElem?_set_self room, bonus]
      · rw [List.getElem?_set_ne (Ne.symm lastRow)]
        exact kept (by omega)
    · rename_i some_missed
      exact kept (by omega)
  · rfl

/-- Both implementations commit the same tokens for every request of the batch:
its targets up to and including the first missed draft. Nothing of any other
request enters. -/
theorem greedy_verify_commits (backend : Backend) (at_req : batch.members[req]? = some rows) :
    committed (greedyVerify backend batch.target batch.draft batch.cu batch.members.length width)
      req = rows.commits := by
  obtain ⟨inside, member⟩ := List.getElem?_eq_some_iff.mp at_req
  cases backend with
  | torch => exact torch_commits at_req
  | kernel uninitialised =>
    have fits : rows.ids.length ≤ width := batch.fits rows (List.mem_of_getElem? at_req)
    have program := program_commits at_req
      ((List.range width).map fun col => (uninitialised req).getD col 0) (by simpa using fits)
    simpa [committed, greedyVerify, List.getElem?_range inside] using program

/-- Both implementations count the accepted drafts and one more token. -/
theorem greedy_verify_count (backend : Backend) (at_req : batch.members[req]? = some rows) :
    (greedyVerify backend batch.target batch.draft batch.cu batch.members.length width).2.getD
      req 0 = acceptedDrafts rows.drafts rows.targets + 1 := by
  obtain ⟨inside, member⟩ := List.getElem?_eq_some_iff.mp at_req
  have fits : rows.ids.length ≤ width := batch.fits rows (List.mem_of_getElem? at_req)
  cases backend with
  | torch =>
    have counts := batch.counts
    have whole : batch.cu.take (batch.members.length + 1) = batch.cu :=
      List.take_of_length_le (by simp [VerifyBatch.cu])
    have count := firstMiss_eq at_req (show rows.ids.length ≤ big by unfold big; omega)
    simp [greedyVerify, greedyVerifyTorch, whole, List.getElem?_range inside, count]
  | kernel uninitialised =>
    have program := program_count at_req
      ((List.range width).map fun col => (uninitialised req).getD col 0) (by simpa using fits)
    simpa [greedyVerify, List.getElem?_range inside] using program

end Flat

end GlmSpark.GreedyVerify
