import GlmSpark.VerifyCut
import GlmSpark.GreedyVerify

/-!
# The verify cut commits a leading part

A batch of the verify step: every request has its query rows, the last of which are logits
rows; a request with drafts has its anchor row and the drafts and nothing else. The rows the
map of the verify cut marks dead are the drafts past the live ones of their request. The
rejection sampler sees the id `-1` at these rows, so greedy verification stops there.
-/

namespace GlmSpark.VerifyCut

open GreedyVerify Launch Ragged

/-- The query rows of a request: the input ids, and the targets of its logits rows, which are
the last ones. -/
structure Member where
  ids : List ℤ
  targets : List ℤ
  slot : ℕ
  checked : 0 < targets.length
  last : targets.length ≤ ids.length
  drafted : 1 < targets.length → ids.length = targets.length

/-- The number of drafts. -/
def Member.drafts (member : Member) : ℕ := member.targets.length - 1

/-- A batch whose logits rows fit the sampled buffer, whose counts fit an int32. -/
structure Batch (width : ℕ) where
  members : List Member
  fits : ∀ member ∈ members, member.targets.length ≤ width
  counts : width < 2 ^ 31

namespace Batch

variable {width : ℕ} (batch : Batch width)

/-- The input ids, by request. -/
def idRows : List (List ℤ) := batch.members.map Member.ids

/-- The targets, by request. -/
def targetRows : List (List ℤ) := batch.members.map Member.targets

/-- `num_tokens`. -/
def numTokens : ℕ := batch.idRows.flatten.length

/-- `num_draft_tokens`. -/
def numDraftTokens : ℕ := (batch.members.map Member.drafts).sum

/-- `query_start_loc`, `cu_num_logits`, `idx_mapping` and the live lengths by slot. -/
def inputs (live : ℕ → ℕ) : Inputs where
  qsl i := offset batch.idRows i
  cu i := offset batch.targetRows i
  idx r := ((batch.members[r]?.map Member.slot).getD 0 : ℕ)
  live slot := live slot.toNat

/-- `logits_indices`: the last rows of every query span. -/
def logitsRows : List ℕ :=
  batch.members.zipIdx.flatMap fun (member, r) =>
    List.range' (offset batch.idRows r + (member.ids.length - member.targets.length))
      member.targets.length

end Batch

/-- `ids[logits_indices]`: the ids of the rows that have logits. -/
def gather (ids : List ℤ) (rows : List ℕ) : List ℤ := rows.map fun row => ids.getD row 0

/-- `ids[:n].masked_fill_(dead[:n], -1)`: dead rows become placeholders that no target equals. -/
def maskedFill (ids : List ℤ) (dead : List Bool) : List ℤ :=
  ids.zipWith (fun id masked => if masked then -1 else id) dead

/-- The ids the rejection sampler is called with: `__call__` of the hook. -/
def rejectionIds (maxTokens numDraftTokens : ℕ) (ids : List ℤ) (dead : List Bool) : List ℤ :=
  if numDraftTokens = 0 ∨ ids.length > maxTokens then ids else maskedFill ids dead

/-- The draft ids of the greedy fast path, masked after they were gathered. -/
def fastDraft (ids : List ℤ) (dead : List Bool) (rows : List ℕ) : List ℤ :=
  maskedFill (gather ids rows) (rows.map fun row => dead.getD row false)

/-- The rows of the drafts of a request past its live ones. -/
def Batch.Dead {width : ℕ} (batch : Batch width) (live : ℕ → ℕ) (r row : ℕ) : Prop :=
  ∃ member, batch.members[r]? = some member ∧ ∃ j, row = offset batch.idRows r + j ∧
    min (live member.slot) member.drafts < j ∧ j ≤ member.drafts

section Spans

variable {width : ℕ} {batch : Batch width} {r : ℕ} {member : Member}

/-- The span of a request in the query rows. -/
theorem idRows_succ (present : batch.members[r]? = some member) :
    offset batch.idRows (r + 1) = offset batch.idRows r + member.ids.length := by
  obtain ⟨inside, rfl⟩ := List.getElem?_eq_some_iff.mp present
  rw [offset_succ _ _ (by simpa [Batch.idRows] using inside)]
  simp [Batch.idRows]

/-- The span of a request in the logits rows. -/
theorem targetRows_succ (present : batch.members[r]? = some member) :
    offset batch.targetRows (r + 1) = offset batch.targetRows r + member.targets.length := by
  obtain ⟨inside, rfl⟩ := List.getElem?_eq_some_iff.mp present
  rw [offset_succ _ _ (by simpa [Batch.targetRows] using inside)]
  simp [Batch.targetRows]

/-- The spans of the requests lie within the tokens of the step, padding behind them. -/
theorem idRows_le (batch : Batch width) (r : ℕ) (inside : r ≤ batch.members.length) :
    offset batch.idRows r ≤ batch.numTokens := by
  have length : batch.idRows.length = batch.members.length := List.length_map ..
  rw [Batch.numTokens, ← offset_length, length]
  exact offset_mono _ inside

/-- The draft rows of a request lie in its span. -/
theorem Member.drafts_lt (member : Member) {j : ℕ} (draft : j ≤ member.drafts) :
    j < member.ids.length := by
  have checked := member.checked
  have last := member.last
  rw [Member.drafts] at draft
  omega

/-- A row belongs to one request only: the spans of the requests do not overlap. -/
theorem span_unique {r other row : ℕ} (start : offset batch.idRows r ≤ row)
    (stop : row < offset batch.idRows (r + 1)) (start' : offset batch.idRows other ≤ row)
    (stop' : row < offset batch.idRows (other + 1)) : other = r := by
  by_contra different
  rcases Nat.lt_or_gt_of_ne different with before | after
  · have ordered := offset_mono batch.idRows (Nat.succ_le_of_lt before)
    exact absurd (stop'.trans_le (ordered.trans start)) (lt_irrefl _)
  · have ordered := offset_mono batch.idRows (Nat.succ_le_of_lt after)
    exact absurd (stop.trans_le (ordered.trans start')) (lt_irrefl _)

variable {live : ℕ → ℕ} {row : ℕ}

/-- Dead rows come after the anchor of their request and before its end. -/
theorem Batch.Dead.span (dead : batch.Dead live r row) : r < batch.members.length ∧
    offset batch.idRows r < row ∧ row < offset batch.idRows (r + 1) := by
  obtain ⟨member, present, j, rfl, past, draft⟩ := dead
  have inside := member.drafts_lt draft
  rw [idRows_succ present]
  exact ⟨(List.getElem?_eq_some_iff.mp present).1, by omega, by omega⟩

/-- A dead row is of one request. -/
theorem Batch.Dead.unique {other : ℕ} (dead : batch.Dead live r row)
    (also : batch.Dead live other row) : other = r :=
  span_unique dead.span.2.1.le dead.span.2.2 also.span.2.1.le also.span.2.2

/-- The rows a request cuts are its dead ones. -/
theorem cuts_iff (inside : r < batch.members.length) :
    (batch.inputs live).cuts r row = true ↔ batch.Dead live r row := by
  have present := List.getElem?_eq_getElem inside
  have checked := batch.members[r].checked
  have drafted := batch.members[r].drafted
  have span := idRows_succ present
  have logits := targetRows_succ present
  have drafts : (batch.inputs live).nd r = (batch.members[r].drafts : ℤ) := by
    rw [Inputs.nd, Member.drafts]
    simp only [Batch.inputs]
    omega
  have lengths : (batch.inputs live).lv r =
      (min (live batch.members[r].slot) batch.members[r].drafts : ℕ) := by
    rw [Inputs.lv, drafts]
    simp only [Batch.inputs, present, Option.map_some, Option.getD_some, Int.toNat_natCast]
    omega
  rw [Inputs.cuts, cut, decide_eq_true_iff, drafts, lengths]
  simp only [Batch.inputs, span]
  constructor
  · rintro ⟨_, one, upper, past⟩
    exact ⟨_, present, row - offset batch.idRows r, by omega, by omega, by omega⟩
  · rintro ⟨member, same, j, rfl, past, upper⟩
    obtain rfl : batch.members[r] = member := Option.some_inj.mp (present.symm.trans same)
    have below := Member.drafts_lt _ upper
    omega

end Spans

section Map

variable {width : ℕ} (batch : Batch width) (live : ℕ → ℕ)

/-- The vectors of the map. -/
def Batch.rowMap : Lanes := (batch.inputs live).rows batch.members.length batch.numTokens

variable {batch live}

/-- A dead row has the anchor of its request as its source. -/
theorem rowMap_dead {r row : ℕ} (dead : batch.Dead live r row) :
    (batch.rowMap live).src row = offset batch.idRows r ∧ (batch.rowMap live).dead row = true := by
  have inside := dead.span.1
  refine foldl_turn_cut _ _ _ r row (List.mem_range.mpr inside) ((cuts_iff inside).mpr dead) ?_
  intro other listed cutting
  exact dead.unique ((cuts_iff (List.mem_range.mp listed)).mp cutting)

/-- Any other row is its own source, or a padding row. -/
theorem rowMap_alive {row : ℕ} (alive : ∀ r, ¬ batch.Dead live r row) :
    (batch.rowMap live).src row = (if row < batch.numTokens then row else 0 : ℕ) ∧
      (batch.rowMap live).dead row = false := by
  have quiet : ∀ r ∈ List.range batch.members.length, (batch.inputs live).cuts r row = false := by
    intro r listed
    by_contra cutting
    exact alive r ((cuts_iff (List.mem_range.mp listed)).mp (Bool.of_not_eq_false cutting))
  obtain ⟨src, dead⟩ := foldl_turn_quiet (batch.inputs live) (.initial batch.numTokens) _ row quiet
  rw [Batch.rowMap, Inputs.rows, src, dead]
  refine ⟨?_, decide_eq_false (Int.not_lt.mpr (Int.natCast_nonneg row))⟩
  simp only [Lanes.initial]
  split <;> rfl

/-- The rows marked dead are exactly the draft rows of some request past its live ones. -/
theorem rowMap_dead_iff (row : ℕ) :
    (batch.rowMap live).dead row = true ↔ ∃ r, batch.Dead live r row := by
  constructor
  · intro flagged
    by_contra alive
    rw [(rowMap_alive (not_exists.mp alive)).2] at flagged
    exact nomatch flagged
  · rintro ⟨r, dead⟩
    exact (rowMap_dead dead).2

/-- The first row of a request is never dead: at least its own token is verified. -/
theorem anchor_alive {r : ℕ} (inside : r < batch.members.length) (other : ℕ) :
    ¬ batch.Dead live other (offset batch.idRows r) := by
  intro dead
  have present := List.getElem?_eq_getElem inside
  have span := idRows_succ present
  have checked := batch.members[r].checked
  have last := batch.members[r].last
  obtain rfl : other = r :=
    span_unique le_rfl (by omega) dead.span.2.1.le dead.span.2.2
  exact absurd dead.span.2.1 (lt_irrefl _)

/-- The first row of a request is its own source, so what dead rows are sent to is real. -/
theorem rowMap_anchor {r : ℕ} (inside : r < batch.members.length) :
    (batch.rowMap live).src (offset batch.idRows r) = offset batch.idRows r := by
  have present := List.getElem?_eq_getElem inside
  have span := idRows_succ present
  have checked := batch.members[r].checked
  have last := batch.members[r].last
  have within := idRows_le batch (r + 1) inside
  rw [(rowMap_alive (anchor_alive inside)).1, if_pos (by omega)]

/-- The source of a row is a row before it, and its own source. -/
theorem rowMap_source (batch : Batch width) (live : ℕ → ℕ) (row : ℕ) :
    ∃ source ≤ row, (batch.rowMap live).src row = (source : ℕ) ∧
      (batch.rowMap live).src source = (source : ℕ) := by
  by_cases dead : ∃ r, batch.Dead live r row
  · obtain ⟨r, dead⟩ := dead
    exact ⟨_, dead.span.2.1.le, (rowMap_dead dead).1, rowMap_anchor dead.span.1⟩
  · have alive := not_exists.mp dead
    by_cases inside : row < batch.numTokens
    · have own : (batch.rowMap live).src row = (row : ℕ) := by
        rw [(rowMap_alive alive).1, if_pos inside]
      exact ⟨row, le_rfl, own, own⟩
    · have first : ∀ r, ¬ batch.Dead live r 0 := by
        intro r dead
        exact absurd dead.span.2.1 (Nat.not_lt_zero _)
      refine ⟨0, Nat.zero_le _, ?_, ?_⟩
      · rw [(rowMap_alive alive).1, if_neg inside]
      · rw [(rowMap_alive first).1]
        split <;> rfl

/-- The reference in Python computes the same map, for any padding. -/
theorem rowsReference_rowMap {nPad : ℕ} (room : batch.numTokens ≤ nPad) :
    rowsReference (batch.inputs live) batch.members.length batch.numTokens nPad =
      some ((batch.rowMap live).lists nPad) := by
  refine rowsReference_lists (fun r _ => Int.natCast_nonneg _) ?_ ?_
  · intro r inside
    have within := (idRows_le batch (r + 1) inside).trans room
    exact Int.ofNat_le.mpr within
  · intro r inside
    have logits := targetRows_succ (List.getElem?_eq_getElem inside)
    have checked := batch.members[r].checked
    simp only [Inputs.lv, Inputs.nd, Batch.inputs]
    omega

end Map

section Masking

/-- Masked from some draft on, the drafts are accepted up to there. -/
theorem acceptedDrafts_masked (drafts targets : List ℤ) (live : ℕ) :
    acceptedDrafts (drafts.take live ++ List.replicate (drafts.length - live) (-1)) targets =
      min live (acceptedDrafts drafts targets) := by
  induction drafts generalizing targets live with
  | nil => simp [acceptedDrafts]
  | cons d ds ih =>
    cases targets with
    | nil => cases live <;> simp [acceptedDrafts, List.replicate_succ]
    | cons t ts =>
      cases live with
      | zero =>
        have placeholder : ¬ ((-1 : ℤ) = t ∧ (0 : ℤ) ≤ -1) := fun both => absurd both.2 (by decide)
        rw [List.take_zero, List.nil_append, List.length_cons, Nat.sub_zero, List.replicate_succ,
          acceptedDrafts_miss placeholder, Nat.zero_min]
      | succ live =>
        rw [List.take_succ_cons, List.cons_append, List.length_cons, Nat.add_sub_add_right]
        by_cases ok : d = t ∧ 0 ≤ d
        · rw [acceptedDrafts_hit ok, acceptedDrafts_hit ok, ih ts live, Nat.add_min_add_right]
        · rw [acceptedDrafts_miss ok, acceptedDrafts_miss ok, Nat.min_zero]

/-- The ids of the logits rows of a request. -/
def Member.logitsIds (member : Member) : List ℤ :=
  member.ids.drop (member.ids.length - member.targets.length)

/-- The same with the drafts past the live ones masked. -/
def Member.maskedIds (member : Member) (live : ℕ) : List ℤ :=
  member.logitsIds.take (live + 1) ++ List.replicate (member.targets.length - (live + 1)) (-1)

variable (member : Member) (live : ℕ)

/-- A member has an id for each of its target rows. -/
theorem Member.logitsIds_length : member.logitsIds.length = member.targets.length := by
  have last := member.last
  rw [Member.logitsIds, List.length_drop]
  omega

/-- Masking replaces ids by placeholders and drops none. -/
theorem Member.maskedIds_length : (member.maskedIds live).length = member.targets.length := by
  rw [Member.maskedIds, List.length_append, List.length_take, List.length_replicate,
    member.logitsIds_length]
  omega

/-- The logits rows of a request. -/
def Member.rows : VerifyRows where
  ids := member.logitsIds
  targets := member.targets
  same_length := member.logitsIds_length.symm
  nonempty := by rw [member.logitsIds_length]; exact member.checked

/-- The logits rows of a request after masking. -/
def Member.maskedRows : VerifyRows where
  ids := member.maskedIds live
  targets := member.targets
  same_length := (member.maskedIds_length live).symm
  nonempty := by rw [member.maskedIds_length live]; exact member.checked

/-- After masking, a request commits the leading tokens of what it would have committed. -/
theorem maskedRows_commits :
    (member.maskedRows live).commits = member.rows.commits.take (live + 1) := by
  have drafts : (member.maskedRows live).drafts = member.rows.drafts.take live ++
      List.replicate (member.rows.drafts.length - live) (-1) := by
    have length := member.logitsIds_length
    have checked := member.checked
    simp only [VerifyRows.drafts, Member.maskedRows, Member.rows, Member.maskedIds]
    cases split : member.logitsIds with
    | nil =>
      rw [split, List.length_nil] at length
      omega
    | cons first rest =>
      rw [split, List.length_cons] at length
      rw [← length, List.take_succ_cons, List.cons_append, List.tail_cons, List.tail_cons,
        Nat.add_sub_add_right]
  rw [VerifyRows.commits, VerifyRows.commits, drafts, acceptedDrafts_masked, List.take_take]
  exact congrArg (fun count => member.targets.take count) (Nat.add_min_add_right ..).symm

end Masking

section Gathering

variable {width : ℕ} (batch : Batch width) (live : ℕ → ℕ)

/-- The logits rows of the batch. -/
def Batch.verify : VerifyBatch width where
  members := batch.members.map Member.rows
  fits := by
    intro rows listed
    obtain ⟨member, present, rfl⟩ := List.mem_map.mp listed
    exact member.logitsIds_length.trans_le (batch.fits member present)
  counts := batch.counts

/-- The logits rows of the batch after masking. -/
def Batch.maskedVerify : VerifyBatch width where
  members := batch.members.map fun member => member.maskedRows (live member.slot)
  fits := by
    intro rows listed
    obtain ⟨member, present, rfl⟩ := List.mem_map.mp listed
    exact (member.maskedIds_length _).trans_le (batch.fits member present)
  counts := batch.counts

/-- `target` of the batch. -/
def Batch.target : List ℤ := batch.targetRows.flatten

/-- `cu_num_logits` of the batch. -/
def Batch.cu : List ℕ := offsets batch.targetRows

variable {batch live}

/-- The batch to verify has the targets of the batch it came from. -/
theorem verify_target : batch.verify.target = batch.target := by
  simp [VerifyBatch.target, Batch.verify, Batch.target, Batch.targetRows, Function.comp_def,
    Member.rows]

/-- Masking drafts leaves the targets alone. -/
theorem maskedVerify_target : (batch.maskedVerify live).target = batch.target := by
  simp [VerifyBatch.target, Batch.maskedVerify, Batch.target, Batch.targetRows, Function.comp_def,
    Member.maskedRows]

/-- Cumulative counts only depend on the lengths. -/
theorem offsets_of_lengths {α β : Type*} (rows : List (List α)) (others : List (List β))
    (lengths : rows.map List.length = others.map List.length) : offsets rows = offsets others := by
  have count : rows.length = others.length := by simpa using congrArg List.length lengths
  rw [offsets, offsets, count]
  exact List.map_congr_left fun r _ => offset_of_lengths rows others lengths r

/-- The batch to verify has the bounds of the batch it came from. -/
theorem verify_cu : batch.verify.cu = batch.cu := by
  refine offsets_of_lengths _ _ ?_
  simp [Batch.verify, Batch.targetRows, Function.comp_def, Member.rows, Member.logitsIds_length]

/-- Masking leaves the bounds alone too, so every request is still read from its own rows. -/
theorem maskedVerify_cu : (batch.maskedVerify live).cu = batch.cu := by
  refine offsets_of_lengths _ _ ?_
  simp [Batch.maskedVerify, Batch.targetRows, Function.comp_def, Member.maskedRows,
    Member.maskedIds_length]

/-- Gathering the logits rows takes the batch apart by request. -/
theorem gather_logitsRows (batch : Batch width) (ids : List ℤ) (part : Member → List ℤ)
    (read : ∀ r member, batch.members[r]? = some member →
      (List.range' (offset batch.idRows r + (member.ids.length - member.targets.length))
        member.targets.length).map (fun row => ids.getD row 0) = part member) :
    gather ids batch.logitsRows = (batch.members.map part).flatten := by
  rw [gather, Batch.logitsRows, List.map_flatMap, ← List.flatMap_def]
  have parts : batch.members.flatMap part =
      batch.members.zipIdx.flatMap fun pair => part pair.1 := by
    conv_lhs => rw [← List.zipIdx_map_fst 0 batch.members, List.flatMap_map]
  rw [parts]
  refine List.flatMap_congr fun pair listed => ?_
  exact read pair.2 pair.1 (List.mem_zipIdx_iff_getElem?.mp listed)

/-- A token of a request, in the ids of the batch. -/
theorem ids_read {r : ℕ} {member : Member} (present : batch.members[r]? = some member) (j : ℕ)
    (inside : j < member.ids.length) :
    batch.idRows.flatten[offset batch.idRows r + j]? = some member.ids[j] := by
  obtain ⟨bounded, rfl⟩ := List.getElem?_eq_some_iff.mp present
  have read := flatten_getElem? batch.idRows r j (by simpa [Batch.idRows] using bounded)
    (by simpa [Batch.idRows] using inside)
  rw [read]
  simp [Batch.idRows]

/-- The gathered ids are the ids of the logits rows. -/
theorem gather_ids : gather batch.idRows.flatten batch.logitsRows = batch.verify.draft := by
  have split := gather_logitsRows batch batch.idRows.flatten Member.logitsIds
    (fun r member present => ?_)
  · rw [split, VerifyBatch.draft, Batch.verify, List.map_map]
    rfl
  · have last := member.last
    apply List.ext_getElem?
    intro i
    rw [List.getElem?_map, Member.logitsIds, List.getElem?_drop]
    by_cases inside : i < member.targets.length
    · have read := ids_read present (member.ids.length - member.targets.length + i) (by omega)
      rw [List.getElem?_range' inside, Option.map_some, List.getD_eq_getElem?_getD, Nat.one_mul,
        Nat.add_assoc, read, List.getElem?_eq_getElem (by omega)]
      rfl
    · rw [List.getElem?_eq_none (by simpa using inside),
        List.getElem?_eq_none (by omega), Option.map_none]

/-- A logits row is dead if it is past the live drafts. -/
theorem logits_dead {r : ℕ} {member : Member} (present : batch.members[r]? = some member) (i : ℕ)
    (inside : i < member.targets.length) :
    (batch.rowMap live).dead
        (offset batch.idRows r + (member.ids.length - member.targets.length + i)) = true ↔
      live member.slot < i := by
  have last := member.last
  have span := idRows_succ present
  rw [rowMap_dead_iff]
  constructor
  · rintro ⟨other, dead⟩
    obtain rfl : other = r :=
      span_unique (by omega) (by omega) dead.span.2.1.le dead.span.2.2
    obtain ⟨same, present', j, row, past, draft⟩ := dead
    obtain rfl : member = same := Option.some_inj.mp (present.symm.trans present')
    have drafted := member.drafted
    rw [Member.drafts] at past draft
    omega
  · intro past
    have drafted := member.drafted (by omega)
    refine ⟨r, member, present, i, by omega, ?_, ?_⟩
    · rw [Member.drafts]
      omega
    · rw [Member.drafts]
      omega

/-- Masking reads id and flag of a row. -/
theorem maskedFill_read {ids : List ℤ} {dead : List Bool} {row : ℕ} {id : ℤ} {flag : Bool}
    (stored : ids[row]? = some id) (flagged : dead[row]? = some flag) :
    (maskedFill ids dead)[row]? = some (if flag then -1 else id) := by
  rw [maskedFill, List.getElem?_zipWith, stored, flagged]

/-- The list of flags holds each row's flag at its place. -/
theorem lists_dead (lanes : Lanes) {nPad row : ℕ} (inside : row < nPad) :
    (lanes.lists nPad).2[row]? = some (lanes.dead row) := by
  rw [Lanes.lists, List.getElem?_map, List.getElem?_range inside, Option.map_some]

/-- The list of sources holds each row's source at its place. -/
theorem lists_src (lanes : Lanes) {nPad row : ℕ} (inside : row < nPad) :
    (lanes.lists nPad).1[row]? = some (lanes.src row) := by
  rw [Lanes.lists, List.getElem?_map, List.getElem?_range inside, Option.map_some]

/-- The ids gathered after masking are the masked ids of the logits rows. -/
theorem gather_masked {nPad : ℕ} (room : batch.numTokens ≤ nPad) :
    gather (maskedFill batch.idRows.flatten ((batch.rowMap live).lists nPad).2) batch.logitsRows =
      (batch.maskedVerify live).draft := by
  have split := gather_logitsRows batch
    (maskedFill batch.idRows.flatten ((batch.rowMap live).lists nPad).2)
    (fun member => member.maskedIds (live member.slot)) (fun r member present => ?_)
  · rw [split, VerifyBatch.draft, Batch.maskedVerify, List.map_map]
    rfl
  · have last := member.last
    have length := member.logitsIds_length
    apply List.ext_getElem?
    intro i
    rw [List.getElem?_map]
    by_cases inside : i < member.targets.length
    · have stored := ids_read present (member.ids.length - member.targets.length + i) (by omega)
      have below := (List.getElem?_eq_some_iff.mp stored).1
      have flagged := lists_dead (batch.rowMap live) (below.trans_le room)
      have read := maskedFill_read stored flagged
      rw [List.getElem?_range' inside, Option.map_some, List.getD_eq_getElem?_getD, Nat.one_mul,
        Nat.add_assoc, read, Option.getD_some, Member.maskedIds]
      by_cases past : live member.slot < i
      · rw [if_pos ((logits_dead present i inside).mpr past), List.getElem?_append_right (by
          rw [List.length_take]; omega), List.getElem?_replicate, if_pos (by
          rw [List.length_take]; omega)]
      · rw [if_neg (mt (logits_dead present i inside).mp past), List.getElem?_append_left (by
          rw [List.length_take]; omega), List.getElem?_take_of_lt (by omega), Member.logitsIds,
          List.getElem?_drop, List.getElem?_eq_getElem]
    · rw [List.getElem?_eq_none (by simpa using inside), Option.map_none,
        List.getElem?_eq_none (by rw [member.maskedIds_length]; omega)]

/-- Masking after gathering, as the greedy fast path does it, is masking before it. -/
theorem fastDraft_eq {ids : List ℤ} {dead : List Bool} (rows : List ℕ)
    (inside : ∀ row ∈ rows, row < ids.length) (room : ids.length ≤ dead.length) :
    fastDraft ids dead rows = gather (maskedFill ids dead) rows := by
  rw [fastDraft, maskedFill, gather, List.zipWith_map, List.zipWith_self, gather]
  refine List.map_congr_left fun row listed => ?_
  have below := inside row listed
  have read := maskedFill_read (List.getElem?_eq_getElem below)
    (List.getElem?_eq_getElem (below.trans_le room))
  simp [List.getD_eq_getElem?_getD, read, below, below.trans_le room]

/-- Logits rows are rows of the batch. -/
theorem logitsRows_lt (row : ℕ) (listed : row ∈ batch.logitsRows) :
    row < batch.idRows.flatten.length := by
  obtain ⟨⟨member, r⟩, pair, owned⟩ := List.mem_flatMap.mp listed
  have present : batch.members[r]? = some member := List.mem_zipIdx_iff_getElem?.mp pair
  have last := member.last
  have span := idRows_succ present
  have within := idRows_le _ (r + 1) (List.getElem?_eq_some_iff.mp present).1
  rw [List.mem_range'_1] at owned
  rw [Batch.numTokens] at within
  omega

/-- The fast path checks the drafts the hook leaves. -/
theorem fastDraft_rows {nPad : ℕ} (room : batch.numTokens ≤ nPad) :
    fastDraft batch.idRows.flatten ((batch.rowMap live).lists nPad).2 batch.logitsRows =
      gather (maskedFill batch.idRows.flatten ((batch.rowMap live).lists nPad).2)
        batch.logitsRows := by
  refine fastDraft_eq _ logitsRows_lt ?_
  rw [Lanes.lists, List.length_map, List.length_range]
  exact room

/-- The hook masks the dead rows; without drafts there are none. -/
theorem rejectionIds_eq {nPad maxTokens : ℕ} (room : batch.numTokens ≤ nPad)
    (fits : batch.numTokens ≤ maxTokens) :
    rejectionIds maxTokens batch.numDraftTokens batch.idRows.flatten
        ((batch.rowMap live).lists nPad).2 =
      maskedFill batch.idRows.flatten ((batch.rowMap live).lists nPad).2 := by
  rw [rejectionIds]
  by_cases none : batch.numDraftTokens = 0
  · rw [if_pos (Or.inl none)]
    have alive : ∀ row r, ¬ batch.Dead live r row := by
      rintro row r ⟨member, present, j, rfl, past, draft⟩
      have empty := List.sum_eq_zero_iff_forall_eq_nat.mp none member.drafts
        (List.mem_map_of_mem (List.mem_of_getElem? present))
      omega
    apply List.ext_getElem?
    intro row
    by_cases inside : row < batch.idRows.flatten.length
    · have flagged := lists_dead (batch.rowMap live) (inside.trans_le room)
      have stored := List.getElem?_eq_getElem inside
      rw [maskedFill_read stored flagged, (rowMap_alive (alive row)).2, stored]
      rfl
    · rw [List.getElem?_eq_none (by omega), List.getElem?_eq_none]
      rw [maskedFill, List.length_zipWith]
      omega
  · rw [if_neg]
    rintro (zero | large)
    · exact none zero
    · exact absurd fits (Nat.not_le_of_lt large)

/-- With the dead rows masked, a request commits the leading tokens of what it would have
committed, and no other request enters. -/
theorem masked_commits (backend : Backend) {nPad r : ℕ} {member : Member}
    (room : batch.numTokens ≤ nPad) (present : batch.members[r]? = some member) :
    committed (greedyVerify backend batch.target
        (gather (maskedFill batch.idRows.flatten ((batch.rowMap live).lists nPad).2)
          batch.logitsRows) batch.cu batch.members.length width) r =
      (committed (greedyVerify backend batch.target (gather batch.idRows.flatten batch.logitsRows)
        batch.cu batch.members.length width) r).take (live member.slot + 1) := by
  have count : batch.members.length = batch.verify.members.length := (List.length_map ..).symm
  have maskedCount : batch.members.length = (batch.maskedVerify live).members.length :=
    (List.length_map ..).symm
  have here : batch.verify.members[r]? = some member.rows := by
    rw [Batch.verify, List.getElem?_map, present, Option.map_some]
  have maskedHere : (batch.maskedVerify live).members[r]? =
      some (member.maskedRows (live member.slot)) := by
    rw [Batch.maskedVerify, List.getElem?_map, present, Option.map_some]
  have stock := greedy_verify_commits backend here
  have masked := greedy_verify_commits backend maskedHere
  rw [verify_target, verify_cu, ← count] at stock
  rw [maskedVerify_target, maskedVerify_cu, ← maskedCount] at masked
  rw [gather_masked room, gather_ids, stock, masked, maskedRows_commits]

end Gathering

section Lossless

variable {width : ℕ} {batch : Batch width} {live : ℕ → ℕ} {nPad : ℕ}

/-- The kernel stores the map of the reference, however its programs are interleaved. -/
theorem launches_lists {block : ℕ} {memory final : Cell → ℤ} (positive : 0 < block)
    (holds : Holds (batch.inputs live) batch.members.length memory)
    (launch : Launches (launchRows block batch.members.length batch.numTokens nPad) memory final)
    (row : ℕ) (inside : row < nPad) :
    some (final (.rowSrc row)) = ((batch.rowMap live).lists nPad).1[row]? ∧
      some (final (.dead row)) =
        ((batch.rowMap live).lists nPad).2[row]?.map fun flag => if flag then 1 else 0 := by
  obtain ⟨src, dead⟩ := launchRows_map holds positive launch row inside
  rw [src, dead, lists_src _ inside, lists_dead _ inside]
  exact ⟨rfl, rfl⟩

/-- Dead rows are rows of the batch. -/
theorem Batch.Dead.lt {r row : ℕ} (dead : batch.Dead live r row) : row < batch.numTokens :=
  dead.span.2.2.trans_le (idRows_le _ (r + 1) dead.span.1)

/-- The flagged rows of the padded list are the dead rows; padding is not flagged. -/
theorem lists_dead_iff (room : batch.numTokens ≤ nPad) (row : ℕ) :
    ((batch.rowMap live).lists nPad).2[row]? = some true ↔ ∃ r, batch.Dead live r row := by
  by_cases inside : row < nPad
  · rw [← rowMap_dead_iff, lists_dead _ inside, Option.some_inj]
  · rw [List.getElem?_eq_none (by simpa [Lanes.lists] using inside)]
    constructor
    · exact fun impossible => absurd impossible.symm (Option.some_ne_none true)
    · rintro ⟨r, dead⟩
      exact absurd (dead.lt.trans_le room) inside

/-- Padding rows are sourced from row 0 and not flagged. -/
theorem lists_padding {row : ℕ} (padding : batch.numTokens ≤ row) (inside : row < nPad) :
    ((batch.rowMap live).lists nPad).1[row]? = some 0 ∧
      ((batch.rowMap live).lists nPad).2[row]? = some false := by
  have alive : ∀ r, ¬ batch.Dead live r row :=
    fun r dead => absurd dead.lt (Nat.not_lt_of_le padding)
  rw [lists_src _ inside, lists_dead _ inside, (rowMap_alive alive).1, (rowMap_alive alive).2,
    if_neg (Nat.not_lt_of_le padding)]
  exact ⟨rfl, rfl⟩

/-- A row of the batch that is not flagged is its own source. -/
theorem lists_own (room : batch.numTokens ≤ nPad) {row : ℕ} (token : row < batch.numTokens)
    (unflagged : ((batch.rowMap live).lists nPad).2[row]? = some false) :
    ((batch.rowMap live).lists nPad).1[row]? = some (row : ℤ) := by
  rw [lists_dead _ (token.trans_le room), Option.some_inj] at unflagged
  have alive : ∀ r, ¬ batch.Dead live r row := by
    intro r dead
    rw [(rowMap_dead dead).2] at unflagged
    exact nomatch unflagged
  rw [lists_src _ (token.trans_le room), (rowMap_alive alive).1, if_pos token]

/-- The source of a row is its own source. -/
theorem lists_idempotent {row : ℕ} {source : ℤ}
    (stored : ((batch.rowMap live).lists nPad).1[row]? = some source) :
    0 ≤ source ∧ ((batch.rowMap live).lists nPad).1[source.toNat]? = some source := by
  have inside : row < nPad := by
    simpa [Lanes.lists] using (List.getElem?_eq_some_iff.mp stored).1
  obtain ⟨earlier, before, own, fixed⟩ := rowMap_source batch live row
  rw [lists_src _ inside, Option.some_inj, own] at stored
  subst stored
  rw [Int.toNat_natCast, lists_src _ (before.trans_lt inside), fixed]
  exact ⟨Int.natCast_nonneg _, rfl⟩

/-- Kernel and reference write the same map; the dead rows of a request are its drafts past the
live ones and have the request's anchor as their source, padding rows have row 0, other rows
themselves, and sources are their own sources. With the dead rows masked, every request commits
the leading tokens of what it would have committed, one more than its live drafts at most. -/
theorem verify_cut_lossless (batch : Batch width) (live : ℕ → ℕ) (nPad : ℕ)
    (room : batch.numTokens ≤ nPad) :
    ∃ src dead, rowsReference (batch.inputs live) batch.members.length batch.numTokens nPad =
        some (src, dead) ∧
      src.length = nPad ∧ dead.length = nPad ∧
      (∀ block memory, 0 < block → Holds (batch.inputs live) batch.members.length memory →
        (∃ final, Launches (launchRows block batch.members.length batch.numTokens nPad) memory
          final) ∧
        ∀ final, Launches (launchRows block batch.members.length batch.numTokens nPad) memory
          final → ∀ row < nPad, some (final (.rowSrc row)) = src[row]? ∧
            some (final (.dead row)) = dead[row]?.map fun flag => if flag then 1 else 0) ∧
      (∀ row, dead[row]? = some true ↔ ∃ r, batch.Dead live r row) ∧
      (∀ r row, batch.Dead live r row → src[row]? = some (offset batch.idRows r : ℤ)) ∧
      (∀ row, batch.numTokens ≤ row → row < nPad → src[row]? = some 0 ∧ dead[row]? = some false) ∧
      (∀ row < batch.numTokens, dead[row]? = some false → src[row]? = some (row : ℤ)) ∧
      (∀ (row : ℕ) (source : ℤ), src[row]? = some source →
        0 ≤ source ∧ src[source.toNat]? = some source) ∧
      ∀ backend maxTokens r member, batch.numTokens ≤ maxTokens →
        batch.members[r]? = some member →
        let commits := fun draft => committed (greedyVerify backend batch.target draft batch.cu
          batch.members.length width) r
        let whole := commits (gather batch.idRows.flatten batch.logitsRows)
        let leading := whole.take (min whole.length (live member.slot + 1))
        commits (gather (rejectionIds maxTokens batch.numDraftTokens batch.idRows.flatten dead)
          batch.logitsRows) = leading ∧
          commits (fastDraft batch.idRows.flatten dead batch.logitsRows) = leading := by
  refine ⟨((batch.rowMap live).lists nPad).1, ((batch.rowMap live).lists nPad).2,
    rowsReference_rowMap room, by simp [Lanes.lists], by simp [Lanes.lists], ?_,
    lists_dead_iff room, ?_, fun row => lists_padding, fun row => lists_own room,
    fun row source => lists_idempotent, ?_⟩
  · intro block memory positive holds
    exact ⟨exists_launch _ _, fun final => launches_lists positive holds⟩
  · intro r row dead
    rw [lists_src _ (dead.lt.trans_le room), (rowMap_dead dead).1]
  · intro backend maxTokens r member fits present commits whole leading
    have masked : commits (gather (maskedFill batch.idRows.flatten
        ((batch.rowMap live).lists nPad).2) batch.logitsRows) = leading := by
      rw [show leading = whole.take (live member.slot + 1) by
        rw [List.take_eq_take_min, min_comm]]
      exact masked_commits backend room present
    rw [rejectionIds_eq room fits, fastDraft_rows room]
    exact ⟨masked, masked⟩

/-- A request with two drafts, and one with three prompt tokens. -/
def draftsAndPrompt : Batch 3 where
  members := [⟨[7, 8, 9], [8, 9, 4], 1, by decide, by decide, by decide⟩,
    ⟨[1, 2, 3], [5], 0, by decide, by decide, by decide⟩]
  fits := by decide
  counts := by decide

/-- With one live draft, the second draft is masked and two tokens are committed. -/
theorem verify_cut_lossless_two : ∃ src dead,
    rowsReference (draftsAndPrompt.inputs fun _ => 1) 2 6 8 = some (src, dead) ∧
      dead[2]? = some true ∧ src[2]? = some 0 ∧
      committed (greedyVerify .torch draftsAndPrompt.target
        (gather (rejectionIds 16 2 draftsAndPrompt.idRows.flatten dead) draftsAndPrompt.logitsRows)
        draftsAndPrompt.cu 2 3) 0 = [8, 9] := by
  obtain ⟨src, dead, reference, _, _, _, flagged, sourced, _, _, _, commits⟩ :=
    verify_cut_lossless draftsAndPrompt (fun _ => 1) 8 (by decide)
  have second : draftsAndPrompt.Dead (fun _ => 1) 0 2 := ⟨_, rfl, 2, by decide, by decide, by decide⟩
  refine ⟨src, dead, reference, (flagged 2).mpr ⟨0, second⟩, sourced 0 2 second, ?_⟩
  exact (commits .torch 16 0 _ (by decide) rfl).1.trans (by decide)

end Lossless

end GlmSpark.VerifyCut
