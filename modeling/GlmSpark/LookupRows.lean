import GlmSpark.Runs
import Mathlib.Data.Int.Bitwise
import Mathlib.Data.List.Basic
import Mathlib.Data.List.Count
import Mathlib.Data.Nat.Log

/-!
# Lookup rows on the host and on the device

A plan row names a source position, the committed length it was made at and a
draft length. The device checks that the tokens committed since continued the
copy and writes the draft; the host replays the check and the draft on its own
list. Modelled are the host functions of `glm_lookup_draft.py`, the reference of
`glm_lookup_hooks.py` and one program of its kernel with masked lanes.

A token read outside the list fails the whole function.
-/

namespace GlmSpark.LookupRows

open Runs (foldlM_some mapM_some)

/-- `tokens[i]`; an index outside the list fails. -/
def token (tokens : List ℤ) (i : ℤ) : Option ℤ := if 0 ≤ i then tokens[i.toNat]? else none

/-- `all(tokens[one + i] == tokens[other + i] for i in range(i, i + left))`, up to the first
difference. -/
def sameRun (tokens : List ℤ) (one other : ℤ) : ℕ → ℕ → Option Bool
  | 0, _ => some true
  | left + 1, i =>
    match token tokens (one + i), token tokens (other + i) with
    | some a, some b => if a = b then sameRun tokens one other left (i + 1) else some false
    | _, _ => none

/-- `replay_check`: whether the tokens committed since the plan continue its copy. -/
def replayCheck (tokens : List ℤ) (lDev src lhost maxDelta : ℤ) : Option Bool :=
  let delta := lDev - lhost
  if delta < 0 ∨ maxDelta < delta ∨ src < 0 ∨ lhost ≤ src ∨ tokens.length < lhost ∨
      tokens.length < lDev then
    some false
  else sameRun tokens lhost src delta.toNat 0

/-- One id of `lookup_draft`, or a hole. -/
def draftAt (tokens : List ℤ) (lDev src lhost : ℤ) (periodic : Bool) (j : ℕ) :
    Option (Option ℤ) :=
  let delta := lDev - lhost
  let period := lhost - src
  if periodic ∧ period = 0 then none
  else
    let pos := src + delta + (if periodic then (j : ℤ).fmod period else j)
    if pos < lDev then (token tokens pos).map some else some none

/-- `lookup_draft`: the ids a copy drafts, with placeholders where it ends; reads outside the buffer
raise. -/
def lookupDraft (tokens : List ℤ) (lDev src lhost k : ℤ) (periodic : Bool) :
    Option (List (Option ℤ)) :=
  (List.range k.toNat).mapM (draftAt tokens lDev src lhost periodic)

/-- `common_prefix`: how many leading draft ids are the committed tokens. -/
def commonPrefix (tokens : List ℤ) : List (Option ℤ) → ℕ → ℕ
  | some t :: draft, start =>
    if tokens[start]? = some t then commonPrefix tokens draft (start + 1) + 1 else 0
  | _, _ => 0

/-- The parameters a launch shares between its rows. -/
structure Launch where
  periodic : Bool
  maxDelta : ℤ
  xor : ℤ
  fill : Bool

/-- The position copied to draft index `j`. -/
def copied (launch : Launch) (src delta period : ℤ) (j : ℕ) : ℤ :=
  src + delta + (if launch.periodic then j % period else j)

/-- One id of the reference; the row and how many ids it got. -/
def writeId (tokens : List ℤ) (launch : Launch) (L src delta period : ℤ) (written : List ℤ × ℕ)
    (j : ℕ) : Option (List ℤ × ℕ) :=
  if copied launch src delta period j < L then
    (token tokens (copied launch src delta period j)).map fun t =>
      (written.1.set j (Int.xor t launch.xor), written.2 + 1)
  else some written

/-- A failed row of the test-only fill mode. -/
def fillId (tokens : List ℤ) (L : ℤ) (row : List ℤ) (j : ℕ) : Option (List ℤ) :=
  (token tokens (L - 1)).map fun t => row.set j t

/-- One row of `lookup_rows_reference`: the draft row and its status. -/
def referenceRow (launch : Launch) (tokens : List ℤ) (L src lhost k : ℤ) (row : List ℤ) :
    Option (List ℤ × ℕ) :=
  let delta := L - lhost
  if 0 < k then
    let ok := if 0 ≤ delta ∧ delta ≤ launch.maxDelta ∧ 0 ≤ src ∧ src < lhost ∧ lhost ≤ L then
      sameRun tokens lhost src delta.toNat 0 else some false
    match ok with
    | none => none
    | some true =>
      ((List.range (min k.toNat row.length)).foldlM
        (writeId tokens launch L src delta (max (lhost - src) 1)) (row, 0)).map fun written =>
          (written.1, 1 + written.2)
    | some false =>
      if launch.fill ∧ 0 < L then
        ((List.range (min k.toNat row.length)).foldlM (fillId tokens L) row).map fun row => (row, 0)
      else some (row, 0)
  else some (row, 0)

/-- `tl.load(base + position, mask=mask, other=0)` in one lane. -/
def masked (tokens : List ℤ) (mask : Bool) (position : ℤ) : Option ℤ :=
  if mask then token tokens position else some 0

/-- `tl.store(draft + j, value, mask=mask)` over the lanes of a block. -/
def storeLanes (mask : ℕ → Bool) (values : List ℤ) (row : List ℤ) : List ℤ :=
  (List.range values.length).foldl
    (fun row j => if mask j then row.set j (values.getD j 0) else row) row

/-- `triton.next_power_of_2`. -/
def nextPowerOf2 (n : ℕ) : ℕ := 2 ^ Nat.clog 2 n

/-- The row is well formed: `ok` before the tokens are compared. -/
def wellFormed (launch : Launch) (L src lhost k : ℤ) : Bool :=
  0 < k ∧ 0 ≤ L - lhost ∧ L - lhost ≤ launch.maxDelta ∧ 0 ≤ src ∧ src < lhost ∧ lhost ≤ L

/-- Number of lanes below `delta` whose tokens differ. -/
def badLanes (delta : ℤ) (ok : Bool) (a c : List ℤ) : ℕ :=
  (List.range a.length).countP fun (o : ℕ) => ok ∧ (o : ℤ) < delta ∧ a.getD o 0 ≠ c.getD o 0

/-- The lanes of the draft that are written. -/
def validLane (launch : Launch) (L src delta period k : ℤ) (ok : Bool) (j : ℕ) : Bool :=
  ok ∧ j < k ∧ copied launch src delta period j < L

/-- `_lookup_draft_kernel` from where `ok` is known: the draft row and its status. -/
def kernelStores (launch : Launch) (tokens : List ℤ) (L src lhost k : ℤ) (row : List ℤ)
    (ok : Bool) : Option (List ℤ × ℕ) :=
  let valid := validLane launch L src (L - lhost) (max (lhost - src) 1) k ok
  let lanes := List.range (nextPowerOf2 (max row.length 1))
  let doFill : Bool := launch.fill ∧ 0 < k ∧ ok = false ∧ 0 < L
  do
    let t ← lanes.mapM fun j =>
      masked tokens (valid j) (copied launch src (L - lhost) (max (lhost - src) 1) j)
    let row := storeLanes valid (t.map (Int.xor · launch.xor)) row
    let last ← masked tokens doFill (max (L - 1) 0)
    let row := storeLanes (fun j => doFill ∧ j < k) (lanes.map fun _ => last) row
    return (row, if ok then 1 + lanes.countP valid else 0)

/-- `_lookup_draft_kernel`, one program: check the copy on the device, then write the row's ids and
its status. -/
def kernelRow (launch : Launch) (tokens : List ℤ) (L src lhost k : ℤ) (row : List ℤ) :
    Option (List ℤ × ℕ) :=
  let k := min k row.length
  let delta := L - lhost
  let ok := wellFormed launch L src lhost k
  let offs := List.range (nextPowerOf2 (max launch.maxDelta 1).toNat)
  do
    let a ← offs.mapM fun (o : ℕ) => masked tokens (ok ∧ (o : ℤ) < delta) (lhost + (o : ℤ))
    let c ← offs.mapM fun (o : ℕ) => masked tokens (ok ∧ (o : ℤ) < delta) (src + (o : ℤ))
    kernelStores launch tokens L src lhost k row (ok && badLanes delta ok a c = 0)

/-- A token that is known to be there. -/
def tok (tokens : List ℤ) (i : ℤ) : ℤ := tokens.getD i.toNat 0

/-- The tokens committed since the plan continued the copy, within the window. -/
def Continues (tokens : List ℤ) (L src lhost maxDelta : ℤ) : Prop :=
  (0 ≤ L - lhost ∧ L - lhost ≤ maxDelta ∧ 0 ≤ src ∧ src < lhost) ∧
    ∀ i < (L - lhost).toNat, tok tokens (lhost + i) = tok tokens (src + i)

/-- Whether the tokens since a plan continue its copy is decided by comparing them. -/
instance (tokens : List ℤ) (L src lhost maxDelta : ℤ) :
    Decidable (Continues tokens L src lhost maxDelta) := by
  unfold Continues; infer_instance

/-- What a draft row and its status become. -/
def rowResult (launch : Launch) (tokens : List ℤ) (L src lhost k : ℤ) (row : List ℤ) :
    List ℤ × ℕ :=
  let position := copied launch src (L - lhost) (max (lhost - src) 1)
  let width := min k.toNat row.length
  if Continues tokens L src lhost launch.maxDelta ∧ 0 < k then
    (row.mapIdx fun j old => if j < width ∧ decide (position j < L) = true then
        Int.xor (tok tokens (position j)) launch.xor else old,
      1 + (List.range width).countP fun j => decide (position j < L))
  else if launch.fill = true ∧ 0 < L then
    (row.mapIdx fun j old => if j < width then tok tokens (L - 1) else old, 0)
  else (row, 0)

/-- A row whose copy went on gets ids. -/
theorem rowResult_valid {launch : Launch} {tokens : List ℤ} {L src lhost k : ℤ} (row : List ℤ)
    (valid : Continues tokens L src lhost launch.maxDelta ∧ 0 < k) :
    rowResult launch tokens L src lhost k row =
      (row.mapIdx fun j old => if j < min k.toNat row.length ∧
          decide (copied launch src (L - lhost) (max (lhost - src) 1) j < L) = true then
          Int.xor (tok tokens (copied launch src (L - lhost) (max (lhost - src) 1) j)) launch.xor
          else old,
        1 + (List.range (min k.toNat row.length)).countP fun j =>
          decide (copied launch src (L - lhost) (max (lhost - src) 1) j < L)) :=
  if_pos valid

/-- Any other row is left alone, or filled in the test mode. -/
theorem rowResult_failed {launch : Launch} {tokens : List ℤ} {L src lhost k : ℤ} (row : List ℤ)
    (failed : ¬ (Continues tokens L src lhost launch.maxDelta ∧ 0 < k)) :
    rowResult launch tokens L src lhost k row =
      if launch.fill = true ∧ 0 < L then
        (row.mapIdx fun j old => if j < min k.toNat row.length then tok tokens (L - 1) else old, 0)
      else (row, 0) :=
  if_neg failed

section Loops

/-- Storing at the masked indices below a bound changes these and no others. -/
theorem foldl_set (mask : ℕ → Bool) (value : ℕ → ℤ) (row : List ℤ) (bound : ℕ) :
    (List.range bound).foldl (fun row j => if mask j then row.set j (value j) else row) row =
      row.mapIdx fun j old => if j < bound ∧ mask j then value j else old := by
  induction bound with
  | zero => exact List.ext_getElem (by simp) (by simp)
  | succ bound ih =>
    rw [List.range_succ, List.foldl_append, ih, List.foldl_cons, List.foldl_nil]
    apply List.ext_getElem
    · split <;> simp
    intro j inside _
    by_cases marked : mask bound = true
    · simp only [marked, if_true, List.getElem_set, List.getElem_mapIdx]
      by_cases here : bound = j
      · subst here
        simp [marked]
      · have apart : j < bound + 1 ↔ j < bound := by omega
        simp only [here, if_false, apart]
    · have apart : (j < bound + 1 ∧ mask j = true) ↔ (j < bound ∧ mask j = true) := by
        refine and_congr_left fun also => ⟨fun below => ?_, fun below => by omega⟩
        rcases Nat.lt_succ_iff_lt_or_eq.mp below with less | same
        · exact less
        · exact absurd (same ▸ also) marked
      simp only [marked, Bool.false_eq_true, if_false, List.getElem_mapIdx, apart]

/-- The number of stores is the number of masked indices. -/
theorem foldl_count (mask : ℕ → Bool) (value : ℕ → ℤ) (row : List ℤ) (bound : ℕ) :
    (List.range bound).foldl (fun (state : List ℤ × ℕ) j =>
        if mask j then (state.1.set j (value j), state.2 + 1) else state) (row, 0) =
      ((List.range bound).foldl (fun row j => if mask j then row.set j (value j) else row) row,
        (List.range bound).countP mask) := by
  induction bound with
  | zero => rfl
  | succ bound ih =>
    rw [List.range_succ, List.foldl_append, List.foldl_append, ih, List.countP_append]
    cases marked : mask bound <;> simp [marked]

end Loops

section Reads

variable (tokens : List ℤ)

/-- A token inside the list is read. -/
theorem token_inside (i : ℤ) (low : 0 ≤ i) (high : i < tokens.length) :
    token tokens i = some (tok tokens i) := by
  have below : i.toNat < tokens.length := by omega
  rw [token, if_pos low, tok, List.getD_eq_getElem?_getD, List.getElem?_eq_getElem below,
    Option.getD_some]

/-- A run inside the list is compared. -/
theorem sameRun_eq (one other : ℤ) (left i : ℕ) (low : 0 ≤ one ∧ 0 ≤ other)
    (high : one + i + left ≤ tokens.length ∧ other + i + left ≤ tokens.length) :
    sameRun tokens one other left i = some (decide (∀ j, i ≤ j → j < i + left →
      tok tokens (one + j) = tok tokens (other + j))) := by
  induction left generalizing i with
  | zero =>
    have none : ∀ j, i ≤ j → j < i + 0 → tok tokens (one + j) = tok tokens (other + j) := by
      intro j after before
      omega
    rw [sameRun, decide_eq_true none]
  | succ left ih =>
    rw [sameRun, token_inside tokens (one + i) (by omega) (by omega),
      token_inside tokens (other + i) (by omega) (by omega)]
    dsimp only
    have further := ih (i + 1) (by constructor <;> push_cast <;> omega)
    split
    next same =>
      rw [further, Option.some.injEq, decide_eq_decide]
      constructor
      · intro rest j after before
        rcases Nat.eq_or_lt_of_le after with here | later
        · exact here ▸ same
        · exact rest j later (by omega)
      · exact fun all j after before => all j (by omega) (by omega)
    next different =>
      rw [Option.some.injEq, eq_comm, decide_eq_false_iff_not]
      exact fun all => different (all i (Nat.le_refl i) (by omega))

/-- Only the tokens below the true length matter. -/
theorem tok_take (L : ℕ) (i : ℤ) (low : 0 ≤ i) (below : i < L) :
    tok (tokens.take L) i = tok tokens i := by
  rw [tok, tok, List.getD_eq_getElem?_getD, List.getD_eq_getElem?_getD,
    List.getElem?_take_of_lt (by omega)]

end Reads

section Rows

variable {tokens : List ℤ} {L : ℕ} (inside : L ≤ tokens.length) (launch : Launch)
  (src lhost k : ℤ)

include inside

/-- The comparison of a row with positions inside the list. -/
theorem continues_read (maxDelta : ℤ)
    (formed : 0 ≤ L - lhost ∧ L - lhost ≤ maxDelta ∧ 0 ≤ src ∧ src < lhost) :
    sameRun tokens lhost src ((L : ℤ) - lhost).toNat 0 =
      some (decide (Continues tokens L src lhost maxDelta)) := by
  rw [sameRun_eq tokens lhost src _ 0 (by omega) (by omega), Option.some.injEq, decide_eq_decide]
  constructor
  · exact fun all => ⟨formed, fun i below => all i (Nat.zero_le i) (by omega)⟩
  · exact fun all i _ below => all.2 i (by omega)

/-- `replay_check` accepts exactly the rows whose copy went on. -/
theorem replayCheck_eq (maxDelta : ℤ) : replayCheck tokens L src lhost maxDelta =
    some (decide (Continues tokens L src lhost maxDelta)) := by
  rw [replayCheck]
  split
  next malformed =>
    rw [Option.some.injEq, eq_comm, decide_eq_false_iff_not]
    rintro ⟨formed, _⟩
    omega
  next formed => exact continues_read inside src lhost maxDelta (by omega)

/-- A position that is copied lies below the true length. -/
theorem copied_inside (formed : 0 ≤ (L : ℤ) - lhost ∧ 0 ≤ src ∧ src < lhost) (j : ℕ)
    (below : copied launch src (L - lhost) (max (lhost - src) 1) j < L) :
    token tokens (copied launch src (L - lhost) (max (lhost - src) 1) j) =
      some (tok tokens (copied launch src (L - lhost) (max (lhost - src) 1) j)) := by
  refine token_inside tokens _ ?_ (by omega)
  rw [copied]
  have rest := Int.emod_nonneg (j : ℤ) (b := max (lhost - src) 1) (by omega)
  split <;> omega

/-- The copying loop of the reference, in closed form: each of the leading ids is the token at its
copied position, and the rest of the row is kept. -/
theorem copyLoop_eq (formed : 0 ≤ (L : ℤ) - lhost ∧ 0 ≤ src ∧ src < lhost) (row : List ℤ)
    (width : ℕ) :
    (List.range width).foldlM (writeId tokens launch L src (L - lhost) (max (lhost - src) 1))
        (row, 0) =
      some (row.mapIdx fun j old => if j < width ∧ decide (copied launch src (L - lhost)
            (max (lhost - src) 1) j < L) = true then
          Int.xor (tok tokens (copied launch src (L - lhost) (max (lhost - src) 1) j)) launch.xor
          else old,
        (List.range width).countP fun j =>
          decide (copied launch src (L - lhost) (max (lhost - src) 1) j < L)) := by
  rw [← foldl_set, ← foldl_count]
  apply foldlM_some
  intro j _ state
  rw [writeId]
  by_cases below : copied launch src (L - lhost) (max (lhost - src) 1) j < L
  · rw [if_pos below, copied_inside inside launch src lhost formed j below]
    simp [below]
  · simp [below]

/-- The loop of the fill mode, in closed form: the leading ids are the last token. -/
theorem fillLoop_eq (some_token : 0 < (L : ℤ)) (row : List ℤ) (width : ℕ) :
    (List.range width).foldlM (fillId tokens L) row =
      some (row.mapIdx fun j old => if j < width then tok tokens (L - 1) else old) := by
  have plain := foldl_set (fun _ => true) (fun _ => tok tokens (L - 1)) row width
  simp only [if_true, and_true] at plain
  rw [← plain]
  apply foldlM_some
  intro j _ state
  rw [fillId, token_inside tokens (L - 1) (by omega) (by omega)]
  rfl

/-- The reference gives a row its result. -/
theorem referenceRow_eq (row : List ℤ) : referenceRow launch tokens L src lhost k row =
    some (rowResult launch tokens L src lhost k row) := by
  have failed : ¬ Continues tokens L src lhost launch.maxDelta → 0 < k →
      (if launch.fill = true ∧ 0 < (L : ℤ) then
        ((List.range (min k.toNat row.length)).foldlM (fillId tokens L) row).map fun row => (row, 0)
      else some (row, 0)) = some (rowResult launch tokens L src lhost k row) := by
    intro stops positive
    rw [rowResult_failed row fun both => stops both.1]
    split
    next fills => rw [fillLoop_eq inside fills.2, Option.map_some]
    next => rfl
  rw [referenceRow]
  by_cases positive : 0 < k
  · rw [if_pos positive]
    by_cases formed : 0 ≤ (L : ℤ) - lhost ∧ (L : ℤ) - lhost ≤ launch.maxDelta ∧ 0 ≤ src ∧
        src < lhost
    · rw [if_pos ⟨formed.1, formed.2.1, formed.2.2.1, formed.2.2.2, by omega⟩,
        continues_read inside src lhost launch.maxDelta formed]
      by_cases continues : Continues tokens L src lhost launch.maxDelta
      · rw [decide_eq_true continues, rowResult_valid row ⟨continues, positive⟩]
        dsimp only
        rw [copyLoop_eq inside launch src lhost (by omega), Option.map_some]
      · rw [decide_eq_false continues]
        exact failed continues positive
    · rw [if_neg fun all => formed ⟨all.1, all.2.1, all.2.2.1, all.2.2.2.1⟩]
      exact failed (fun continues => formed continues.1) positive
  · have nothing : min k.toNat row.length = 0 := by omega
    have same : row.mapIdx (fun _ old => old) = row := List.ext_getElem (by simp) (by simp)
    rw [if_neg positive, rowResult_failed row fun both => positive both.2]
    split
    · simp only [nothing, Nat.not_lt_zero, if_false, same]
    · rfl

end Rows

section Kernel

/-- A block has at least as many lanes as asked for. -/
theorem le_nextPowerOf2 (n : ℕ) : n ≤ nextPowerOf2 n := Nat.le_pow_clog (by decide) n

/-- What a masked load gives where the mask is on. -/
def loaded (tokens : List ℤ) (mask : Bool) (position : ℤ) : ℤ :=
  if mask then tok tokens position else 0

/-- A masked load reads only below the mask. -/
theorem masked_eq (tokens : List ℤ) (mask : Bool) (position : ℤ)
    (readable : mask = true → 0 ≤ position ∧ position < tokens.length) :
    masked tokens mask position = some (loaded tokens mask position) := by
  cases mask with
  | false => rfl
  | true => exact token_inside tokens position (readable rfl).1 (readable rfl).2

/-- Masked stores of a block, one value a lane. -/
theorem storeLanes_eq (mask : ℕ → Bool) (value : ℕ → ℤ) (row : List ℤ) (lanes : ℕ) :
    storeLanes mask ((List.range lanes).map value) row =
      row.mapIdx fun j old => if j < lanes ∧ mask j then value j else old := by
  rw [storeLanes, ← foldl_set, List.length_map, List.length_range]
  apply List.foldl_ext
  intro row j listed
  have below := List.mem_range.mp listed
  rw [List.getD_eq_getElem?_getD, List.getElem?_map, List.getElem?_range below]
  rfl

/-- Lanes past a bound do not count. -/
theorem countP_lanes (mask : ℕ → Bool) (width lanes : ℕ) (fits : width ≤ lanes)
    (test : ℕ → Bool) (same : ∀ j, test j = true ↔ j < width ∧ mask j = true) :
    (List.range lanes).countP test = (List.range width).countP mask := by
  obtain ⟨further, rfl⟩ := Nat.exists_eq_add_of_le fits
  have late : (List.range further |>.map (width + ·)).countP test = 0 := by
    rw [List.countP_eq_zero]
    intro j listed
    obtain ⟨extra, _, rfl⟩ := List.mem_map.mp listed
    rw [same]
    omega
  rw [List.range_add, List.countP_append, late, Nat.add_zero]
  apply List.countP_congr
  intro j listed
  rw [same]
  exact and_iff_right (List.mem_range.mp listed)

variable {tokens : List ℤ} {L : ℕ} (inside : L ≤ tokens.length) (launch : Launch)
  (src lhost k : ℤ)

/-- No lane differs exactly when the copy went on. -/
theorem badLanes_eq_zero_iff (formed : 0 ≤ (L : ℤ) - lhost ∧ 0 ≤ src ∧ src < lhost) (lanes : ℕ)
    (enough : (L : ℤ) - lhost ≤ lanes) :
    badLanes (L - lhost) true
        ((List.range lanes).map fun (o : ℕ) =>
          loaded tokens (decide ((o : ℤ) < L - lhost)) (lhost + o))
        ((List.range lanes).map fun (o : ℕ) =>
          loaded tokens (decide ((o : ℤ) < L - lhost)) (src + o)) = 0 ↔
      ∀ i < ((L : ℤ) - lhost).toNat, tok tokens (lhost + i) = tok tokens (src + i) := by
  rw [badLanes, List.countP_eq_zero, List.length_map, List.length_range]
  have lane : ∀ (position : ℕ → ℤ) (o : ℕ), o < lanes → (o : ℤ) < L - lhost →
      ((List.range lanes).map fun (o : ℕ) =>
        loaded tokens (decide ((o : ℤ) < L - lhost)) (position o)).getD o 0 =
        tok tokens (position o) := by
    intro position o below early
    rw [List.getD_eq_getElem?_getD, List.getElem?_map, List.getElem?_range below]
    simp [loaded, early]
  constructor
  · intro none i below
    have early : (i : ℤ) < L - lhost := by omega
    have here := none i (List.mem_range.mpr (by omega))
    rw [decide_eq_true_iff, lane _ i (by omega) early, lane _ i (by omega) early] at here
    by_contra different
    exact here ⟨rfl, early, different⟩
  · intro all o listed
    rw [decide_eq_true_iff]
    rintro ⟨_, early, different⟩
    have below := List.mem_range.mp listed
    rw [lane _ o below early, lane _ o below early] at different
    exact different (all o (by omega))

/-- The kernel's test of the tokens, as it stands after both loads. -/
theorem kernel_test (width : ℤ) :
    (wellFormed launch L src lhost width && decide (badLanes (L - lhost)
        (wellFormed launch L src lhost width)
        ((List.range (nextPowerOf2 (max launch.maxDelta 1).toNat)).map fun (o : ℕ) =>
          loaded tokens (decide (wellFormed launch L src lhost width = true ∧
            (o : ℤ) < L - lhost)) (lhost + o))
        ((List.range (nextPowerOf2 (max launch.maxDelta 1).toNat)).map fun (o : ℕ) =>
          loaded tokens (decide (wellFormed launch L src lhost width = true ∧
            (o : ℤ) < L - lhost)) (src + o)) = 0)) =
      decide (0 < width ∧ Continues tokens L src lhost launch.maxDelta) := by
  have whole : wellFormed launch L src lhost width = true ↔ 0 < width ∧
      (0 ≤ (L : ℤ) - lhost ∧ (L : ℤ) - lhost ≤ launch.maxDelta ∧ 0 ≤ src ∧ src < lhost) := by
    rw [wellFormed, decide_eq_true_iff]
    omega
  by_cases formed : wellFormed launch L src lhost width = true
  · obtain ⟨positive, shape⟩ := whole.mp formed
    have lanes := le_nextPowerOf2 (max launch.maxDelta 1).toNat
    have equal := @badLanes_eq_zero_iff tokens L src lhost (by omega)
      (nextPowerOf2 (max launch.maxDelta 1).toNat) (by omega)
    simp only [formed, true_and, Bool.true_and, equal]
    rw [decide_eq_decide]
    exact ⟨fun all => ⟨positive, shape, all⟩, fun both => both.2.2⟩
  · rw [Bool.eq_false_of_not_eq_true formed, Bool.false_and, eq_comm, decide_eq_false_iff_not]
    exact fun both => formed (whole.mpr ⟨both.1, both.2.1⟩)

/-- Stores under a mask that is off change nothing. -/
theorem storeLanes_off (mask : ℕ → Bool) (off : ∀ j, mask j = false) (values row : List ℤ) :
    storeLanes mask values row = row := by
  simp [storeLanes, off]

include inside

/-- The stores of a row that passed the check are the row's result; the masked lanes store nothing.
-/
theorem kernelStores_valid (row : List ℤ)
    (valid : Continues tokens L src lhost launch.maxDelta ∧ 0 < k) :
    kernelStores launch tokens L src lhost (min k row.length) row true =
      some (rowResult launch tokens L src lhost k row) := by
  have lanes := le_nextPowerOf2 (max row.length 1)
  have marked : ∀ j, validLane launch L src (L - lhost) (max (lhost - src) 1) (min k row.length)
      true j = true ↔ j < min k.toNat row.length ∧
        decide (copied launch src (L - lhost) (max (lhost - src) 1) j < L) = true := by
    intro j
    simp only [validLane, decide_eq_true_iff, true_and]
    omega
  have load : ((List.range (nextPowerOf2 (max row.length 1))).mapM fun j =>
      masked tokens (validLane launch L src (L - lhost) (max (lhost - src) 1) (min k row.length)
        true j) (copied launch src (L - lhost) (max (lhost - src) 1) j)) =
      some ((List.range (nextPowerOf2 (max row.length 1))).map fun j =>
        loaded tokens (validLane launch L src (L - lhost) (max (lhost - src) 1)
          (min k row.length) true j) (copied launch src (L - lhost) (max (lhost - src) 1) j)) := by
    refine mapM_some fun j _ => ?_
    cases on : validLane launch L src (L - lhost) (max (lhost - src) 1) (min k row.length) true j with
    | false => rfl
    | true =>
      have below := decide_eq_true_iff.mp ((marked j).mp on).2
      have shape := valid.1.1
      exact copied_inside inside launch src lhost (by omega) j below
  have fill : (decide (launch.fill = true ∧ 0 < min k (row.length : ℤ) ∧ true = false ∧
      0 < (L : ℤ))) = false := by simp
  have last : masked tokens false (max ((L : ℤ) - 1) 0) = some 0 := rfl
  rw [kernelStores, load, fill, last]
  simp only [Option.bind_eq_bind, Option.bind_some, List.map_map, if_true]
  rw [rowResult_valid row valid, storeLanes_off _ (fun j => by simp), storeLanes_eq,
    countP_lanes _ (min k.toNat row.length) _ (by omega) _ marked]
  rw [Option.pure_def, Option.some.injEq, Prod.mk.injEq]
  refine ⟨?_, rfl⟩
  apply List.ext_getElem (by simp)
  intro j below _
  simp only [List.getElem_mapIdx, Function.comp_apply]
  rw [List.length_mapIdx] at below
  by_cases on : validLane launch L src (L - lhost) (max (lhost - src) 1) (min k row.length) true j =
      true
  · rw [if_pos ⟨by omega, on⟩, if_pos ((marked j).mp on), on]
    rfl
  · rw [if_neg fun both => on both.2, if_neg fun both => on ((marked j).mpr both)]

/-- The stores of a row that is not accepted. -/
theorem kernelStores_failed (row : List ℤ)
    (failed : ¬ (Continues tokens L src lhost launch.maxDelta ∧ 0 < k)) :
    kernelStores launch tokens L src lhost (min k row.length) row false =
      some (rowResult launch tokens L src lhost k row) := by
  have lanes := le_nextPowerOf2 (max row.length 1)
  have off : ∀ j, validLane launch L src (L - lhost) (max (lhost - src) 1) (min k row.length)
      false j = false := by simp [validLane]
  have load : ((List.range (nextPowerOf2 (max row.length 1))).mapM fun j =>
      masked tokens (validLane launch L src (L - lhost) (max (lhost - src) 1) (min k row.length)
        false j) (copied launch src (L - lhost) (max (lhost - src) 1) j)) =
      some ((List.range (nextPowerOf2 (max row.length 1))).map fun _ => (0 : ℤ)) :=
    mapM_some fun j _ => by rw [off, masked, if_neg Bool.false_ne_true]
  rw [kernelStores]
  generalize filling : decide (launch.fill = true ∧ 0 < min k (row.length : ℤ) ∧ false = false ∧
    0 < (L : ℤ)) = doFill
  have fills : doFill = true ↔ (launch.fill = true ∧ 0 < (L : ℤ)) ∧ 0 < min k (row.length : ℤ) := by
    rw [← filling, decide_eq_true_iff]
    exact ⟨fun all => ⟨⟨all.1, all.2.2.2⟩, all.2.1⟩, fun all => ⟨all.1.1, all.2, rfl, all.1.2⟩⟩
  have last := masked_eq tokens doFill (max ((L : ℤ) - 1) 0) fun on => by
    have positive := (fills.mp on).1.2
    omega
  rw [load, last]
  simp only [Option.bind_eq_bind, Option.bind_some]
  rw [rowResult_failed row failed, storeLanes_off _ off, storeLanes_eq, if_neg Bool.false_ne_true,
    Option.pure_def, Option.some.injEq]
  by_cases filled : launch.fill = true ∧ 0 < (L : ℤ)
  · rw [if_pos filled, Prod.mk.injEq]
    refine ⟨List.ext_getElem (by simp) fun j below _ => ?_, rfl⟩
    rw [List.length_mapIdx] at below
    have mask : (j < nextPowerOf2 (max row.length 1) ∧ decide (doFill = true ∧
        (j : ℤ) < min k row.length) = true) ↔ j < min k.toNat row.length := by
      rw [decide_eq_true_iff, fills]
      constructor
      · exact fun on => by omega
      · exact fun on => ⟨by omega, ⟨filled, by omega⟩, by omega⟩
    rw [List.getElem_mapIdx, List.getElem_mapIdx, if_congr mask rfl rfl]
    split
    next on =>
      have position : max ((L : ℤ) - 1) 0 = L - 1 := by omega
      rw [fills.mpr ⟨filled, by omega⟩, loaded, if_pos rfl, position]
    next => rfl
  · have same : row.mapIdx (fun _ old => old) = row := List.ext_getElem (by simp) (by simp)
    have idle : ¬ doFill = true := fun on => filled (fills.mp on).1
    simp only [idle, filled, false_and, decide_false, Bool.false_eq_true, and_false, if_false, same]

/-- One program of the kernel gives a row its result. -/
theorem kernelRow_eq (row : List ℤ) (wide : 0 < k → row ≠ []) :
    kernelRow launch tokens L src lhost k row = some (rowResult launch tokens L src lhost k row) := by
  have load : ∀ (site : ℤ), (site = lhost ∨ site = src) →
      ((List.range (nextPowerOf2 (max launch.maxDelta 1).toNat)).mapM fun (o : ℕ) =>
        masked tokens (decide (wellFormed launch L src lhost (min k row.length) = true ∧
          (o : ℤ) < L - lhost)) (site + o)) =
      some ((List.range (nextPowerOf2 (max launch.maxDelta 1).toNat)).map fun (o : ℕ) =>
        loaded tokens (decide (wellFormed launch L src lhost (min k row.length) = true ∧
          (o : ℤ) < L - lhost)) (site + o)) := by
    intro site which
    refine mapM_some fun o _ => masked_eq tokens _ _ fun on => ?_
    obtain ⟨formed, below⟩ := decide_eq_true_iff.mp on
    have shape := decide_eq_true_iff.mp formed
    omega
  have accepted : (0 < min k row.length ∧ Continues tokens L src lhost launch.maxDelta) ↔
      (Continues tokens L src lhost launch.maxDelta ∧ 0 < k) := by
    constructor
    · rintro ⟨positive, continues⟩
      exact ⟨continues, by omega⟩
    · rintro ⟨continues, positive⟩
      have some_width := List.length_pos_iff.mpr (wide positive)
      exact ⟨by omega, continues⟩
  rw [kernelRow]
  simp only [load lhost (Or.inl rfl), load src (Or.inr rfl), Option.bind_eq_bind, Option.bind_some,
    kernel_test launch src lhost (min k row.length)]
  rw [decide_eq_decide.mpr accepted]
  by_cases valid : Continues tokens L src lhost launch.maxDelta ∧ 0 < k
  · rw [decide_eq_true valid]
    exact kernelStores_valid inside launch src lhost k row valid
  · rw [decide_eq_false valid]
    exact kernelStores_failed inside launch src lhost k row valid

end Kernel

section Agreement

/-- Whether the copy went on only depends on the tokens below the true length. -/
theorem continues_take (tokens : List ℤ) (L : ℕ) (src lhost maxDelta : ℤ) :
    Continues (tokens.take L) L src lhost maxDelta ↔ Continues tokens L src lhost maxDelta := by
  have same : ∀ site : ℤ, 0 ≤ site → site ≤ lhost → ∀ i : ℕ, (i : ℤ) < L - lhost →
      tok (tokens.take L) (site + i) = tok tokens (site + i) := fun site low below i early =>
    tok_take tokens L (site + i) (by omega) (by omega)
  refine and_congr_right fun formed => forall_congr' fun i => imp_congr_right fun early => ?_
  rw [same lhost (by omega) (by omega) i (by omega), same src (by omega) (by omega) i (by omega)]

variable {tokens : List ℤ} {L : ℕ} (inside : L ≤ tokens.length) (launch : Launch)
  (src lhost k : ℤ)

/-- A copied position is not negative, so the reference reads inside its tokens. -/
theorem copied_nonneg (formed : 0 ≤ (L : ℤ) - lhost ∧ 0 ≤ src ∧ src < lhost) (j : ℕ) :
    0 ≤ copied launch src (L - lhost) (max (lhost - src) 1) j := by
  rw [copied]
  have rest := Int.emod_nonneg (j : ℤ) (b := max (lhost - src) 1) (by omega)
  split <;> omega

/-- The result of a row only depends on the tokens below the true length. -/
theorem rowResult_take (row : List ℤ) : rowResult launch (tokens.take L) L src lhost k row =
    rowResult launch tokens L src lhost k row := by
  have same := continues_take tokens L src lhost launch.maxDelta
  by_cases valid : Continues tokens L src lhost launch.maxDelta ∧ 0 < k
  · rw [rowResult_valid row valid, rowResult_valid row ⟨same.mpr valid.1, valid.2⟩, Prod.mk.injEq]
    refine ⟨List.ext_getElem (by simp) fun j below _ => ?_, rfl⟩
    rw [List.getElem_mapIdx, List.getElem_mapIdx]
    split
    next on =>
      rw [tok_take tokens L _ (copied_nonneg launch src lhost (by have := valid.1.1; omega) j)
        (decide_eq_true_iff.mp on.2)]
    next => rfl
  · rw [rowResult_failed row valid, rowResult_failed row fun also => valid ⟨same.mp also.1, also.2⟩]
    split
    next fills => rw [tok_take tokens L (L - 1) (by omega) (by omega)]
    next => rfl

/-- The copied position of an accepted row, counted from the true length. -/
theorem copied_eq (formed : src < lhost) (j : ℕ) :
    copied launch src (L - lhost) (max (lhost - src) 1) j =
      L - (lhost - src) + (if launch.periodic then j % (lhost - src) else (j : ℤ)) := by
  have period : max (lhost - src) 1 = lhost - src := by omega
  rw [copied, period]
  split <;> omega

/-- The copied position of an accepted row is inside exactly without a hole. -/
theorem copied_lt_iff (formed : src < lhost) (j : ℕ) :
    copied launch src (L - lhost) (max (lhost - src) 1) j < L ↔
      launch.periodic = true ∨ (j : ℤ) < lhost - src := by
  have rest := Int.emod_lt_of_pos (j : ℤ) (b := lhost - src) (by omega)
  rw [copied_eq launch src lhost formed]
  split
  next periodic => exact ⟨fun _ => Or.inl periodic, fun _ => by omega⟩
  next once => exact ⟨fun below => Or.inr (by omega), fun or => by
    have early := or.resolve_left once
    omega⟩

/-- The id, or hole, at a draft index of an accepted row. -/
def draftId (tokens : List ℤ) (L : ℕ) (src lhost : ℤ) (periodic : Bool) (j : ℕ) : Option ℤ :=
  if periodic = true ∨ (j : ℤ) < lhost - src then
    some (tok tokens (L - (lhost - src) + j % (lhost - src)))
  else none

/-- The ids written to an accepted row are the host's draft, and its holes keep the old ids. -/
theorem written_eq_draft (row : List ℤ) (plain : launch.xor = 0)
    (valid : Continues tokens L src lhost launch.maxDelta ∧ 0 < k) (j : ℕ)
    (below : j < row.length) :
    (rowResult launch tokens L src lhost k row).1[j]? =
      match ((List.range k.toNat).map (draftId tokens L src lhost launch.periodic))[j]? with
      | some (some t) => some t
      | _ => row[j]? := by
  have formed := valid.1.1
  rw [rowResult_valid row valid, List.getElem?_mapIdx, List.getElem?_eq_getElem below,
    Option.map_some, List.getElem?_map]
  by_cases wanted : j < k.toNat
  · rw [List.getElem?_range wanted, Option.map_some, draftId]
    have hole := copied_lt_iff (L := L) launch src lhost formed.2.2.2 j
    by_cases filled : launch.periodic = true ∨ (j : ℤ) < lhost - src
    · have identity : ∀ t : ℤ, Int.xor t 0 = t := fun t => by cases t <;> simp [Int.xor]
      have rest : (if launch.periodic then (j : ℤ) % (lhost - src) else (j : ℤ)) =
          j % (lhost - src) := by
        split
        · rfl
        next once => exact (Int.emod_eq_of_lt (by omega) (filled.resolve_left once)).symm
      rw [if_pos ⟨by omega, decide_eq_true (hole.mpr filled)⟩, if_pos filled, plain, identity,
        copied_eq launch src lhost formed.2.2.2, rest]
    · rw [if_neg fun both => filled (hole.mp (decide_eq_true_iff.mp both.2)), if_neg filled]
  · rw [List.getElem?_eq_none (by simpa using wanted), if_neg (by omega)]
    rfl

/-- A drafted id only depends on the tokens below the true length. -/
theorem draftId_take (tokens : List ℤ) (formed : 0 ≤ (L : ℤ) - lhost ∧ 0 ≤ src ∧ src < lhost)
    (periodic : Bool) (j : ℕ) :
    draftId (tokens.take L) L src lhost periodic j = draftId tokens L src lhost periodic j := by
  have low := Int.emod_nonneg (j : ℤ) (b := lhost - src) (by omega)
  have high := Int.emod_lt_of_pos (j : ℤ) (b := lhost - src) (by omega)
  rw [draftId, draftId, tok_take tokens L _ (by omega) (by omega)]

include inside

/-- The host's draft of an accepted row. -/
theorem lookupDraft_eq (formed : 0 ≤ (L : ℤ) - lhost ∧ 0 ≤ src ∧ src < lhost) (periodic : Bool) :
    lookupDraft tokens L src lhost k periodic =
      some ((List.range k.toNat).map (draftId tokens L src lhost periodic)) := by
  refine mapM_some fun j _ => ?_
  have floor := Int.fmod_eq_emod_of_nonneg (j : ℤ) (b := lhost - src) (by omega)
  have low := Int.emod_nonneg (j : ℤ) (b := lhost - src) (by omega)
  have high := Int.emod_lt_of_pos (j : ℤ) (b := lhost - src) (by omega)
  rw [draftAt, if_neg (by omega), floor, draftId]
  cases periodic with
  | true =>
    have position : src + ((L : ℤ) - lhost) + j % (lhost - src) =
        L - (lhost - src) + j % (lhost - src) := by omega
    rw [if_pos rfl, position, if_pos (by omega), if_pos (Or.inl rfl),
      token_inside tokens _ (by omega) (by omega)]
    rfl
  | false =>
    by_cases early : (j : ℤ) < lhost - src
    · have same : (j : ℤ) % (lhost - src) = j := Int.emod_eq_of_lt (by omega) early
      have position : src + ((L : ℤ) - lhost) + j = L - (lhost - src) + j := by omega
      rw [if_neg Bool.false_ne_true, position, if_pos (by omega), if_pos (Or.inr early), same,
        token_inside tokens _ (by omega) (by omega)]
      rfl
    · rw [if_neg Bool.false_ne_true, if_neg (by omega), if_neg (by simp [early])]

/-- The host's replay, the reference and the kernel agree on every row: the same rows are
accepted, the same ids written, nothing is read at or past the true length, and the id at draft
index `j` is the token `P` before the end plus `j` modulo `P`. -/
theorem lookup_rows_agree (row : List ℤ) (wide : 0 < k → row ≠ []) :
    ∃ verdict written status,
      replayCheck tokens L src lhost launch.maxDelta = some verdict ∧
      referenceRow launch tokens L src lhost k row = some (written, status) ∧
      kernelRow launch tokens L src lhost k row = some (written, status) ∧
      (replayCheck (tokens.take L) L src lhost launch.maxDelta = some verdict ∧
        referenceRow launch (tokens.take L) L src lhost k row = some (written, status) ∧
        kernelRow launch (tokens.take L) L src lhost k row = some (written, status)) ∧
      (0 < status ↔ verdict = true ∧ 0 < k) ∧
      (verdict = true → ∃ draft, lookupDraft tokens L src lhost k launch.periodic = some draft ∧
        lookupDraft (tokens.take L) L src lhost k launch.periodic = some draft ∧
        draft.length = k.toNat ∧
        (∀ j < k.toNat, draft[j]? = some (draftId tokens L src lhost launch.periodic j)) ∧
        (launch.xor = 0 → 0 < k → ∀ j < row.length, written[j]? =
          match draft[j]? with
          | some (some t) => some t
          | _ => row[j]?)) := by
  have short : L ≤ (tokens.take L).length := by rw [List.length_take]; omega
  have verdicts : decide (Continues (tokens.take L) L src lhost launch.maxDelta) =
      decide (Continues tokens L src lhost launch.maxDelta) :=
    decide_eq_decide.mpr (continues_take tokens L src lhost launch.maxDelta)
  refine ⟨decide (Continues tokens L src lhost launch.maxDelta),
    (rowResult launch tokens L src lhost k row).1, (rowResult launch tokens L src lhost k row).2,
    replayCheck_eq inside src lhost launch.maxDelta, referenceRow_eq inside launch src lhost k row,
    kernelRow_eq inside launch src lhost k row wide, ⟨?_, ?_, ?_⟩, ?_, ?_⟩
  · rw [replayCheck_eq short src lhost launch.maxDelta, verdicts]
  · rw [referenceRow_eq short launch src lhost k row, rowResult_take]
  · rw [kernelRow_eq short launch src lhost k row wide, rowResult_take]
  · rw [decide_eq_true_iff]
    by_cases valid : Continues tokens L src lhost launch.maxDelta ∧ 0 < k
    · rw [rowResult_valid row valid]
      exact ⟨fun _ => valid, fun _ => by omega⟩
    · rw [rowResult_failed row valid]
      refine ⟨fun positive => ?_, fun both => absurd both valid⟩
      split at positive <;> exact absurd positive (Nat.lt_irrefl 0)
  · intro accepted
    have continues := decide_eq_true_iff.mp accepted
    have formed := continues.1
    have drafted := lookupDraft_eq inside src lhost k (by omega) launch.periodic
    refine ⟨_, drafted, ?_, by simp, fun j below => ?_, fun plain positive j below => ?_⟩
    · rw [lookupDraft_eq short src lhost k (by omega) launch.periodic]
      have ids : draftId (tokens.take L) L src lhost launch.periodic =
          draftId tokens L src lhost launch.periodic :=
        funext fun j => draftId_take src lhost tokens (by omega) launch.periodic j
      rw [ids]
    · rw [List.getElem?_map, List.getElem?_range below, Option.map_some]
    · exact written_eq_draft launch src lhost k row plain ⟨continues, positive⟩ j below

end Agreement

/-- A period of three, one token late: both device versions write five periodic ids. -/
theorem lookup_rows_agree_periodic :
    kernelRow ⟨true, 64, 0, false⟩ [5, 6, 7, 5, 6, 7, 5, 9] (7 : ℕ) 3 6 5 [0, 0, 0, 0, 0] =
      some ([6, 7, 5, 6, 7], 6) := by
  have evaluated : referenceRow ⟨true, 64, 0, false⟩ [5, 6, 7, 5, 6, 7, 5, 9] (7 : ℕ) 3 6 5
      [0, 0, 0, 0, 0] = some ([6, 7, 5, 6, 7], 6) := by decide
  have fits : 7 ≤ ([5, 6, 7, 5, 6, 7, 5, 9] : List ℤ).length := by decide
  obtain ⟨_, written, status, _, reference, kernel, _⟩ :=
    lookup_rows_agree fits ⟨true, 64, 0, false⟩ 3 6 5 [0, 0, 0, 0, 0] fun _ => by simp
  rw [kernel, ← reference, evaluated]

end GlmSpark.LookupRows
