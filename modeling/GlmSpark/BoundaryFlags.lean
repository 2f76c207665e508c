import GlmSpark.Blocks
import GlmSpark.LookupRows

/-!
# Boundary flags of the replay stash

Before a verify step every sequence of the batch gets a flag: full states are kept
when the next forward could move the accepted state to another block of the cache.
`glm_kda_stash.py` computes the flags by a chain of tensor operations,
`glm_kda_stash_fast.py` by one kernel whose division truncates. Both are shown to
give the same flags, and a sequence whose flag is not set stays in its block.

A read outside a tensor fails the whole function; positions are unbounded integers.
-/

namespace GlmSpark.BoundaryFlags

open LookupRows (token masked loaded tok token_inside masked_eq tok_take)
open Runs (mapM_some)
open Blocks (cdiv)

/-- What the layer's forward reads: the positions of the step's tokens, which of them
belong to verify sequences, and where each of the `n` sequences starts. -/
structure Batch where
  positions : List ℤ
  numActualTokens : ℕ
  specTokenIndx : List ℤ
  nonSpecTokenIndx : Option (List ℤ)
  specQueryStartLoc : List ℤ
  n : ℕ
  bs : ℤ
  lookahead : ℕ
  /-- A block has a position. -/
  bs_pos : 0 < bs
  /-- Every sequence has a start and an end. -/
  starts : n + 1 ≤ specQueryStartLoc.length
  /-- The selected tokens are tokens of the step. -/
  indices : ∀ index ∈ specTokenIndx, 0 ≤ index ∧ index < (positions.take numActualTokens).length

/-- Prefill rows share the step with the verify sequences. -/
def Batch.mixed (batch : Batch) : Bool := batch.nonSpecTokenIndx.any fun indices => !indices.isEmpty

/-- `x.clamp(0, hi)`. -/
def clamp (hi x : ℤ) : ℤ := min (max x 0) hi

/-- The flag of a sequence from the positions of its first and last token. -/
def fullFlag (bs : ℤ) (lookahead : ℕ) (first last : ℤ) : ℤ :=
  if (last + 1 + lookahead).fdiv bs ≠ first.fdiv bs then 1 else 0

/-- `pos.index_select(0, spec_token_indx)` in a mixed step, where the speculative tokens are a part
of the batch; it raises on an index out of range. -/
def indexSelect (batch : Batch) (pos : List ℤ) : Option (List ℤ) :=
  if batch.mixed then batch.specTokenIndx.mapM (token pos) else some pos

/-- `full_flags_torch`, the chain of `_forward`. -/
def fullFlagsTorch (batch : Batch) : Option (List ℤ) := do
  let pos ← indexSelect batch (batch.positions.take batch.numActualTokens)
  let qsl := batch.specQueryStartLoc.take (batch.n + 1)
  let hi : ℤ := max ((pos.length : ℤ) - 1) 0
  let first ← qsl.dropLast.mapM fun s => token pos (clamp hi s)
  let last ← qsl.tail.mapM fun e => token pos (clamp hi (e - 1))
  return List.zipWith (fullFlag batch.bs batch.lookahead) first last

/-- The kernel's quotient: `//` truncates there, a negative dividend is corrected. -/
def kernelQuotient (dividend bs : ℤ) : ℤ :=
  let q := dividend.tdiv bs
  if dividend.tmod bs ≠ 0 ∧ dividend < 0 then q - 1 else q

/-- The kernel's load through the selection, `HAS_SEL`. -/
def throughSel (batch : Batch) (m : Bool) (x : ℤ) : Option ℤ :=
  if batch.mixed then masked batch.specTokenIndx m x else some x

/-- The value one lane of `kda_stash_full_flags_kernel` holds when it stores. -/
def flagLane (batch : Batch) (hi : ℤ) (i : ℕ) : Option ℤ := do
  let m : Bool := i < batch.n
  let s ← masked batch.specQueryStartLoc m i
  let e ← masked batch.specQueryStartLoc m ((i : ℤ) + 1)
  let s ← throughSel batch m (clamp hi s)
  let e ← throughSel batch m (clamp hi (e - 1))
  let first ← masked batch.positions m s
  let last ← masked batch.positions m e
  let last := last + 1 + (batch.lookahead : ℤ)
  return if kernelQuotient last batch.bs ≠ kernelQuotient first batch.bs then 1 else 0

/-- One program of `kda_stash_full_flags_kernel`. -/
def flagProgram (batch : Batch) (hi : ℤ) (block : ℕ) (out : List ℤ) (pid : ℕ) :
    Option (List ℤ) := do
  let values ← (List.range block).mapM fun lane => flagLane batch hi (pid * block + lane)
  return (List.range block).foldl (fun out lane =>
    if pid * block + lane < batch.n then out.set (pid * block + lane) (values.getD lane 0)
    else out) out

/-- `full_flags_fused`; `blank` is what the new output tensor happens to hold. -/
def fullFlagsFused (batch : Batch) (blank : ℕ → ℤ) : Option (List ℤ) :=
  let numel := if batch.mixed then batch.specTokenIndx.length
    else min batch.numActualTokens batch.positions.length
  if numel = 0 ∧ 0 < batch.n then fullFlagsTorch batch
  else
    let hi : ℤ := max ((numel : ℤ) - 1) 0
    let out := (List.range batch.n).map blank
    if 0 < batch.n then
      let block := if batch.n ≤ 64 then 64 else 256
      (List.range (cdiv batch.n block)).foldlM (flagProgram batch hi block) out
    else some out

/-- The state column of a position: the block of the Mamba state it falls into. -/
def column (bs position : ℤ) : ℤ := position.fdiv bs

/-- `migrated_marker`: the next step moves the accepted state to another column, and its
slot holds a replay record. -/
def migratedMarker (bs first : ℤ) (length accepted nextQuery : ℕ) (flag : ℤ) : Bool :=
  let src := column bs (first + length - 1)
  let after := first + accepted
  let dst := column bs (after + nextQuery - 1)
  src ≠ dst ∧ 1 < accepted ∧ flag = 0

/-- The positions of the tokens that belong to verify sequences. -/
def Batch.selected (batch : Batch) : List ℤ :=
  let pos := batch.positions.take batch.numActualTokens
  if batch.mixed then batch.specTokenIndx.map (tok pos) else pos

/-- Sequence `i` is a verify window of `length` tokens from position `first` on. -/
structure Batch.Window (batch : Batch) (i : ℕ) (first : ℤ) (length : ℕ) : Prop where
  inside : i < batch.n
  positive : 1 ≤ length
  bounded : length ≤ batch.lookahead + 1
  placed : ∃ start : ℕ, batch.specQueryStartLoc[i]? = some (start : ℤ) ∧
    batch.specQueryStartLoc[i + 1]? = some ((start + length : ℕ) : ℤ) ∧
    ∀ j < length, batch.selected[start + j]? = some (first + (j : ℤ))

section Division

/-- The kernel's correction makes its division round down. -/
theorem kernelQuotient_eq (dividend bs : ℤ) (positive : 0 < bs) :
    kernelQuotient dividend bs = dividend.fdiv bs := by
  have floor : dividend.fdiv bs = dividend / bs := Int.fdiv_eq_ediv_of_nonneg _ positive.le
  have exact_when : dividend.tmod bs = 0 ↔ bs ∣ dividend := Int.dvd_iff_tmod_eq_zero.symm
  rw [kernelQuotient, floor, Int.tdiv_eq_ediv, Int.sign_eq_one_of_pos positive]
  by_cases negative : dividend < 0
  · by_cases divides : bs ∣ dividend
    · simp [exact_when.mpr divides, divides]
    · have remainder : dividend.tmod bs ≠ 0 := fun zero => divides (exact_when.mp zero)
      simp [remainder, divides, negative, Int.not_le.mpr negative]
  · simp [negative, Int.not_lt.mp negative]

/-- Between two positions of one column lies that column only. -/
theorem column_between {bs low position high : ℤ} (positive : 0 < bs)
    (same : column bs high = column bs low) (above : low ≤ position) (below : position ≤ high) :
    column bs position = column bs low := by
  have floor (x : ℤ) : column bs x = x / bs := Int.fdiv_eq_ediv_of_nonneg _ positive.le
  have lower : low / bs ≤ position / bs := Int.ediv_le_ediv positive above
  have upper : position / bs ≤ high / bs := Int.ediv_le_ediv positive below
  rw [floor, floor] at *
  omega

/-- The flag is not set exactly when the farthest position the next step can reach is in
the first token's column. -/
theorem fullFlag_eq_zero {bs first last : ℤ} {lookahead : ℕ} :
    fullFlag bs lookahead first last = 0 ↔
      column bs (last + 1 + lookahead) = column bs first := by
  rw [fullFlag, column, column]
  split
  next apart => exact ⟨fun one => absurd one one_ne_zero, fun same => absurd same apart⟩
  next same => exact ⟨fun _ => not_not.mp same, fun _ => rfl⟩

end Division

section Reads

variable (batch : Batch)

/-- The last index a sequence's start or end is clamped to. -/
def Batch.hi : ℤ := max ((batch.selected.length : ℤ) - 1) 0

/-- The position a start or an end refers to. -/
def Batch.at (x : ℤ) : ℤ := tok batch.selected (clamp batch.hi x)

/-- The flag of sequence `i`. -/
def Batch.flag (i : ℕ) : ℤ :=
  fullFlag batch.bs batch.lookahead (batch.at (tok batch.specQueryStartLoc i))
    (batch.at (tok batch.specQueryStartLoc (i + 1) - 1))

/-- A clamped index is inside a selection that is not empty. -/
theorem clamp_inside (some_token : 0 < batch.selected.length) (x : ℤ) :
    0 ≤ clamp batch.hi x ∧ clamp batch.hi x < batch.selected.length := by
  unfold clamp Batch.hi
  omega

/-- The selection the chain reads is in range: `index_select` finds a row for every position of the
actual tokens. -/
theorem selected_torch :
    indexSelect batch (batch.positions.take batch.numActualTokens) = some batch.selected := by
  unfold indexSelect Batch.selected
  dsimp only
  split
  · apply mapM_some
    intro index listed
    obtain ⟨above, below⟩ := batch.indices index listed
    exact token_inside _ index above below
  · rfl

/-- The chain gives the flag of every sequence. -/
theorem fullFlagsTorch_eq (some_token : 0 < batch.selected.length) :
    fullFlagsTorch batch = some ((List.range batch.n).map batch.flag) := by
  have gathers (starts : List ℤ) (shift : ℤ → ℤ) :
      starts.mapM (fun x => token batch.selected (clamp batch.hi (shift x))) =
        some (starts.map fun x => batch.at (shift x)) := by
    apply mapM_some
    intro x _
    obtain ⟨above, below⟩ := clamp_inside batch some_token (shift x)
    exact token_inside _ _ above below
  have first := gathers (batch.specQueryStartLoc.take (batch.n + 1)).dropLast id
  have last := gathers (batch.specQueryStartLoc.take (batch.n + 1)).tail (· - 1)
  have starts := batch.starts
  rw [fullFlagsTorch]
  simp only [selected_torch, Option.bind_eq_bind, Option.bind_some]
  rw [show max ((batch.selected.length : ℤ) - 1) 0 = batch.hi from rfl]
  simp only [id] at first
  rw [first, last]
  simp only [Option.bind_some, Option.pure_def, Option.some.injEq]
  apply List.ext_getElem
  · simp
    omega
  intro i inside _
  have below : i < batch.specQueryStartLoc.length := by simp at inside; omega
  have next : i + 1 < batch.specQueryStartLoc.length := by simp at inside; omega
  have start : tok batch.specQueryStartLoc i = batch.specQueryStartLoc[i] := by
    simp [tok, List.getD_eq_getElem?_getD, List.getElem?_eq_getElem below]
  have stop : tok batch.specQueryStartLoc (i + 1) = batch.specQueryStartLoc[i + 1] := by
    have index : ((i : ℤ) + 1).toNat = i + 1 := by omega
    simp [tok, index, List.getD_eq_getElem?_getD, List.getElem?_eq_getElem next]
  simp [Batch.flag, start, stop]

/-- What a start or an end refers to, read by a lane that is on. -/
theorem throughSel_position (some_token : 0 < batch.selected.length) (x : ℤ) :
    ((throughSel batch true (clamp batch.hi x)).bind fun s => masked batch.positions true s) =
      some (batch.at x) := by
  obtain ⟨above, below⟩ := clamp_inside batch some_token x
  have positions (i : ℤ) (low : 0 ≤ i)
      (high : i < (batch.positions.take batch.numActualTokens).length) :
      masked batch.positions true i =
        some (tok (batch.positions.take batch.numActualTokens) i) := by
    rw [List.length_take] at high
    rw [masked, if_pos rfl, token_inside _ i low (by omega), tok_take _ _ i low (by omega)]
  cases mixed : batch.mixed with
  | false =>
    have same : batch.selected = batch.positions.take batch.numActualTokens := by
      rw [Batch.selected, mixed, if_neg Bool.false_ne_true]
    rw [throughSel, mixed, if_neg Bool.false_ne_true, Option.bind_some, Batch.at, same]
    exact positions _ above (same ▸ below)
  | true =>
    have same : batch.selected =
        batch.specTokenIndx.map (tok (batch.positions.take batch.numActualTokens)) := by
      rw [Batch.selected, mixed, if_pos rfl]
    have shorter : clamp batch.hi x < batch.specTokenIndx.length := by simpa [same] using below
    have listed : tok batch.specTokenIndx (clamp batch.hi x) ∈ batch.specTokenIndx := by
      have inside : (clamp batch.hi x).toNat < batch.specTokenIndx.length := by omega
      rw [tok, List.getD_eq_getElem?_getD, List.getElem?_eq_getElem inside, Option.getD_some]
      exact List.getElem_mem inside
    obtain ⟨low, high⟩ := batch.indices _ listed
    rw [throughSel, mixed, if_pos rfl, masked, if_pos rfl, token_inside _ _ above shorter,
      Option.bind_some, positions _ low high, Batch.at, same]
    have inside : (clamp batch.hi x).toNat < batch.specTokenIndx.length := by omega
    simp [tok, List.getD_eq_getElem?_getD, List.getElem?_eq_getElem inside]

/-- Without sequences the chain gives no flag. -/
theorem fullFlagsTorch_nil (none : batch.n = 0) : fullFlagsTorch batch = some [] := by
  have starts := batch.starts
  rw [fullFlagsTorch, selected_torch, none]
  cases start : batch.specQueryStartLoc with
  | nil => simp [start] at starts
  | cons first rest => rfl

/-- A lane of a sequence holds its flag. -/
theorem flagLane_inside (some_token : 0 < batch.selected.length) (i : ℕ) (inside : i < batch.n) :
    flagLane batch batch.hi i = some (batch.flag i) := by
  have starts := batch.starts
  have on : decide (i < batch.n) = true := decide_eq_true inside
  have start := masked_eq batch.specQueryStartLoc true i fun _ => by omega
  have stop := masked_eq batch.specQueryStartLoc true ((i : ℤ) + 1) fun _ => by omega
  have first := throughSel_position batch some_token (tok batch.specQueryStartLoc i)
  have last := throughSel_position batch some_token (tok batch.specQueryStartLoc (i + 1) - 1)
  obtain ⟨s, selected, first⟩ := Option.bind_eq_some_iff.mp first
  obtain ⟨e, selected', last⟩ := Option.bind_eq_some_iff.mp last
  simp only [flagLane, on, start, stop, loaded, if_true, Option.bind_eq_bind, Option.bind_some,
    selected, selected', first, last, kernelQuotient_eq _ _ batch.bs_pos, Option.pure_def,
    Batch.flag, fullFlag]

/-- A lane past the sequences reads nothing. -/
theorem flagLane_outside (hi : ℤ) (i : ℕ) (outside : batch.n ≤ i) :
    ∃ value, flagLane batch hi i = some value := by
  have off : decide (i < batch.n) = false := by simp [outside]
  have idle (list : List ℤ) (x : ℤ) : masked list false x = some 0 := rfl
  have idle' (x : ℤ) : ∃ y, throughSel batch false x = some y := by
    unfold throughSel
    split
    · exact ⟨0, rfl⟩
    · exact ⟨x, rfl⟩
  obtain ⟨s, selected⟩ := idle' (clamp hi 0)
  obtain ⟨e, selected'⟩ := idle' (clamp hi (0 - 1))
  simp only [flagLane, off, idle, Option.bind_eq_bind, Option.bind_some, selected, selected',
    Option.pure_def, Option.some.injEq, exists_eq']

end Reads

section Launch

variable (batch : Batch) (blank : ℕ → ℤ)

/-- The output tensor when the flags below a bound are stored. -/
def Batch.filled (bound : ℕ) : List ℤ :=
  (List.range batch.n).map fun i => if i < bound then batch.flag i else blank i

/-- One masked store extends the flags by one. -/
theorem filled_store (bound : ℕ) (value : ℤ) (held : bound < batch.n → value = batch.flag bound) :
    (if bound < batch.n then (batch.filled blank bound).set bound value
      else batch.filled blank bound) = batch.filled blank (bound + 1) := by
  unfold Batch.filled
  by_cases below : bound < batch.n
  · rw [if_pos below]
    apply List.ext_getElem (by simp)
    intro i inside _
    by_cases here : bound = i
    · simp [here, held below]
    · have same : i < bound + 1 ↔ i < bound := by omega
      simp only [List.getElem_set, here, if_false, List.getElem_map, List.getElem_range, same]
  · rw [if_neg below]
    apply List.map_congr_left
    intro i listed
    have early : i < bound := by have := List.mem_range.mp listed; omega
    rw [if_pos early, if_pos (Nat.lt_succ_of_lt early)]

/-- The lanes of a program store one flag after the other. -/
theorem flagProgram_eq (some_token : 0 < batch.selected.length) (block pid : ℕ) :
    flagProgram batch batch.hi block (batch.filled blank (pid * block)) pid =
      some (batch.filled blank ((pid + 1) * block)) := by
  have lanes : ∀ lane ∈ List.range block, flagLane batch batch.hi (pid * block + lane) =
      some ((flagLane batch batch.hi (pid * block + lane)).getD 0) := by
    intro lane _
    by_cases inside : pid * block + lane < batch.n
    · rw [flagLane_inside batch some_token _ inside, Option.getD_some]
    · obtain ⟨value, holds⟩ := flagLane_outside batch batch.hi _ (Nat.not_lt.mp inside)
      rw [holds, Option.getD_some]
  have stores (count : ℕ) (within : count ≤ block) :
      (List.range count).foldl (fun out lane =>
        if pid * block + lane < batch.n then out.set (pid * block + lane)
          (((List.range block).map fun lane =>
            (flagLane batch batch.hi (pid * block + lane)).getD 0).getD lane 0)
        else out) (batch.filled blank (pid * block)) =
          batch.filled blank (pid * block + count) := by
    induction count with
    | zero => rfl
    | succ count ih =>
      rw [List.range_succ, List.foldl_append, ih (Nat.le_of_succ_le within), List.foldl_cons,
        List.foldl_nil]
      apply filled_store
      intro inside
      rw [List.getD_eq_getElem?_getD, List.getElem?_map, List.getElem?_range within,
        Option.map_some, Option.getD_some, flagLane_inside batch some_token _ inside,
        Option.getD_some]
  rw [flagProgram, mapM_some lanes, Option.bind_eq_bind, Option.bind_some, Option.pure_def,
    stores block le_rfl, Nat.add_mul, Nat.one_mul]

/-- The programs of the grid store every flag. -/
theorem launch_eq (some_token : 0 < batch.selected.length) (block count : ℕ) :
    (List.range count).foldlM (flagProgram batch batch.hi block)
      ((List.range batch.n).map blank) = some (batch.filled blank (count * block)) := by
  induction count with
  | zero => simp [Batch.filled]
  | succ count ih =>
    rw [List.range_succ, List.foldlM_append, ih, Option.bind_eq_bind, Option.bind_some,
      List.foldlM_cons, flagProgram_eq batch blank some_token]
    rfl

/-- The number of selected tokens, as the fused path counts it. -/
theorem numel_eq :
    (if batch.mixed then batch.specTokenIndx.length
      else min batch.numActualTokens batch.positions.length) = batch.selected.length := by
  unfold Batch.selected
  dsimp only
  split
  · rw [List.length_map]
  · rw [List.length_take]

/-- Both paths give the same flags, whatever the new output tensor holds. -/
theorem fullFlagsFused_eq : fullFlagsFused batch blank = fullFlagsTorch batch := by
  have starts := batch.starts
  rw [fullFlagsFused, numel_eq]
  dsimp only
  split
  · rfl
  next tokens =>
    split
    next sequences =>
      have some_token : 0 < batch.selected.length := by omega
      rw [fullFlagsTorch_eq batch some_token]
      refine (launch_eq batch blank some_token _ _).trans (congrArg some ?_)
      have block : 0 < (if batch.n ≤ 64 then 64 else 256) := by split <;> decide
      have covers := (not_congr (Blocks.lt_cdiv batch.n _ _ block)).mp (lt_irrefl _)
      apply List.map_congr_left
      intro i listed
      exact if_pos (lt_of_lt_of_le (List.mem_range.mp listed) (Nat.not_lt.mp covers))
    next idle =>
      have none : batch.n = 0 := by omega
      rw [fullFlagsTorch_nil batch none, none]
      rfl

end Launch

section Windows

variable {batch : Batch} {i length : ℕ} {first : ℤ}

/-- The flag of a verify window is the flag of its first and last position. -/
theorem window_flag (window : batch.Window i first length) :
    batch.flag i = fullFlag batch.bs batch.lookahead first (first + length - 1) := by
  obtain ⟨start, starts, stops, positions⟩ := window.placed
  have positive := window.positive
  have place (j : ℕ) (below : j < length) : batch.at ((start + j : ℕ) : ℤ) = first + j := by
    have there := positions j below
    obtain ⟨inside, _⟩ := List.getElem?_eq_some_iff.mp there
    have same : clamp batch.hi ((start + j : ℕ) : ℤ) = ((start + j : ℕ) : ℤ) := by
      unfold clamp Batch.hi
      omega
    rw [Batch.at, same, tok, Int.toNat_natCast, List.getD_eq_getElem?_getD, there, Option.getD_some]
  have start_eq : tok batch.specQueryStartLoc i = (start : ℤ) := by
    rw [tok, Int.toNat_natCast, List.getD_eq_getElem?_getD, starts, Option.getD_some]
  have stop_eq : tok batch.specQueryStartLoc (i + 1) - 1 = ((start + (length - 1) : ℕ) : ℤ) := by
    rw [tok, show ((i : ℤ) + 1).toNat = i + 1 by omega, List.getD_eq_getElem?_getD, stops,
      Option.getD_some]
    omega
  have head := place 0 positive
  have final := place (length - 1) (by omega)
  rw [Nat.add_zero] at head
  rw [Batch.flag, start_eq, stop_eq, head, final]
  congr 1
  · omega
  · omega

/-- A window has selected tokens, so the reductions over its batch are over something. -/
theorem window_tokens (window : batch.Window i first length) : 0 < batch.selected.length := by
  obtain ⟨start, _, _, positions⟩ := window.placed
  obtain ⟨inside, _⟩ := List.getElem?_eq_some_iff.mp (positions 0 window.positive)
  exact Nat.zero_lt_of_lt inside

/-- A window whose flag is not set ends in the column in which the next window ends. -/
theorem next_column (window : batch.Window i first length) (unset : batch.flag i = 0)
    {accepted nextQuery : ℕ} (some_accepted : 1 ≤ accepted) (accepts : accepted ≤ length)
    (nonempty : 1 ≤ nextQuery) (bounded : nextQuery ≤ batch.lookahead + 1) :
    column batch.bs (first + length - 1) =
      column batch.bs (first + accepted + nextQuery - 1) := by
  rw [window_flag window, fullFlag_eq_zero] at unset
  have positive := window.positive
  have this_end : column batch.bs (first + length - 1) = column batch.bs first :=
    column_between batch.bs_pos unset (by omega) (by omega)
  have next_end : column batch.bs (first + accepted + nextQuery - 1) = column batch.bs first :=
    column_between batch.bs_pos unset (by omega) (by omega)
  rw [this_end, next_end]

end Windows

/-- The kernel and the tensor chain give the same flags; every sequence has one once some
token is selected. A verify window whose flag is not set ends in the state column in which
the next window ends, for every accepted count and every next length, so no slot with a
replay record is migrated. -/
theorem flags_keep_migrated_full (batch : Batch) (blank : ℕ → ℤ) :
    fullFlagsFused batch blank = fullFlagsTorch batch ∧
    (0 < batch.selected.length → ∃ flags, fullFlagsTorch batch = some flags ∧
      flags.length = batch.n) ∧
    ∀ flags, fullFlagsTorch batch = some flags → ∀ i first length flag,
      batch.Window i first length → flags[i]? = some flag →
      ∀ accepted nextQuery, 1 ≤ accepted → accepted ≤ length →
        1 ≤ nextQuery → nextQuery ≤ batch.lookahead + 1 →
        (flag = 0 → column batch.bs (first + length - 1) =
          column batch.bs (first + accepted + nextQuery - 1)) ∧
        migratedMarker batch.bs first length accepted nextQuery flag = false := by
  refine ⟨fullFlagsFused_eq batch blank, fun some_token => ?_, ?_⟩
  · exact ⟨_, fullFlagsTorch_eq batch some_token, by simp⟩
  · intro flags computed i first length flag window held accepted nextQuery one below one' below'
    rw [fullFlagsTorch_eq batch (window_tokens window), Option.some.injEq] at computed
    subst computed
    rw [List.getElem?_map, List.getElem?_range window.inside, Option.map_some,
      Option.some.injEq] at held
    have same : flag = 0 → _ := fun unset =>
      next_column window (held.trans unset) one below one' below'
    refine ⟨same, ?_⟩
    by_cases unset : flag = 0
    · simp [migratedMarker, same unset]
    · simp [migratedMarker, unset]

/-- One prefill token, a verify window that reaches the next block of 16, one that stays in
its block, and a padded sequence. -/
def crossing : Batch where
  positions := [99, 14, 15, 16, 40, 41, 0]
  numActualTokens := 6
  specTokenIndx := [1, 2, 3, 4, 5]
  nonSpecTokenIndx := some [0]
  specQueryStartLoc := [0, 3, 5, 5]
  n := 3
  bs := 16
  lookahead := 3
  bs_pos := by decide
  starts := by decide
  indices := by decide

/-- After the window that stays in its block the accepted state is not migrated, although its
slot holds a record. -/
theorem flags_keep_migrated_full_crossing :
    fullFlagsTorch crossing = some [1, 0, 0] ∧
      column 16 (40 + 2 - 1) = column 16 (40 + 2 + 4 - 1) ∧
      migratedMarker 16 40 2 2 4 0 = false := by
  have flags : fullFlagsTorch crossing = some [1, 0, 0] := by decide
  have window : crossing.Window 1 40 2 :=
    ⟨by decide, by decide, by decide, 3, by decide, by decide, by decide⟩
  obtain ⟨same, marker⟩ := (flags_keep_migrated_full crossing fun _ => 7).2.2 _ flags 1 40 2 0
    window rfl 2 4 (by decide) (by decide) (by decide) (by decide)
  exact ⟨flags, same rfl, marker⟩

end GlmSpark.BoundaryFlags
