import GlmSpark.KpoolSlots
import Mathlib.Algebra.BigOperators.Group.List.Basic

/-!
# From selected pools to tokens

The indexer selects pools; attention reads tokens. A kernel expands the pools a row
selected and appends the row's open pool, in column tiles. It does what the two tensor
functions it replaces do one after the other. Every token of the row's own context is
listed as often as its pool was selected, every token of its open pool once, and no other
token, in both layouts of a decode batch.
-/

namespace GlmSpark.KpoolTail

open Blocks Ragged

section Model

/-- Conversion to `int32`, which wraps around. -/
def int32 (n : ℤ) : ℤ := Int.bmod n (2 ^ 32)

/-- One row of `expand_pools_to_tokens`: every valid pool as its tokens, the others as blanks. -/
def expandPoolsToTokens (groupIds : List ℤ) (groupValid : List Bool) (poolSize : ℕ)
    (pageTable : Option (List ℤ)) (topkOffset : Option ℤ) : List ℤ :=
  let tokenIds := groupIds.flatMap fun id => (List.range poolSize).map fun (o : ℕ) =>
    id * (poolSize : ℤ) + (o : ℤ)
  let valid := groupValid.flatMap (List.replicate poolSize)
  let output := match pageTable, topkOffset with
    | some table, _ => tokenIds.map fun id =>
      int32 (table.getD (min (max id 0) ((table.length : ℤ) - 1)).toNat 0)
    | none, some offset => tokenIds.map fun id => int32 (id + offset)
    | none, none => tokenIds.map int32
  List.zipWith (fun (v : Bool) o => if v then o else -1) valid output

/-- One row of `append_tail_to_topk`. A row has at least one column: without any, `torch.gather`
raises on the clamped index where this row is the open pool alone. -/
def appendTailToTopk (topkResult : List ℤ) (seqLen poolLen : ℤ) (poolSize : ℕ)
    (pageTable : Option (List ℤ)) (topkOffset : Option ℤ) : List ℤ :=
  let tailPool := poolSize - 1
  if tailPool = 0 then topkResult
  else
    let nCols := topkResult.length
    let tailStart := poolLen * poolSize
    let tailCount := seqLen - tailStart
    (List.range (nCols + tailPool)).map fun (col : ℕ) =>
      let tailOff := (col : ℤ) - (nCols : ℤ)
      let tailRaw := tailStart + tailOff
      let tailVal := match pageTable, topkOffset with
        | some table, _ => int32 (table.getD (min (max tailRaw 0) ((table.length : ℤ) - 1)).toNat 0)
        | none, some offset => int32 (tailRaw + offset)
        | none, none => int32 tailRaw
      if 0 ≤ tailOff ∧ tailOff < tailCount then tailVal
      else if col < nCols then topkResult.getD (min col (nCols - 1)) (-1) else -1

/-- One column of `_expand_pools_and_append_tail_kernel`: a token of a selected pool, a token of the
open pool, or a blank. -/
def fusedColumn (poolIds : List ℤ) (seqLen : ℤ) (poolSize topk col : ℕ) : ℤ :=
  let poolLen := seqLen.tdiv poolSize
  let tailStart := poolLen * poolSize
  let tailCount := seqLen - tailStart
  let pid := if col < topk then poolIds.getD (col / poolSize) (-1) else -1
  let histOut := if 0 ≤ pid ∧ pid < poolLen then int32 (pid * poolSize + (col % poolSize : ℕ)) else -1
  let tailOff := (col : ℤ) - (topk : ℤ)
  let tailOut := if 0 ≤ tailOff ∧ tailOff < tailCount then int32 (tailStart + tailOff) else -1
  if col < topk then histOut else tailOut

/-- One row of `expand_pools_and_append_tail`: tiles of 128 columns, masked at the end. -/
def expandRow (poolIds : List ℤ) (seqLen : ℤ) (poolSize : ℕ) : List ℤ :=
  let topk := poolIds.length * poolSize
  let outCols := topk + poolSize - 1
  (List.range (cdiv outCols 128)).flatMap fun tile =>
    (((List.range 128).map (tile * 128 + ·)).filter (· < outCols)).map
      (fusedColumn poolIds seqLen poolSize topk)

/-- `expand_pools_and_append_tail`. -/
def expandPoolsAndAppendTail (poolIds : List (List ℤ)) (seqLens : List ℤ) (poolSize : ℕ) :
    List (List ℤ) :=
  List.zipWith (fun ids seqLen => expandRow ids seqLen poolSize) poolIds seqLens

/-- A row of the short-prefill fill: every token up to its own. -/
def shortRow (width : ℕ) (pos : ℤ) : List ℤ :=
  (List.range width).map fun (token : ℕ) => if pos < (token : ℤ) then -1 else token

/-- `unpack_seq_triton`, which is not part of the repository: of a grid with so many columns a request
it keeps the leading rows of each request, as many as the request has tokens. -/
structure Unpack where
  rows : List ℕ → ℕ → List (List ℤ) → List (List ℤ)
  unpacks : ∀ lens columns grid, (∀ len ∈ lens, len ≤ columns) → grid.length = lens.length * columns →
    rows lens columns grid =
      lens.zipIdx.flatMap fun (len, b) => (grid.drop (b * columns)).take len

/-- An unpacking by slices of the grid. -/
def Unpack.slices : Unpack where
  rows lens columns grid := lens.zipIdx.flatMap fun (len, b) => (grid.drop (b * columns)).take len
  unpacks _ _ _ _ _ := rfl

/-- The selection of a decode batch, token by token: rows of the padded grid are dropped again. -/
def decodeTopk (unpack : Unpack) (positions : List ℤ) (decodeLens : List ℕ) (numDecodeTokens nextN : ℕ)
    (requiresPadding : Bool) (poolTopk : List (List ℤ)) (kpool : ℕ) : List (List ℤ) :=
  let decSeq := decodeTopkSeqLens positions decodeLens numDecodeTokens decodeLens.length nextN
    requiresPadding
  let out := expandPoolsAndAppendTail poolTopk decSeq kpool
  if requiresPadding then unpack.rows decodeLens nextN out else out

end Model

section Tiles

/-- Tiles of one width, one after the other, are the columns. -/
theorem tiles_flatMap (width count : ℕ) :
    (List.range count).flatMap (fun tile => (List.range width).map (tile * width + ·)) =
      List.range (count * width) := by
  induction count with
  | zero => simp
  | succ count ih =>
    rw [List.range_succ, List.flatMap_append, ih, List.flatMap_singleton, Nat.succ_mul, List.range_add]

/-- Masking a longer range of columns at a bound leaves the columns below it. -/
theorem filter_range_lt {count bound : ℕ} (inside : bound ≤ count) :
    (List.range count).filter (fun column => decide (column < bound)) = List.range bound := by
  obtain ⟨more, rfl⟩ := Nat.exists_eq_add_of_le inside
  have early : (List.range bound).filter (fun column => decide (column < bound)) = List.range bound :=
    List.filter_eq_self.mpr fun column listed => decide_eq_true (List.mem_range.mp listed)
  have late : ((List.range more).map (bound + ·)).filter (fun column => decide (column < bound)) = [] := by
    refine List.filter_eq_nil_iff.mpr fun column listed => ?_
    obtain ⟨extra, _, rfl⟩ := List.mem_map.mp listed
    rw [decide_eq_true_iff]
    omega
  rw [List.range_add, List.filter_append, early, late, List.append_nil]

/-- Masked tiles that reach the end are the columns. -/
theorem tiles_masked {width columns : ℕ} (positive : 0 < width) {α : Type} (column : ℕ → α) :
    ((List.range (cdiv columns width)).flatMap fun tile =>
      (((List.range width).map (tile * width + ·)).filter (· < columns)).map column) =
      (List.range columns).map column := by
  have reach : columns ≤ cdiv columns width * width := by
    by_contra short
    exact Nat.lt_irrefl _ ((lt_cdiv columns width _ positive).mpr (Nat.lt_of_not_le short))
  rw [← List.map_flatMap, ← List.filter_flatMap, tiles_flatMap, filter_range_lt reach]

end Tiles

section Rows

/-- The tokens of a selected pool, or blanks where the id is no complete pool of the row. -/
def poolTokens (poolLen : ℤ) (poolSize : ℕ) (pid : ℤ) : List ℤ :=
  (List.range poolSize).map fun (o : ℕ) =>
    if 0 ≤ pid ∧ pid < poolLen then int32 (pid * poolSize + o) else -1

/-- The tokens of the open pool, filled up with blanks. -/
def tailTokens (seqLen poolLen : ℤ) (poolSize : ℕ) : List ℤ :=
  (List.range (poolSize - 1)).map fun (off : ℕ) =>
    if (off : ℤ) < seqLen - poolLen * poolSize then int32 (poolLen * poolSize + off) else -1

/-- Visiting a row by positions is visiting its entries in order. -/
theorem flatMap_range_getD {α β : Type} (list : List α) (default : α) (part : α → List β) :
    (List.range list.length).flatMap (fun i => part (list.getD i default)) = list.flatMap part := by
  have entries : (List.range list.length).map (fun i => list.getD i default) = list := by
    apply List.ext_getElem
    · simp
    · intro i _ inside
      simp [List.getD_eq_getElem?_getD, inside]
  rw [← List.flatMap_map, entries]

/-- The kernel's row: the tokens of every selected pool, then the open pool. -/
theorem expandRow_eq (poolIds : List ℤ) {seqLen : ℤ} (real : 0 ≤ seqLen) {poolSize : ℕ}
    (positive : 0 < poolSize) :
    expandRow poolIds seqLen poolSize =
      poolIds.flatMap (poolTokens (seqLen / poolSize) poolSize) ++
        tailTokens seqLen (seqLen / poolSize) poolSize := by
  have poolLen : seqLen.tdiv poolSize = seqLen / poolSize := Int.tdiv_eq_ediv_of_nonneg real
  rw [expandRow, tiles_masked (Nat.succ_pos 127), show poolIds.length * poolSize + poolSize - 1 =
    poolIds.length * poolSize + (poolSize - 1) by omega, List.range_add, List.map_append, List.map_map]
  congr 1
  · rw [← tiles_flatMap, List.map_flatMap, ← flatMap_range_getD poolIds (-1)]
    refine List.flatMap_congr fun g listed => ?_
    rw [List.map_map, poolTokens]
    refine List.map_congr_left fun o inside => ?_
    have group : g < poolIds.length := List.mem_range.mp listed
    have column : o < poolSize := List.mem_range.mp inside
    have history : g * poolSize + o < poolIds.length * poolSize := by
      have next := Nat.mul_le_mul_right poolSize group
      rw [Nat.succ_mul] at next
      omega
    rw [Function.comp_apply, fusedColumn, if_pos history, if_pos history, poolLen, Nat.mul_comm g,
      Nat.mul_add_div positive, Nat.div_eq_of_lt column, Nat.add_zero, Nat.mul_add_mod,
      Nat.mod_eq_of_lt column]
  · refine List.map_congr_left fun off _ => ?_
    have behind : ¬ poolIds.length * poolSize + off < poolIds.length * poolSize := by omega
    have place : ((poolIds.length * poolSize + off : ℕ) : ℤ) - (poolIds.length * poolSize : ℕ) = off := by
      omega
    rw [Function.comp_apply, fusedColumn, if_neg behind, poolLen, place]
    refine if_congr ⟨fun both => both.2, fun below => ⟨Int.natCast_nonneg off, below⟩⟩ rfl rfl

/-- The plain expansion of the pools below a bound. -/
theorem expandPoolsToTokens_eq (poolIds : List ℤ) (poolLen : ℤ) (poolSize : ℕ) :
    expandPoolsToTokens poolIds (poolIds.map fun pid => decide (0 ≤ pid ∧ pid < poolLen)) poolSize none
      none = poolIds.flatMap (poolTokens poolLen poolSize) := by
  rw [expandPoolsToTokens]
  induction poolIds with
  | nil => rfl
  | cons pid rest ih =>
    rw [List.map_cons, List.flatMap_cons, List.flatMap_cons, List.flatMap_cons, List.map_append,
      List.zipWith_append (by simp), ih]
    congr 1
    rw [poolTokens, List.map_map]
    apply List.ext_getElem
    · simp
    · intro o _ inside
      simp [Function.comp_def]

/-- The plain append of the open pool. -/
theorem appendTailToTopk_eq (topkResult : List ℤ) (seqLen poolLen : ℤ) (poolSize : ℕ) :
    appendTailToTopk topkResult seqLen poolLen poolSize none none =
      topkResult ++ tailTokens seqLen poolLen poolSize := by
  rw [appendTailToTopk, tailTokens]
  dsimp only
  split
  next single => rw [single, List.range_zero, List.map_nil, List.append_nil]
  next =>
    rw [List.range_add, List.map_append, List.map_map]
    congr 1
    · apply List.ext_getElem
      · simp
      · intro col _ inside
        have before : ¬ (0 ≤ (col : ℤ) - (topkResult.length : ℤ) ∧
            (col : ℤ) - (topkResult.length : ℤ) < seqLen - poolLen * poolSize) := by omega
        rw [List.getElem_map, List.getElem_range, if_neg before, if_pos inside,
          Nat.min_eq_left (by omega), List.getD_eq_getElem?_getD, List.getElem?_eq_getElem inside,
          Option.getD_some]
    · refine List.map_congr_left fun off _ => ?_
      have place : ((topkResult.length + off : ℕ) : ℤ) - (topkResult.length : ℤ) = off := by omega
      rw [Function.comp_apply, place]
      by_cases below : (off : ℤ) < seqLen - poolLen * poolSize
      · rw [if_pos ⟨Int.natCast_nonneg off, below⟩, if_pos below]
      · rw [if_neg fun both => below both.2, if_neg below, if_neg (by omega)]

/-- The fused kernel does what the two functions do one after the other. -/
theorem expandPoolsAndAppendTail_eq (poolIds : List (List ℤ)) {seqLens : List ℤ} {poolSize : ℕ}
    (positive : 0 < poolSize) (real : ∀ seqLen ∈ seqLens, 0 ≤ seqLen) :
    expandPoolsAndAppendTail poolIds seqLens poolSize =
      List.zipWith (fun (ids : List ℤ) (seqLen : ℤ) => appendTailToTopk
        (expandPoolsToTokens ids (ids.map fun pid => decide (0 ≤ pid ∧ pid < seqLen / poolSize))
          poolSize none none) seqLen (seqLen / poolSize) poolSize none none) poolIds seqLens := by
  rw [expandPoolsAndAppendTail]
  induction poolIds generalizing seqLens with
  | nil => rfl
  | cons ids rest ih =>
    cases seqLens with
    | nil => rfl
    | cons seqLen others =>
      rw [List.zipWith_cons_cons, List.zipWith_cons_cons,
        ih fun other listed => real other (List.mem_cons_of_mem _ listed),
        expandRow_eq ids (real seqLen List.mem_cons_self) positive, appendTailToTopk_eq,
        expandPoolsToTokens_eq]

/-- A closed run of it: a pool the row may not read, one it may, and an open pool. -/
theorem expandPoolsAndAppendTail_eq_two :
    expandPoolsAndAppendTail [[2, 0], [1, -1]] [7, 4] 3 =
      [appendTailToTopk (expandPoolsToTokens [2, 0] [false, true] 3 none none) 7 2 3 none none,
        appendTailToTopk (expandPoolsToTokens [1, -1] [false, false] 3 none none) 4 1 3 none none] :=
  expandPoolsAndAppendTail_eq [[2, 0], [1, -1]] (Nat.succ_pos 2) (by decide)

end Rows

section Tokens

variable {seqLen : ℤ} {poolSize : ℕ}

/-- A number in the range of `int32` is converted unchanged. -/
theorem int32_of_fits {n : ℤ} (real : 0 ≤ n) (fits : n < 2 ^ 31) : int32 n = n := by
  rw [int32]
  exact Int.bmod_eq_of_le (by omega) (by omega)

/-- The tokens of a pool below the open one, unconverted. -/
theorem poolTokens_valid (positive : 0 < poolSize) (fits : seqLen < 2 ^ 31) {pid : ℤ}
    (real : 0 ≤ pid) (below : pid < seqLen / poolSize) :
    poolTokens (seqLen / poolSize) poolSize pid =
      (List.range poolSize).map fun (o : ℕ) => pid * poolSize + (o : ℤ) := by
  refine List.map_congr_left fun o inside => ?_
  have column := List.mem_range.mp inside
  have start : 0 ≤ pid * poolSize := Int.mul_nonneg real (Int.natCast_nonneg _)
  have stop : (pid + 1) * poolSize ≤ seqLen :=
    (Int.le_ediv_iff_mul_le (Int.natCast_pos.mpr positive)).mp below
  rw [Int.add_mul, Int.one_mul] at stop
  rw [if_pos ⟨real, below⟩, int32_of_fits (by omega) (by omega)]

/-- A pool that is not complete lists nothing. -/
theorem poolTokens_invalid {poolLen pid : ℤ} (outside : ¬ (0 ≤ pid ∧ pid < poolLen)) :
    poolTokens poolLen poolSize pid = List.replicate poolSize (-1) := by
  rw [poolTokens, ← List.length_range (n := poolSize), ← List.map_const', List.length_range]
  exact List.map_congr_left fun o _ => if_neg outside

/-- How often a pool's expansion lists a token. -/
theorem count_poolTokens (positive : 0 < poolSize) (fits : seqLen < 2 ^ 31) (pid : ℤ) {token : ℤ}
    (real : 0 ≤ token) :
    (poolTokens (seqLen / poolSize) poolSize pid).count token =
      if token / poolSize < seqLen / poolSize ∧ pid = token / poolSize then 1 else 0 := by
  have around : (0 : ℤ) < poolSize := Int.natCast_pos.mpr positive
  have split := Int.mul_ediv_add_emod token poolSize
  by_cases valid : 0 ≤ pid ∧ pid < seqLen / poolSize
  · rw [poolTokens_valid positive fits valid.1 valid.2]
    split
    next own =>
      obtain ⟨_, rfl⟩ := own
      apply List.count_eq_one_of_mem
      · refine List.Nodup.map (fun o o' same => ?_) List.nodup_range
        exact Int.natCast_inj.mp (Int.add_left_cancel same)
      · refine List.mem_map.mpr ⟨(token % poolSize).toNat, List.mem_range.mpr ?_, ?_⟩
        · have := Int.emod_lt_of_pos token around
          omega
        · rw [Int.toNat_of_nonneg (Int.emod_nonneg _ (Int.ne_of_gt around)), Int.mul_comm]
          exact split
    next other =>
      refine List.count_eq_zero.mpr fun listed => other ?_
      obtain ⟨o, inside, rfl⟩ := List.mem_map.mp listed
      have column := List.mem_range.mp inside
      have pool : (pid * poolSize + o) / poolSize = pid := by
        rw [Int.add_comm, Int.add_mul_ediv_right _ _ (Int.ne_of_gt around),
          Int.ediv_eq_zero_of_lt (Int.natCast_nonneg o) (by omega), Int.zero_add]
      rw [pool]
      exact ⟨valid.2, rfl⟩
  · rw [poolTokens_invalid valid, List.count_eq_zero_of_not_mem fun listed => ?_, if_neg]
    · rintro ⟨below, rfl⟩
      exact valid ⟨Int.ediv_nonneg real (Int.natCast_nonneg _), below⟩
    · have blank := List.eq_of_mem_replicate listed
      omega

/-- The open pool's tokens and blanks behind them. -/
theorem tailTokens_eq (positive : 0 < poolSize) (fits : seqLen < 2 ^ 31) (nonnegative : 0 ≤ seqLen) :
    tailTokens seqLen (seqLen / poolSize) poolSize =
      ((List.range (seqLen % poolSize).toNat).map fun (off : ℕ) =>
        seqLen / poolSize * poolSize + (off : ℤ)) ++
      List.replicate (poolSize - 1 - (seqLen % poolSize).toNat) (-1) := by
  have around : (0 : ℤ) < poolSize := Int.natCast_pos.mpr positive
  have split := Int.ediv_mul_add_emod seqLen poolSize
  have low := Int.emod_nonneg seqLen (Int.ne_of_gt around)
  have high := Int.emod_lt_of_pos seqLen around
  have start : 0 ≤ seqLen / poolSize * poolSize :=
    Int.mul_nonneg (Int.ediv_nonneg nonnegative (Int.natCast_nonneg _)) (Int.natCast_nonneg _)
  obtain ⟨more, room⟩ : ∃ more, poolSize - 1 = (seqLen % poolSize).toNat + more :=
    ⟨poolSize - 1 - (seqLen % poolSize).toNat, by omega⟩
  rw [tailTokens, room, Nat.add_sub_cancel_left, List.range_add, List.map_append, List.map_map]
  congr 1
  · refine List.map_congr_left fun off inside => ?_
    have below := List.mem_range.mp inside
    rw [if_pos (by omega), int32_of_fits (by omega) (by omega)]
  · rw [← List.length_range (n := more), ← List.map_const', List.length_range]
    refine List.map_congr_left fun off _ => ?_
    rw [Function.comp_apply, if_neg (by omega)]

/-- How often the open pool lists a token. -/
theorem count_tailTokens (positive : 0 < poolSize) (fits : seqLen < 2 ^ 31) (nonnegative : 0 ≤ seqLen)
    {token : ℤ} (real : 0 ≤ token) :
    (tailTokens seqLen (seqLen / poolSize) poolSize).count token =
      if seqLen / poolSize ≤ token / poolSize ∧ token < seqLen then 1 else 0 := by
  have around : (0 : ℤ) < poolSize := Int.natCast_pos.mpr positive
  have split := Int.ediv_mul_add_emod seqLen poolSize
  have low := Int.emod_nonneg seqLen (Int.ne_of_gt around)
  have blanks : (List.replicate (poolSize - 1 - (seqLen % poolSize).toNat) (-1 : ℤ)).count token = 0 :=
    List.count_eq_zero_of_not_mem fun listed => by
      have blank := List.eq_of_mem_replicate listed
      omega
  have reach := @Int.le_ediv_iff_mul_le (seqLen / poolSize) token poolSize around
  rw [tailTokens_eq positive fits nonnegative, List.count_append, blanks, Nat.add_zero]
  split
  next inside =>
    have above := reach.mp inside.1
    apply List.count_eq_one_of_mem
    · exact List.nodup_range.map fun off off' same => Int.natCast_inj.mp (Int.add_left_cancel same)
    · refine List.mem_map.mpr ⟨(token - seqLen / poolSize * poolSize).toNat, List.mem_range.mpr ?_, ?_⟩
      · omega
      · omega
  next outside =>
    refine List.count_eq_zero.mpr fun listed => outside ?_
    obtain ⟨off, inside, rfl⟩ := List.mem_map.mp listed
    have below := List.mem_range.mp inside
    exact ⟨reach.mpr (by omega), by omega⟩

/-- How often a row lists a token: as often as its pool was selected, once in the open pool. -/
theorem count_expandRow (poolIds : List ℤ) (positive : 0 < poolSize) (fits : seqLen < 2 ^ 31)
    (nonnegative : 0 ≤ seqLen) {token : ℤ} (real : 0 ≤ token) :
    (expandRow poolIds seqLen poolSize).count token =
      if token / poolSize < seqLen / poolSize then poolIds.count (token / poolSize)
      else if token < seqLen then 1 else 0 := by
  have pools : (poolIds.flatMap (poolTokens (seqLen / poolSize) poolSize)).count token =
      if token / poolSize < seqLen / poolSize then poolIds.count (token / poolSize) else 0 := by
    induction poolIds with
    | nil => rw [List.flatMap_nil, List.count_nil, List.count_nil, ite_self]
    | cons pid rest ih =>
      rw [List.flatMap_cons, List.count_append, ih, count_poolTokens positive fits pid real,
        List.count_cons]
      by_cases below : token / poolSize < seqLen / poolSize
      · rw [if_pos below, if_pos below, Nat.add_comm]
        congr 1
        by_cases own : pid = token / poolSize
        · rw [if_pos ⟨below, own⟩, if_pos (beq_iff_eq.mpr own)]
        · rw [if_neg fun both => own both.2, if_neg fun same => own (beq_iff_eq.mp same)]
      · rw [if_neg below, if_neg below, if_neg fun both => below both.1]
  rw [expandRow_eq poolIds nonnegative positive, List.count_append, pools,
    count_tailTokens positive fits nonnegative real]
  by_cases below : token / poolSize < seqLen / poolSize
  · rw [if_pos below, if_pos below, if_neg (by omega), Nat.add_zero]
  · rw [if_neg below, if_neg below, Nat.zero_add]
    by_cases inside : token < seqLen
    · rw [if_pos ⟨by omega, inside⟩, if_pos inside]
    · rw [if_neg fun both => inside both.2, if_neg inside]

/-- Apart from blanks a row lists tokens only. -/
theorem ge_of_mem_expandRow (poolIds : List ℤ) (positive : 0 < poolSize) (fits : seqLen < 2 ^ 31)
    (nonnegative : 0 ≤ seqLen) {token : ℤ} (listed : token ∈ expandRow poolIds seqLen poolSize) :
    -1 ≤ token := by
  rw [expandRow_eq poolIds nonnegative positive] at listed
  rcases List.mem_append.mp listed with history | tail
  · obtain ⟨pid, _, inside⟩ := List.mem_flatMap.mp history
    by_cases valid : 0 ≤ pid ∧ pid < seqLen / poolSize
    · rw [poolTokens_valid positive fits valid.1 valid.2] at inside
      obtain ⟨o, _, rfl⟩ := List.mem_map.mp inside
      have start : 0 ≤ pid * poolSize := Int.mul_nonneg valid.1 (Int.natCast_nonneg _)
      omega
    · rw [poolTokens_invalid valid] at inside
      exact (List.eq_of_mem_replicate inside).ge
  · rw [tailTokens_eq positive fits nonnegative] at tail
    rcases List.mem_append.mp tail with own | blank
    · obtain ⟨off, _, rfl⟩ := List.mem_map.mp own
      have start : 0 ≤ seqLen / poolSize * poolSize :=
        Int.mul_nonneg (Int.ediv_nonneg nonnegative (Int.natCast_nonneg _)) (Int.natCast_nonneg _)
      omega
    · exact (List.eq_of_mem_replicate blank).ge

/-- A row of the token at `pos` lists its own context and nothing else: a complete pool as often as it
was selected, every token of the open pool once. -/
theorem expandRow_tokens (poolIds : List ℤ) (positive : 0 < poolSize) {pos : ℤ} (real : 0 ≤ pos)
    (fits : pos + 1 < 2 ^ 31) :
    (∀ token ∈ expandRow poolIds (pos + 1) poolSize, -1 ≤ token ∧ token ≤ pos) ∧
      ∀ token, 0 ≤ token → (expandRow poolIds (pos + 1) poolSize).count token =
        if token / poolSize < (pos + 1) / poolSize then poolIds.count (token / poolSize)
        else if token ≤ pos then 1 else 0 := by
  have around : (0 : ℤ) < poolSize := Int.natCast_pos.mpr positive
  have counts := fun token (nonnegative : 0 ≤ token) =>
    count_expandRow poolIds positive fits (show 0 ≤ pos + 1 by omega) nonnegative
  refine ⟨fun token listed => ⟨?_, ?_⟩, fun token nonnegative => ?_⟩
  · exact ge_of_mem_expandRow _ positive fits (by omega) listed
  · by_contra after
    have none := counts token (by omega)
    have order := Int.ediv_le_ediv around (show pos + 1 ≤ token by omega)
    rw [if_neg (by omega), if_neg (by omega)] at none
    exact List.count_eq_zero.mp none listed
  · rw [counts token nonnegative]
    refine if_congr Iff.rfl rfl (if_congr (by omega) rfl rfl)

/-- So a row that selected every complete pool once lists its own context once. -/
theorem count_expandRow_every {poolIds : List ℤ} (positive : 0 < poolSize) {pos : ℤ} (real : 0 ≤ pos)
    (fits : pos + 1 < 2 ^ 31)
    (every : ∀ pid, 0 ≤ pid → pid < (pos + 1) / poolSize → poolIds.count pid = 1) {token : ℤ}
    (nonnegative : 0 ≤ token) :
    (expandRow poolIds (pos + 1) poolSize).count token = if token ≤ pos then 1 else 0 := by
  have around : (0 : ℤ) < poolSize := Int.natCast_pos.mpr positive
  rw [(expandRow_tokens poolIds positive real fits).2 token nonnegative]
  by_cases below : token / poolSize < (pos + 1) / poolSize
  · have before : token ≤ pos := by
      by_contra after
      have order := Int.ediv_le_ediv around (show pos + 1 ≤ token by omega)
      omega
    rw [if_pos below, if_pos before,
      every _ (Int.ediv_nonneg nonnegative (Int.natCast_nonneg _)) below]
  · rw [if_neg below]

/-- How often the short-prefill fill lists a token. -/
theorem count_shortRow {width : ℕ} {pos token : ℤ} (wide : pos < width) (real : 0 ≤ token) :
    (shortRow width pos).count token = if token ≤ pos then 1 else 0 := by
  obtain ⟨more, room⟩ : ∃ more, width = (pos + 1).toNat + more :=
    ⟨width - (pos + 1).toNat, by omega⟩
  have causal : shortRow width pos =
      (List.range (pos + 1).toNat).map (fun (own : ℕ) => (own : ℤ)) ++ List.replicate more (-1) := by
    rw [shortRow, room, List.range_add, List.map_append, List.map_map]
    congr 1
    · refine List.map_congr_left fun own inside => ?_
      have below := List.mem_range.mp inside
      rw [if_neg (by omega)]
    · rw [← List.length_range (n := more), ← List.map_const', List.length_range]
      refine List.map_congr_left fun off _ => ?_
      rw [Function.comp_apply, if_pos (by omega)]
  have blanks : (List.replicate more (-1 : ℤ)).count token = 0 :=
    List.count_eq_zero_of_not_mem fun listed => by
      have blank := List.eq_of_mem_replicate listed
      omega
  rw [causal, List.count_append, blanks, Nat.add_zero]
  split
  next before =>
    apply List.count_eq_one_of_mem
    · exact List.nodup_range.map fun own own' same => Int.natCast_inj.mp same
    · exact List.mem_map.mpr ⟨token.toNat, List.mem_range.mpr (by omega), Int.toNat_of_nonneg real⟩
  next after =>
    refine List.count_eq_zero.mpr fun listed => after ?_
    obtain ⟨own, inside, rfl⟩ := List.mem_map.mp listed
    have below := List.mem_range.mp inside
    omega

/-- A row that lists its own context once has the tokens of the short-prefill fill. -/
theorem perm_shortRow {row : List ℤ} {width : ℕ} {pos : ℤ} (wide : pos < width)
    (counts : ∀ token, 0 ≤ token → row.count token = if token ≤ pos then 1 else 0) :
    (row.filter (0 ≤ ·)).Perm ((shortRow width pos).filter (0 ≤ ·)) := by
  rw [List.perm_iff_count]
  intro token
  by_cases inside : 0 ≤ token
  · rw [List.count_filter (by simpa using inside), List.count_filter (by simpa using inside),
      counts token inside, count_shortRow wide inside]
  · rw [List.count_eq_zero_of_not_mem, List.count_eq_zero_of_not_mem]
    · exact fun listed => inside (by simpa using (List.mem_filter.mp listed).2)
    · exact fun listed => inside (by simpa using (List.mem_filter.mp listed).2)

/-- When a row selects every complete pool once, the kernel's row and the short-prefill fill have the
same tokens. -/
theorem shortRow_perm {poolIds : List ℤ} {width : ℕ} {pos : ℤ} (positive : 0 < poolSize)
    (real : 0 ≤ pos) (fits : pos + 1 < 2 ^ 31) (wide : pos < width)
    (every : ∀ pid, 0 ≤ pid → pid < (pos + 1) / poolSize → poolIds.count pid = 1) :
    ((expandRow poolIds (pos + 1) poolSize).filter (0 ≤ ·)).Perm
      ((shortRow width pos).filter (0 ≤ ·)) :=
  perm_shortRow wide fun _ nonnegative =>
    count_expandRow_every positive real fits every nonnegative

/-- A row of ten tokens that selected its two complete pools of four. -/
theorem shortRow_perm_ten :
    ((expandRow [1, -1, 0] (9 + 1) 4).filter (0 ≤ ·)).Perm ((shortRow 16 9).filter (0 ≤ ·)) :=
  shortRow_perm (by decide) (by decide) (by decide) (by decide) fun pid real below => by
    have few : pid = 0 ∨ pid = 1 := by omega
    rcases few with rfl | rfl
    · rfl
    · rfl

end Tokens

section Decode

variable {rows : List (List ℤ)} {nextN : ℕ} {requiresPadding : Bool} {member t : ℕ}

/-- A batch comes in the padded grid, or every request brings as many tokens. -/
def Laid (rows : List (List ℤ)) (nextN : ℕ) (requiresPadding : Bool) : Prop :=
  if requiresPadding then ∀ row ∈ rows, row.length ≤ nextN else ∀ row ∈ rows, row.length = nextN

/-- No request of a decode batch has more tokens than the grid has columns. -/
theorem Laid.le (laid : Laid rows nextN requiresPadding) {row : List ℤ} (listed : row ∈ rows) :
    row.length ≤ nextN := by
  rw [Laid] at laid
  split at laid
  · exact laid row listed
  · exact (laid row listed).le

/-- The length of a grid row's context: its own position and one, none for a pad. -/
theorem decodeTopkSeqLens_getElem? (laid : Laid rows nextN requiresPadding) (rest : List ℤ)
    (inside : member < rows.length) (column : t < nextN) :
    (decodeTopkSeqLens (rows.flatten ++ rest) (rows.map List.length) rows.flatten.length rows.length
        nextN requiresPadding)[member * nextN + t]? =
      some ((((rows[member]?).bind fun row => row[t]?).map (· + 1)).getD 0) := by
  rw [decodeTopkSeqLens]
  cases requiresPadding with
  | true =>
    rw [if_pos rfl, List.take_left, List.flatMap_def]
    rw [flatten_uniform nextN _ (fun list listed => ?_) member t column, List.getElem?_map,
      List.getElem?_range inside, Option.map_some, Option.bind_some, List.getElem?_map,
      List.getElem?_range column, Option.map_some, scatter_rows rows (-1 : ℤ) member t]
    · cases (rows[member]?).bind fun row => row[t]? with
      | none => rfl
      | some position => rfl
    · obtain ⟨b, _, rfl⟩ := List.mem_map.mp listed
      rw [List.length_map, List.length_range]
  | false =>
    have uniform : ∀ row ∈ rows, row.length = nextN := laid
    have total : rows.flatten.length = rows.length * nextN := by
      rw [← offset_length, offset_uniform uniform (Nat.le_refl _)]
    have owned : t < rows[member].length := by
      rw [uniform _ (List.getElem_mem inside)]
      exact column
    rw [if_neg Bool.false_ne_true, ← total, List.take_left, List.getElem?_map,
      flatten_uniform nextN rows uniform member t column, List.getElem?_eq_getElem inside,
      Option.bind_some, List.getElem?_eq_getElem owned]
    rfl

/-- The grid has as many rows as the batch has requests times columns. -/
theorem decodeTopkSeqLens_length (laid : Laid rows nextN requiresPadding) (rest : List ℤ) :
    (decodeTopkSeqLens (rows.flatten ++ rest) (rows.map List.length) rows.flatten.length rows.length
      nextN requiresPadding).length = rows.length * nextN := by
  rw [decodeTopkSeqLens]
  cases requiresPadding with
  | true =>
    rw [if_pos rfl, List.flatMap_def]
    refine (offset_length _).symm.trans ((@offset_uniform _ _ nextN
      (fun list listed => ?_) _ (Nat.le_refl _)).trans ?_)
    · obtain ⟨b, _, rfl⟩ := List.mem_map.mp listed
      rw [List.length_map, List.length_range]
    · rw [List.length_map, List.length_range]
  | false =>
    have uniform : ∀ row ∈ rows, row.length = nextN := laid
    rw [if_neg Bool.false_ne_true, List.length_map, List.length_take_of_le]
    rw [List.length_append, ← offset_length, offset_uniform uniform (Nat.le_refl _)]
    exact Nat.le_add_right _ _

/-- Every decode token reads the pools its own grid row selected, with its own context. -/
theorem decodeTopk_getElem? (unpack : Unpack) (laid : Laid rows nextN requiresPadding) (rest : List ℤ)
    {poolTopk : List (List ℤ)} (grid : poolTopk.length = rows.length * nextN) (kpool : ℕ)
    (inside : member < rows.length) (owned : t < rows[member].length) :
    (decodeTopk unpack (rows.flatten ++ rest) (rows.map List.length) rows.flatten.length nextN
        requiresPadding poolTopk kpool)[offset rows member + t]? =
      some (expandRow (poolTopk.getD (member * nextN + t) []) (rows[member][t] + 1) kpool) := by
  have column : t < nextN := owned.trans_le (laid.le (List.getElem_mem inside))
  have bounded : member * nextN + t < rows.length * nextN := by
    have next := Nat.mul_le_mul_right nextN inside
    rw [Nat.succ_mul] at next
    omega
  have own := decodeTopkSeqLens_getElem? laid rest inside column
  rw [List.getElem?_eq_getElem inside, Option.bind_some, List.getElem?_eq_getElem owned,
    Option.map_some, Option.getD_some] at own
  obtain ⟨out, expanded⟩ : ∃ out, expandPoolsAndAppendTail poolTopk (decodeTopkSeqLens
    (rows.flatten ++ rest) (rows.map List.length) rows.flatten.length rows.length nextN
      requiresPadding) kpool = out := ⟨_, rfl⟩
  have here : out[member * nextN + t]? =
      some (expandRow (poolTopk.getD (member * nextN + t) []) (rows[member][t] + 1) kpool) := by
    rw [← expanded, expandPoolsAndAppendTail, List.getElem?_zipWith, own,
      List.getElem?_eq_getElem (grid ▸ bounded), List.getD_eq_getElem?_getD,
      List.getElem?_eq_getElem (grid ▸ bounded), Option.getD_some]
  have size : out.length = rows.length * nextN := by
    rw [← expanded, expandPoolsAndAppendTail, List.length_zipWith, grid,
      decodeTopkSeqLens_length laid, Nat.min_self]
  rw [decodeTopk, List.length_map, expanded]
  cases requiresPadding with
  | true =>
    have pieces : ∀ b < rows.length, ∀ len, len ≤ nextN →
        ((out.drop (b * nextN)).take len).length = len := by
      intro b below len short
      have next := Nat.mul_le_mul_right nextN below
      rw [Nat.succ_mul] at next
      exact List.length_take_of_le (by rw [List.length_drop, size]; omega)
    have lengths : ((rows.map List.length).zipIdx.map fun (len, b) =>
        (out.drop (b * nextN)).take len).map List.length = rows.map List.length := by
      apply List.ext_getElem
      · simp
      · intro b _ below
        have listed : b < rows.length := by simpa using below
        simpa using pieces b listed _ (laid.le (List.getElem_mem listed))
    have inside' : member < ((rows.map List.length).zipIdx.map fun (len, b) =>
        (out.drop (b * nextN)).take len).length := by simpa using inside
    have owned' : t < ((rows.map List.length).zipIdx.map fun (len, b) =>
        (out.drop (b * nextN)).take len)[member].length := by
      have length := pieces member inside _ (laid.le (List.getElem_mem inside))
      simpa only [List.getElem_map, List.getElem_zipIdx, Nat.zero_add, length] using owned
    have narrow : ∀ len ∈ rows.map List.length, len ≤ nextN := by
      intro len listed
      obtain ⟨row, among, rfl⟩ := List.mem_map.mp listed
      exact laid.le among
    rw [if_pos rfl, unpack.unpacks _ _ _ narrow (by rw [size, List.length_map]), List.flatMap_def,
      ← offset_of_lengths _ _ lengths,
      flatten_getElem? _ member t inside' owned', ← List.getElem?_eq_getElem owned']
    simp only [List.getElem_map, List.getElem_zipIdx, Nat.zero_add]
    rw [List.getElem?_take, if_pos owned, List.getElem?_drop]
    exact here
  | false =>
    have uniform : ∀ row ∈ rows, row.length = nextN := laid
    rw [if_neg Bool.false_ne_true, offset_uniform uniform (Nat.le_of_lt inside)]
    exact here

/-- In both layouts a decode token attends to its own context and nothing else: to a complete pool as
often as its own grid row selected it, to every token of its open pool once. -/
theorem decodeTopk_tokens (unpack : Unpack) (laid : Laid rows nextN requiresPadding) (rest : List ℤ)
    {poolTopk : List (List ℤ)} (grid : poolTopk.length = rows.length * nextN) {kpool : ℕ}
    (positive : 0 < kpool) (inside : member < rows.length) (owned : t < rows[member].length)
    (real : 0 ≤ rows[member][t]) (fits : rows[member][t] + 1 < 2 ^ 31) :
    ∃ row, (decodeTopk unpack (rows.flatten ++ rest) (rows.map List.length) rows.flatten.length nextN
        requiresPadding poolTopk kpool)[offset rows member + t]? = some row ∧
      (∀ token ∈ row, -1 ≤ token ∧ token ≤ rows[member][t]) ∧
      ∀ token, 0 ≤ token → row.count token =
        if token / kpool < (rows[member][t] + 1) / kpool then
          (poolTopk.getD (member * nextN + t) []).count (token / kpool)
        else if token ≤ rows[member][t] then 1 else 0 :=
  ⟨_, decodeTopk_getElem? unpack laid rest grid kpool inside owned,
    expandRow_tokens (poolTopk.getD (member * nextN + t) []) positive real fits⟩

/-- The second token of the second request of a padded batch. -/
theorem decodeTopk_tokens_padded :
    ∃ row, (decodeTopk .slices [5, 8, 9] [1, 2] 3 2 true [[0], [], [1, 0], [0, 1]] 4)[2]? = some row ∧
      (∀ token ∈ row, -1 ≤ token ∧ token ≤ 9) ∧
      ∀ token, 0 ≤ token → row.count token =
        if token / 4 < (9 + 1) / 4 then ([0, 1] : List ℤ).count (token / 4)
        else if token ≤ 9 then 1 else 0 :=
  @decodeTopk_tokens [[5], [8, 9]] 2 true 1 1 .slices (by
    intro row listed
    rcases List.mem_cons.mp listed with rfl | listed
    · decide
    · rw [List.mem_singleton.mp listed]
      decide) [] [[0], [], [1, 0], [0, 1]] rfl 4 (by decide) (by decide) (by decide) (by decide)
    (by decide)

end Decode

end GlmSpark.KpoolTail
