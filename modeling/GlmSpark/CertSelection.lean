import GlmSpark.VocabArgmax
import Mathlib.Data.List.Perm.Basic
import Mathlib.Order.WithBot

/-!
# Certified selection of the target head

A screen gives every (row, id) pair an interval around the value the stock head
would compute. Only ids whose upper end reaches the greatest lower end of some
row are computed again; the selection runs on those. When they do not fit the
candidate list, or there are none, the whole shard is computed instead. A
non-finite screen on any rank sends the step to the stock sampler on every rank.

`CertMath` is the reference and the device functions are the kernels and their
host code: the candidates are collected by programs in any order, gathered into a
bucket, and selected in chunks. Both are shown to select what the stock head
selects, on one shard and over all ranks.

Values form a linear order whose least element is minus infinity. With Gumbel
noise the value of a pair is the perturbed one, and so are the interval ends.
-/

namespace GlmSpark.CertSelection

open Blocks FirstMaximum Ragged VocabArgmax

universe u
variable {V : Type u} [LinearOrder V] [OrderBot V] {rows : Nat}

/-- The greatest int32, the id that stands for no match. -/
def intMax : Nat := 2147483647

/-- `ST_OK`, `ST_LOCAL_STOCK` and `ST_NONFINITE`: whether a rank certified its candidates, fell back
to its own stock logits, or saw a value that is not finite. -/
inductive Status where
  | ok
  | localStock
  | nonfinite
deriving DecidableEq, Repr

/-- The value a status has in the gathered pairs. -/
def Status.code : Status → Nat
  | .ok => 0
  | .localStock => 1
  | .nonfinite => 2

/-- One rank's shard in one step: its width, whether rows and screen are finite,
the interval ends, the stock values, the mask, and the values that come out when
any list of ids is computed together. The interval holds the stock value, and a
value does not depend on the ids computed with it. Local ids are int32. -/
structure Shard (V : Type u) [LinearOrder V] [OrderBot V] (rows : Nat) where
  width : Nat
  finite : Bool
  lo : Nat → Nat → V
  hi : Nat → Nat → V
  stock : Nat → Nat → V
  mask : Nat → Nat → Bool
  logits : List Nat → Nat → List V
  nonempty : 0 < width
  int32 : width ≤ intMax
  bounded : finite = true → ∀ row < rows, ∀ id < width, lo row id ≤ stock row id ∧
    stock row id ≤ hi row id
  subset_eq_full : ∀ ids row, logits ids row = ids.map (stock row)

/-- An arbitrary order of a collected list. -/
structure Arrangement where
  apply : List Nat → List Nat
  perm : ∀ ids, (apply ids).Perm ids

/-- What a rank reports for its rows. -/
structure LocalResult (V : Type u) where
  best : Nat → V × Nat
  status : Status

/-- `_final_kernel` and its mirror `final_select`: the first maximum found in chunks
of 1024, an id that stayed at the ceiling replaced by 0. -/
def finalSelect (values : List V) (ids : List Nat) : V × Nat :=
  let entries := values.zip ids
  let best := (List.range (cdiv entries.length 1024)).foldl (fun best c =>
    let (mx, im) := select (chunk 1024 entries c)
    better best (mx, im.getD intMax)) (⊥, intMax)
  (best.1, if best.2 = intMax then 0 else best.2)

namespace Shard

variable (shard : Shard V rows)

/-- `np.where(mask, -inf, values)` on the values of some ids. -/
def masked (row : Nat) (ids : List Nat) (values : List V) : List V :=
  List.zipWith (fun id value => if shard.mask row id then ⊥ else value) ids values

/-- All local ids. -/
def ids : List Nat := List.range shard.width

/-- `lo.max(axis=1)` after the mask: what the best column of a row reaches at least. -/
def threshold (row : Nat) : V :=
  maxValue (shard.masked row shard.ids (shard.ids.map (shard.lo row)))

/-- `hi >= T`, after the mask: the columns whose upper bound reaches the threshold. -/
def candidate (row id : Nat) : Bool :=
  decide (shard.threshold row ≤ if shard.mask row id then ⊥ else shard.hi row id)

/-- The union over the rows: the exact logits are computed once for all of them. -/
def candidateAny (id : Nat) : Bool := (List.range rows).any fun row => shard.candidate row id

/-- The candidate ids of the step in ascending order. -/
def union : List Nat := shard.ids.filter shard.candidateAny

/-- The stock values of a row after the mask. -/
def stockRow (row : Nat) : List V := shard.masked row shard.ids (shard.logits shard.ids row)

/-- `stock_local`, one row: the first maximum of all the shard's logits. -/
def stockLocal (row : Nat) : V × Nat :=
  let chosen := select ((shard.stockRow row).zip shard.ids)
  (chosen.1, chosen.2.getD 0)

end Shard

namespace CertMath

/-- `cert_math.cert_local`. -/
def certLocal (shard : Shard V rows) (cap : Nat) (order : Arrangement) : LocalResult V :=
  if shard.finite then
    let n := shard.union.length
    let fallback := n > cap ∨ n = 0
    let ids := order.apply (if fallback then shard.ids else shard.union)
    { best := fun row => finalSelect (shard.masked row ids (shard.logits ids row)) ids
      status := if fallback then .localStock else .ok }
  else { best := fun _ => (⊥, 0), status := .nonfinite }

/-- `cert_math.reduce_ranks`, one row: the first rank with a greatest value. -/
def reduceRanks (results : List (LocalResult V)) (starts : List Nat) (row : Nat) : Nat :=
  let vals := results.map fun result => (result.best row).1
  let ids := List.zipWith (fun result start => (result.best row).2 + start) results starts
  ids.getD (argmax vals) 0

/-- `cert_math.step_tp`, one row: `none` is the stock sampler. -/
def stepTp (results : List (LocalResult V)) (starts : List Nat) (row : Nat) : Option Nat :=
  if results.any fun result => result.status = .nonfinite then none
  else some (reduceRanks results starts row)

end CertMath

/-- `BUCKETS` for a candidate capacity, and the first one that fits. -/
def bucketFor (cap n : Nat) : Nat :=
  (([64, 128, 256, 512, 1024, 2048, 4096].filter (· ≤ cap)).find? (n ≤ ·)).getD cap

/-- How the candidates are computed again. -/
inductive Refine where
  | gemm
  | kernel
deriving DecidableEq, Repr

/-- `_select_kernel`: every program compacts its own ids, and the programs reserve
their places in any order. -/
def selectKernel (shard : Shard V rows) (programs : Arrangement) : List Nat :=
  let bs := max 128 (16384 / max 16 (Nat.nextPowerOfTwo rows))
  (programs.apply (List.range (cdiv shard.width bs))).flatMap fun pid =>
    (chunk bs shard.ids pid).filter shard.candidateAny

/-- `glm_cert_head.cert_local`. The ids are global, `noisy` says that Gumbel noise is
part of the values. -/
def certLocal (shard : Shard V rows) (vstart cap : Nat) (programs : Arrangement) (refine : Refine)
    (noisy : Bool) : LocalResult V :=
  let collected := selectKernel shard programs
  let count := collected.length
  let final := fun row (cand : List V) (ids : List Nat) (n : Nat) =>
    let best := finalSelect (shard.masked row (ids.take n) (cand.take n)) (ids.take n)
    (best.1, best.2 + vstart)
  if shard.finite = false then { best := fun _ => (⊥, vstart), status := .nonfinite }
  else if count > cap ∨ count = 0 then
    { best := fun row =>
        if noisy then final row (shard.logits shard.ids row) shard.ids shard.width
        else
          let found := localArgmax (shard.masked row shard.ids (shard.logits shard.ids row))
          (found.1, found.2 + vstart)
      status := .localStock }
  else
    let ids := (collected ++ List.replicate (cap - count) 0).take cap
    match refine with
    | .gemm => { best := fun row => final row (shard.logits (ids.take (bucketFor cap count)) row) ids count
                 status := .ok }
    | .kernel => { best := fun row => final row (shard.logits (ids.take count) row) ids count
                   status := .ok }

/-- What every rank sends for a row. -/
def gatheredPairs (results : List (LocalResult V)) (row : Nat) : List (Pair V) :=
  results.map fun result => packPair (result.best row) result.status.code

/-- `_certified` on one rank and row, from its own result and the gathered ones:
`none` is the stock sampler. -/
def certified (results : List (LocalResult V)) (own : LocalResult V) (row : Nat) : Option Nat :=
  let gathered := gatheredPairs results row
  if gathered.any fun pair => pair.status ≥ Status.nonfinite.code then none
  else if results.length > 1 then some (reducePairs gathered)
  else some (own.best row).2

section FinalSelection

/-- After some chunks the running best is the start if nothing was seen, and else
the first maximum of what was seen. -/
theorem chunks_invariant (entries : List (V × Nat)) (ids : ∀ entry ∈ entries, entry.2 < intMax)
    (count : Nat) (inside : count ≤ cdiv entries.length 1024) :
    let best := (List.range count).foldl (fun best c =>
      let (mx, im) := select (chunk 1024 entries c)
      better best (mx, im.getD intMax)) (⊥, intMax)
    if count = 0 then best = (⊥, intMax) else IsFirst (entries.take (count * 1024)) best := by
  induction count with
  | zero => rfl
  | succ count ih =>
    have started : count * 1024 < entries.length := (lt_cdiv _ _ _ (by decide)).mp inside
    obtain ⟨top, first⟩ :=
      IsFirst.exists_of_nonempty (chunk_ne_nil 1024 entries count (by decide) started)
    have before := ih (Nat.le_of_succ_le inside)
    simp only [List.range_succ, List.foldl_append, List.foldl_cons, List.foldl_nil, Nat.succ_ne_zero,
      if_false, select_isFirst first, Option.getD_some]
    rw [take_chunk]
    by_cases initial : count = 0
    · simp only [if_pos initial] at before
      have below : top.2 < intMax :=
        ids top (List.mem_of_mem_drop (List.mem_of_mem_take first.present))
      have taken : better (⊥, intMax) top = top := by
        refine if_pos ?_
        rcases eq_or_ne top.1 ⊥ with least | other
        · exact Or.inr ⟨least, below⟩
        · exact Or.inl (bot_lt_iff_ne_bot.mpr other)
      rw [before, show ((top.1, top.2) : V × Nat) = top from rfl, taken]
      simpa [initial] using first
    · simp only [if_neg initial] at before
      exact before.append first

/-- The chunked selection is the first maximum of its entries. -/
theorem finalSelect_isFirst (values : List V) (ids : List Nat) (nonempty : values.zip ids ≠ [])
    (small : ∀ id ∈ ids, id < intMax) : IsFirst (values.zip ids) (finalSelect values ids) := by
  have below : ∀ entry ∈ values.zip ids, entry.2 < intMax := fun entry member =>
    small entry.2 (List.of_mem_zip member).2
  have length : 0 < (values.zip ids).length := List.length_pos_of_ne_nil nonempty
  have some_chunk : cdiv (values.zip ids).length 1024 ≠ 0 :=
    ((lt_cdiv _ _ 0 (by decide)).mpr (by simpa using length)).ne'
  have whole : (values.zip ids).length ≤ cdiv (values.zip ids).length 1024 * 1024 :=
    Nat.le_of_not_lt fun short => absurd ((lt_cdiv _ _ _ (by decide)).mpr short) (lt_irrefl _)
  have first := chunks_invariant (values.zip ids) below _ le_rfl
  simp only [some_chunk, if_false] at first
  rw [List.take_of_length_le whole] at first
  have real := (below _ first.present).ne
  unfold finalSelect
  simp only [real, if_false]
  exact first

end FinalSelection

namespace Shard

variable (shard : Shard V rows)

/-- The value the stock selection sees for a pair. -/
def value (row id : Nat) : V := if shard.mask row id then ⊥ else shard.stock row id

/-- A row's pairs of value and local id. -/
def entries (row : Nat) : List (V × Nat) := shard.ids.map fun id => (shard.value row id, id)

/-- Masking a list of values keeps each value at its id. -/
theorem masked_zip (row : Nat) (ids : List Nat) (f : Nat → V) :
    (shard.masked row ids (ids.map f)).zip ids =
      ids.map fun id => (if shard.mask row id then ⊥ else f id, id) := by
  induction ids with
  | nil => rfl
  | cons id rest ih =>
    simp only [masked, List.map_cons, List.zipWith_cons_cons, List.zip_cons_cons, List.cons.injEq,
      true_and]
    exact ih

/-- Masking acts on every candidate on its own, so it passes through a map over the ids. -/
theorem masked_map (row : Nat) (ids : List Nat) (f : Nat → V) :
    shard.masked row ids (ids.map f) = ids.map fun id => if shard.mask row id then ⊥ else f id := by
  induction ids with
  | nil => rfl
  | cons id rest ih =>
    simp only [masked, List.map_cons, List.zipWith_cons_cons, List.cons.injEq, true_and]
    exact ih

/-- Whatever ids are computed together, each one gets its stock value. -/
theorem computed_entries (row : Nat) (ids : List Nat) :
    (shard.masked row ids (shard.logits ids row)).zip ids =
      ids.map fun id => (shard.value row id, id) := by
  rw [shard.subset_eq_full, masked_zip]
  rfl

/-- A shard owns at least one column, so there is always a pair to select, if only one with the
bottom value. -/
theorem entries_nonempty (row : Nat) : shard.entries row ≠ [] := by
  simp [entries, ids, shard.nonempty.ne']

/-- The stock selection is the first maximum of the row's pairs. -/
theorem stockLocal_isFirst (row : Nat) : IsFirst (shard.entries row) (shard.stockLocal row) := by
  obtain ⟨best, first⟩ := IsFirst.exists_of_nonempty (shard.entries_nonempty row)
  have answer : shard.stockLocal row = best := by
    unfold stockLocal stockRow
    rw [computed_entries]
    have chosen := select_isFirst first
    simp only [entries] at chosen
    simp only [chosen, Option.getD_some]
  exact answer ▸ first

/-- A pair whose value no other pair of the row exceeds is a candidate of the
row: its upper end is not below its value, and the threshold is a lower end. -/
theorem maximal_candidate (finite : shard.finite = true) (row : Nat) (inside : row < rows) (id : Nat)
    (owned : id < shard.width)
    (maximal : ∀ rival < shard.width, shard.value row rival ≤ shard.value row id) :
    shard.candidate row id = true := by
  have bounds : ∀ other < shard.width,
      (if shard.mask row other then ⊥ else shard.lo row other) ≤ shard.value row other ∧
        shard.value row other ≤ if shard.mask row other then ⊥ else shard.hi row other := by
    intro other there
    unfold value
    split
    · exact ⟨le_rfl, le_rfl⟩
    · exact shard.bounded finite row inside other there
  have some_value : shard.masked row shard.ids (shard.ids.map (shard.lo row)) ≠ [] := by
    rw [masked_map]
    simp [ids, shard.nonempty.ne']
  have attained := maxValue_mem some_value
  rw [masked_map] at attained
  obtain ⟨other, there, reached⟩ := List.mem_map.mp attained
  have other_inside : other < shard.width := List.mem_range.mp there
  have threshold : shard.threshold row ≤ if shard.mask row id then ⊥ else shard.hi row id := by
    unfold Shard.threshold
    rw [masked_map, ← reached]
    exact ((bounds other other_inside).1.trans (maximal other other_inside)).trans (bounds id owned).2
  exact decide_eq_true threshold

/-- Any ids of the shard among which are all maximal ones select as the stock
head does. -/
theorem select_covering (row : Nat) (ids : List Nat) (part : ∀ id ∈ ids, id < shard.width)
    (covers : ∀ id < shard.width,
      (∀ rival < shard.width, shard.value row rival ≤ shard.value row id) → id ∈ ids) :
    finalSelect (shard.masked row ids (shard.logits ids row)) ids = shard.stockLocal row := by
  have keeps : ∀ entry ∈ shard.entries row,
      (∀ rival ∈ shard.entries row, rival.1 ≤ entry.1) →
        entry ∈ ids.map fun id => (shard.value row id, id) := by
    intro entry member greatest
    obtain ⟨id, there, rfl⟩ := List.mem_map.mp member
    apply List.mem_map_of_mem
    apply covers id (List.mem_range.mp there)
    intro rival inside
    exact greatest (shard.value row rival, rival)
      (List.mem_map_of_mem (List.mem_range.mpr inside))
  have nonempty : ids.map (fun id => (shard.value row id, id)) ≠ [] :=
    List.ne_nil_of_mem (keeps _ (shard.stockLocal_isFirst row).present
      (shard.stockLocal_isFirst row).greatest)
  have first := finalSelect_isFirst (shard.masked row ids (shard.logits ids row)) ids
    (by rw [computed_entries]; exact nonempty)
    (fun id member => lt_of_lt_of_le (part id member) shard.int32)
  rw [computed_entries] at first
  refine (first.of_part ?_ keeps).unique (shard.stockLocal_isFirst row)
  intro entry member
  obtain ⟨id, there, rfl⟩ := List.mem_map.mp member
  exact List.mem_map_of_mem (List.mem_range.mpr (part id there))

/-- The candidates of a finite step cover the maximal pairs of each of its rows. -/
theorem union_covers (finite : shard.finite = true) (row : Nat) (inside : row < rows) (id : Nat)
    (owned : id < shard.width)
    (maximal : ∀ rival < shard.width, shard.value row rival ≤ shard.value row id) :
    id ∈ shard.union := by
  refine List.mem_filter.mpr ⟨List.mem_range.mpr owned, ?_⟩
  refine List.any_eq_true.mpr ⟨row, List.mem_range.mpr inside, ?_⟩
  exact shard.maximal_candidate finite row inside id owned maximal

/-- Every id of the candidate union is a column of the shard. The exact scores are computed at these
columns only. -/
theorem union_inside (id : Nat) (member : id ∈ shard.union) : id < shard.width :=
  List.mem_range.mp (List.mem_filter.mp member).1

end Shard

section Local

variable (shard : Shard V rows)

/-- The reference path selects what the stock head selects. -/
theorem cert_local_reference (cap : Nat) (order : Arrangement) (finite : shard.finite = true)
    (row : Nat) (inside : row < rows) :
    (CertMath.certLocal shard cap order).best row = shard.stockLocal row := by
  simp only [CertMath.certLocal, finite, if_true]
  by_cases fallback : shard.union.length > cap ∨ shard.union.length = 0
  · simp only [fallback, if_true]
    apply shard.select_covering row
    · intro id member
      exact List.mem_range.mp ((order.perm _).mem_iff.mp member)
    · intro id owned _
      exact (order.perm _).mem_iff.mpr (List.mem_range.mpr owned)
  · simp only [fallback, if_false]
    apply shard.select_covering row
    · intro id member
      exact shard.union_inside id ((order.perm _).mem_iff.mp member)
    · intro id owned maximal
      exact (order.perm _).mem_iff.mpr (shard.union_covers finite row inside id owned maximal)

/-- The programs of the device collect exactly the candidates. -/
theorem selectKernel_perm (programs : Arrangement) :
    (selectKernel shard programs).Perm shard.union := by
  have size : 0 < max 128 (16384 / max 16 (Nat.nextPowerOfTwo rows)) := by simp
  have inOrder : ∀ bs, 0 < bs →
      (List.range (cdiv shard.width bs)).flatMap (fun pid =>
        (chunk bs shard.ids pid).filter shard.candidateAny) = shard.union := by
    intro bs positive
    have whole : shard.ids.length ≤ cdiv shard.width bs * bs := by
      simp only [Shard.ids, List.length_range]
      exact Nat.le_of_not_lt fun short => absurd ((lt_cdiv _ _ _ positive).mpr short) (lt_irrefl _)
    rw [← List.filter_flatMap, List.flatMap_def, chunks_flatten, List.take_of_length_le whole]
    rfl
  have reordered := List.Perm.flatMap_right (fun pid =>
    (chunk (max 128 (16384 / max 16 (Nat.nextPowerOfTwo rows))) shard.ids pid).filter
      shard.candidateAny) (programs.perm (List.range (cdiv shard.width
        (max 128 (16384 / max 16 (Nat.nextPowerOfTwo rows))))))
  rw [inOrder _ size] at reordered
  exact reordered

/-- A bucket is never smaller than the count it is chosen for. -/
theorem le_bucketFor (cap n : Nat) (fits : n ≤ cap) : n ≤ bucketFor cap n := by
  unfold bucketFor
  cases found : ([64, 128, 256, 512, 1024, 2048, 4096].filter (· ≤ cap)).find? (n ≤ ·) with
  | none => simpa using fits
  | some bucket => simpa using List.find?_some found

/-- The device path selects what the stock head selects, under global ids. -/
theorem cert_local_device (vstart cap : Nat) (programs : Arrangement) (refine : Refine) (noisy : Bool)
    (finite : shard.finite = true) (row : Nat) (inside : row < rows) :
    (certLocal shard vstart cap programs refine noisy).best row =
      ((shard.stockLocal row).1, (shard.stockLocal row).2 + vstart) := by
  have compacted := selectKernel_perm shard programs
  simp only [certLocal, finite, Bool.true_eq_false, if_false]
  by_cases overflow : (selectKernel shard programs).length > cap ∨
      (selectKernel shard programs).length = 0
  · simp only [overflow, if_true]
    cases noisy with
    | true =>
      have all : shard.ids.take shard.width = shard.ids := by simp [Shard.ids]
      have values : (shard.logits shard.ids row).take shard.width = shard.logits shard.ids row := by
        rw [shard.subset_eq_full, ← List.map_take, all]
      simp only [if_true, all, values]
      rw [shard.select_covering row shard.ids (fun id member => List.mem_range.mp member)
        (fun id owned _ => List.mem_range.mpr owned)]
    | false =>
      have pairs : (shard.stockRow row).zipIdx = shard.entries row := by
        have width : (shard.stockRow row).length = shard.width := by
          simp [Shard.stockRow, Shard.masked, Shard.ids, shard.subset_eq_full]
        rw [List.zipIdx_eq_zip_range', width, ← List.range_eq_range']
        exact shard.computed_entries row shard.ids
      have some_logit : shard.stockRow row ≠ [] := by
        intro none
        exact shard.entries_nonempty row (by rw [← pairs, none, List.zipIdx_nil])
      have first := localArgmax_isFirst some_logit
      rw [pairs] at first
      have same := first.unique (shard.stockLocal_isFirst row)
      simp only [Bool.false_eq_true, if_false]
      rw [← same]
      rfl
  · have fits : (selectKernel shard programs).length ≤ cap :=
      Nat.le_of_not_lt fun large => overflow (Or.inl large)
    have stored : ((selectKernel shard programs ++
        List.replicate (cap - (selectKernel shard programs).length) 0).take cap).take
          (selectKernel shard programs).length = selectKernel shard programs := by
      rw [List.take_take, Nat.min_eq_left fits, List.take_left]
    have selected : finalSelect (shard.masked row (selectKernel shard programs)
        (shard.logits (selectKernel shard programs) row)) (selectKernel shard programs) =
          shard.stockLocal row := by
      apply shard.select_covering row
      · intro id member
        exact shard.union_inside id (compacted.mem_iff.mp member)
      · intro id owned maximal
        exact compacted.mem_iff.mpr (shard.union_covers finite row inside id owned maximal)
    simp only [overflow, if_false]
    cases refine with
    | gemm =>
      have gathered : (shard.logits (((selectKernel shard programs ++
          List.replicate (cap - (selectKernel shard programs).length) 0).take cap).take
            (bucketFor cap (selectKernel shard programs).length)) row).take
              (selectKernel shard programs).length =
            shard.logits (selectKernel shard programs) row := by
        rw [shard.subset_eq_full, shard.subset_eq_full, ← List.map_take, List.take_take,
          Nat.min_eq_left (le_bucketFor cap _ fits), stored]
      simp only [gathered, stored, selected]
    | kernel =>
      have gathered : (shard.logits (selectKernel shard programs) row).take
          (selectKernel shard programs).length = shard.logits (selectKernel shard programs) row := by
        rw [shard.subset_eq_full, ← List.map_take, List.take_length]
      simp only [stored, gathered, selected]

/-- Both paths report a non-finite step exactly when the shard is not finite. -/
theorem status_nonfinite (vstart cap : Nat) (order : Arrangement) (refine : Refine) (noisy : Bool) :
    ((CertMath.certLocal shard cap order).status = .nonfinite ↔ shard.finite = false) ∧
      ((certLocal shard vstart cap order refine noisy).status = .nonfinite ↔
        shard.finite = false) := by
  cases finite : shard.finite with
  | false => simp [CertMath.certLocal, certLocal, finite]
  | true =>
    constructor
    · simp only [CertMath.certLocal, finite, if_true]
      split <;> simp
    · simp only [certLocal, finite, Bool.true_eq_false, if_false]
      split
      · simp
      · cases refine <;> simp

end Local

/-- The shards of one step in rank order; together they are the vocabulary. -/
structure Vocabulary (V : Type u) [LinearOrder V] [OrderBot V] (rows : Nat) where
  shards : List (Shard V rows)
  nonempty : shards ≠ []

namespace Vocabulary

variable (vocab : Vocabulary V rows)

/-- The first global id of a rank. -/
def start (rank : Nat) : Nat := ((vocab.shards.take rank).map Shard.width).sum

/-- The number of ids of all ranks. -/
def total : Nat := vocab.start vocab.shards.length

/-- A row's stock values over the whole vocabulary. -/
def stockRow (row : Nat) : List V := (vocab.shards.map fun shard => shard.stockRow row).flatten

/-- The stock argmax of a row over the whole vocabulary: the greatest value and the
lowest global id with it. -/
def stockGlobal (row : Nat) : V × Nat :=
  let values := vocab.stockRow row
  let chosen := select (values.zip (List.range values.length))
  (chosen.1, chosen.2.getD 0)

/-- What the step must answer for a row: the stock argmax, or the stock sampler when
some rank is not finite. -/
def outcome (row : Nat) : Option Nat :=
  if vocab.shards.all Shard.finite then some (vocab.stockGlobal row).2 else none

/-- The reference results of all ranks, each rank with its own collection order. -/
def referenceResults (cap : Nat) (orders : Nat → Arrangement) : List (LocalResult V) :=
  vocab.shards.zipIdx.map fun (shard, rank) => CertMath.certLocal shard cap (orders rank)

/-- The device results of all ranks, each with an order of its programs. -/
def deviceResults (cap : Nat) (orders : Nat → Arrangement) (refine : Refine) (noisy : Bool) :
    List (LocalResult V) :=
  vocab.shards.zipIdx.map fun (shard, rank) =>
    certLocal shard (vocab.start rank) cap (orders rank) refine noisy

/-- A row's pairs of one rank under global ids. -/
def globalEntries (row : Nat) (owner : Shard V rows × Nat) : List (V × Nat) :=
  (owner.1.entries row).map fun entry => (entry.1, vocab.start owner.2 + entry.2)

/-- A row's pairs of every rank, under global ids and in rank order. -/
def ranges (row : Nat) : List (List (V × Nat)) := vocab.shards.zipIdx.map (vocab.globalEntries row)

/-- The stock row has one entry a column of the shard. -/
theorem stockRow_length (shard : Shard V rows) (row : Nat) :
    (shard.stockRow row).length = shard.width := by
  simp [Shard.stockRow, Shard.masked, Shard.ids, shard.subset_eq_full]

/-- An entry of the stock row is the exact value of its column, and the bottom value where the
column is masked. -/
theorem stockRow_getElem? (shard : Shard V rows) (row id : Nat) (owned : id < shard.width) :
    (shard.stockRow row)[id]? = some (shard.value row id) := by
  unfold Shard.stockRow
  rw [shard.subset_eq_full, Shard.masked_map]
  simp [Shard.ids, owned, Shard.value]

/-- The first global id of a rank is its place in the whole row. -/
theorem start_eq_offset (row rank : Nat) :
    vocab.start rank = offset (vocab.shards.map fun shard => shard.stockRow row) rank := by
  have widths : (List.length ∘ fun shard : Shard V rows => shard.stockRow row) = Shard.width :=
    funext fun shard => stockRow_length shard row
  simp only [start, offset, ← List.map_take, List.map_map, widths]

/-- The pairs of all ranks are the pairs of the whole row. -/
theorem mem_ranges (row : Nat) (entry : V × Nat) :
    entry ∈ (vocab.ranges row).flatten ↔ (vocab.stockRow row)[entry.2]? = some entry.1 := by
  have read : ∀ (rank id : Nat) (there : rank < vocab.shards.length),
      id < vocab.shards[rank].width →
        (vocab.stockRow row)[vocab.start rank + id]? = some (vocab.shards[rank].value row id) := by
    intro rank id there owned
    rw [vocab.start_eq_offset row, stockRow,
      flatten_getElem? _ rank id (by simpa using there) (by simpa [stockRow_length] using owned)]
    have stored := stockRow_getElem? vocab.shards[rank] row id owned
    rw [List.getElem?_eq_getElem (by simpa [stockRow_length] using owned)] at stored
    simpa using stored
  constructor
  · intro member
    obtain ⟨range, listed, inRange⟩ := List.mem_flatten.mp member
    obtain ⟨⟨shard, rank⟩, owner, rfl⟩ := List.mem_map.mp listed
    obtain ⟨pair, inEntries, rfl⟩ := List.mem_map.mp inRange
    obtain ⟨id, owned, rfl⟩ := List.mem_map.mp inEntries
    rw [List.mk_mem_zipIdx_iff_getElem?] at owner
    obtain ⟨there, rfl⟩ := List.getElem?_eq_some_iff.mp owner
    exact read rank id there (List.mem_range.mp owned)
  · intro found
    obtain ⟨inside, _⟩ := List.getElem?_eq_some_iff.mp found
    obtain ⟨rank, id, there, owned, place⟩ := owner_exists
      (vocab.shards.map fun shard => shard.stockRow row) entry.2 (by exact inside)
    have present : rank < vocab.shards.length := by simpa using there
    have narrow : id < vocab.shards[rank].width := by simpa [stockRow_length] using owned
    rw [← vocab.start_eq_offset row] at place
    have same := (place ▸ found).symm.trans (read rank id present narrow)
    have pair : entry = (vocab.shards[rank].value row id, vocab.start rank + id) :=
      Prod.ext (Option.some.inj same) place
    refine List.mem_flatten.mpr ⟨vocab.globalEntries row (vocab.shards[rank], rank), ?_, ?_⟩
    · refine List.mem_map_of_mem ?_
      rw [List.mk_mem_zipIdx_iff_getElem?, List.getElem?_eq_getElem present]
    · rw [pair]
      exact List.mem_map_of_mem (List.mem_map_of_mem (List.mem_range.mpr narrow))

/-- The global ids ascend from rank to rank. -/
theorem ranges_ascending (row : Nat) :
    (vocab.ranges row).Pairwise fun early late => ∀ entry ∈ early, ∀ other ∈ late,
      entry.2 < other.2 := by
  unfold ranges
  rw [List.pairwise_map, List.pairwise_iff_getElem]
  intro early late inEarly inLate ordered entry atEarly other atLate
  have earlyRank : early < vocab.shards.length := by simpa using inEarly
  simp only [List.getElem_zipIdx, Nat.zero_add, globalEntries, Shard.entries, List.map_map,
    List.mem_map, Shard.ids, List.mem_range, Function.comp_apply] at atEarly atLate
  obtain ⟨id, owned, rfl⟩ := atEarly
  obtain ⟨otherId, _, rfl⟩ := atLate
  have next : vocab.start (early + 1) = vocab.start early + vocab.shards[early].width := by
    rw [vocab.start_eq_offset row, vocab.start_eq_offset row,
      offset_succ _ early (by simpa using earlyRank), List.getElem_map, stockRow_length]
  have reach : vocab.start (early + 1) ≤ vocab.start late := by
    rw [vocab.start_eq_offset row, vocab.start_eq_offset row]
    exact offset_mono _ ordered
  calc vocab.start early + id < vocab.start early + vocab.shards[early].width :=
        Nat.add_lt_add_left owned _
    _ = vocab.start (early + 1) := next.symm
    _ ≤ vocab.start late := reach
    _ ≤ vocab.start late + otherId := Nat.le_add_right _ _

/-- The first maximum over all ranks is the one of the whole row. -/
theorem row_isFirst (row : Nat) (best : V × Nat) (first : IsFirst (vocab.ranges row).flatten best) :
    IsFirst (vocab.stockRow row).zipIdx best := by
  refine first.of_mem_iff ?_
  rintro ⟨value, id⟩
  rw [List.mk_mem_zipIdx_iff_getElem?, vocab.mem_ranges]

/-- The first maximum over all ranks is the stock argmax of the vocabulary. -/
theorem stockGlobal_of_isFirst (row : Nat) (best : V × Nat)
    (first : IsFirst (vocab.ranges row).flatten best) : vocab.stockGlobal row = best := by
  have pairs : (vocab.stockRow row).zip (List.range (vocab.stockRow row).length) =
      (vocab.stockRow row).zipIdx := by
    rw [List.zipIdx_eq_zip_range', List.range_eq_range']
  simp only [stockGlobal, pairs, select_isFirst (vocab.row_isFirst row best first), Option.getD_some]

/-- Every local selection of a finite step is the first maximum of its rank. -/
theorem locals_isFirst (row : Nat) :
    List.Forall₂ IsFirst (vocab.ranges row) (vocab.shards.zipIdx.map fun owner =>
      ((owner.1.stockLocal row).1, (owner.1.stockLocal row).2 + vocab.start owner.2)) := by
  unfold ranges
  rw [List.forall₂_map_left_iff, List.forall₂_map_right_iff, List.forall₂_same]
  rintro ⟨shard, rank⟩ _
  rw [Nat.add_comm]
  exact (shard.stockLocal_isFirst row).shift (vocab.start rank)

/-- The stock argmax of the vocabulary is the first maximum of the whole row. -/
theorem stockGlobal_isFirst (row : Nat) :
    IsFirst (vocab.stockRow row).zipIdx (vocab.stockGlobal row) := by
  obtain ⟨best, _, first⟩ := first_of_parts (by simpa using vocab.nonempty)
    (vocab.locals_isFirst row) (vocab.ranges_ascending row)
  rw [vocab.stockGlobal_of_isFirst row best first]
  exact vocab.row_isFirst row best first

/-- The ids the ranks select stay inside the vocabulary. -/
theorem global_id_lt (row : Nat) (entry : V × Nat) (member : entry ∈ (vocab.ranges row).flatten) :
    entry.2 < vocab.total := by
  rw [mem_ranges] at member
  obtain ⟨inside, _⟩ := List.getElem?_eq_some_iff.mp member
  have length : (vocab.stockRow row).length = vocab.total := by
    rw [total, vocab.start_eq_offset row]
    simp only [stockRow, ← offset_length, List.length_map]
  exact length ▸ inside

/-- What a rank selects is one of the pairs of all ranks. -/
theorem local_mem (row : Nat) (owner : Shard V rows × Nat) (listed : owner ∈ vocab.shards.zipIdx) :
    ((owner.1.stockLocal row).1, (owner.1.stockLocal row).2 + vocab.start owner.2) ∈
      (vocab.ranges row).flatten := by
  refine List.mem_flatten.mpr ⟨_, List.mem_map_of_mem listed, ?_⟩
  rw [Nat.add_comm]
  exact ((owner.1.stockLocal_isFirst row).shift (vocab.start owner.2)).present

/-- There is at least one rank, so the reduction over ranks has something to reduce. -/
theorem ranks_nonempty : vocab.shards.zipIdx ≠ [] := by
  intro none
  exact vocab.nonempty (List.zipIdx_eq_nil_iff.mp none)

/-- A status column shows a non-finite step exactly when some shard is not finite. -/
theorem any_nonfinite {results : List (LocalResult V)} (result : Shard V rows × Nat → LocalResult V)
    (reported : results = vocab.shards.zipIdx.map result)
    (status : ∀ owner ∈ vocab.shards.zipIdx,
      (result owner).status = .nonfinite ↔ owner.1.finite = false) :
    (results.any fun found => found.status = .nonfinite) = !vocab.shards.all Shard.finite := by
  rw [reported, Bool.eq_iff_iff, List.any_eq_true, Bool.not_eq_true', List.all_eq_false]
  constructor
  · rintro ⟨_, member, nonfinite⟩
    obtain ⟨⟨shard, rank⟩, owner, rfl⟩ := List.mem_map.mp member
    have infinite := (status (shard, rank) owner).mp (by simpa using nonfinite)
    exact ⟨shard, List.fst_mem_of_mem_zipIdx owner, by simpa using infinite⟩
  · rintro ⟨shard, member, infinite⟩
    obtain ⟨rank, there, rfl⟩ := List.getElem_of_mem member
    have owner : (vocab.shards[rank], rank) ∈ vocab.shards.zipIdx := by
      rw [List.mk_mem_zipIdx_iff_getElem?, List.getElem?_eq_getElem there]
    exact ⟨_, List.mem_map_of_mem owner,
      by simpa using (status _ owner).mpr (by simpa using infinite)⟩

/-- The reference step answers the stock argmax of the vocabulary, or the stock
sampler. -/
theorem step_reference (cap : Nat) (orders : Nat → Arrangement) (row : Nat) (inside : row < rows) :
    CertMath.stepTp (vocab.referenceResults cap orders)
      ((List.range vocab.shards.length).map vocab.start) row = vocab.outcome row := by
  have nonfinite := vocab.any_nonfinite
    (fun owner => CertMath.certLocal owner.1 cap (orders owner.2)) rfl
    (fun owner _ => (status_nonfinite owner.1 0 cap (orders owner.2) .gemm false).1)
  unfold CertMath.stepTp outcome
  rw [show vocab.referenceResults cap orders = vocab.shards.zipIdx.map fun owner =>
    CertMath.certLocal owner.1 cap (orders owner.2) from rfl, nonfinite]
  cases finite : vocab.shards.all Shard.finite with
  | false => rfl
  | true =>
    have locals : ∀ owner ∈ vocab.shards.zipIdx,
        (CertMath.certLocal owner.1 cap (orders owner.2)).best row = owner.1.stockLocal row := by
      rintro ⟨shard, rank⟩ owner
      exact cert_local_reference shard cap (orders rank)
        (List.all_eq_true.mp finite shard (List.fst_mem_of_mem_zipIdx owner)) row inside
    obtain ⟨best, chosen, first⟩ := first_of_parts
      (by simpa using vocab.nonempty) (vocab.locals_isFirst row) (vocab.ranges_ascending row)
    have values : (vocab.shards.zipIdx.map fun owner =>
        CertMath.certLocal owner.1 cap (orders owner.2)).map (fun result => (result.best row).1) =
          (vocab.shards.zipIdx.map fun owner => ((owner.1.stockLocal row).1,
            (owner.1.stockLocal row).2 + vocab.start owner.2)).map Prod.fst := by
      rw [List.map_map, List.map_map]
      apply List.map_congr_left
      intro owner member
      simp only [Function.comp_apply, locals owner member]
    have ids : List.zipWith (fun (result : LocalResult V) start => (result.best row).2 + start)
        (vocab.shards.zipIdx.map fun owner => CertMath.certLocal owner.1 cap (orders owner.2))
        ((List.range vocab.shards.length).map vocab.start) =
          (vocab.shards.zipIdx.map fun owner => ((owner.1.stockLocal row).1,
            (owner.1.stockLocal row).2 + vocab.start owner.2)).map Prod.snd := by
      apply List.ext_getElem
      · simp
      · intro rank there _
        have present : rank < vocab.shards.length := by simpa using there
        have owner : (vocab.shards[rank], rank) ∈ vocab.shards.zipIdx := by
          rw [List.mk_mem_zipIdx_iff_getElem?, List.getElem?_eq_getElem present]
        simp [locals _ owner]
    simp only [Bool.not_true, Bool.false_eq_true, if_false, if_true, CertMath.reduceRanks, values, ids]
    rw [vocab.stockGlobal_of_isFirst row best first, List.getD_eq_getElem?_getD, List.getElem?_map,
      chosen]
    rfl

/-- The device step answers the same on every rank while the ids fit the fp32 column
of the exchanged pairs. -/
theorem step_device (cap : Nat) (orders : Nat → Arrangement) (refine : Refine) (noisy : Bool)
    (row : Nat) (inside : row < rows)
    (exact_ids : 1 < vocab.shards.length → vocab.total ≤ 2 ^ 24) (own : LocalResult V)
    (member : own ∈ vocab.deviceResults cap orders refine noisy) :
    certified (vocab.deviceResults cap orders refine noisy) own row = vocab.outcome row := by
  have results : vocab.deviceResults cap orders refine noisy = vocab.shards.zipIdx.map
      fun owner => certLocal owner.1 (vocab.start owner.2) cap (orders owner.2) refine noisy := rfl
  have nonfinite := vocab.any_nonfinite _ results
    (fun owner _ => (status_nonfinite owner.1 (vocab.start owner.2) cap (orders owner.2) refine
      noisy).2)
  have column : ((gatheredPairs (vocab.deviceResults cap orders refine noisy) row).any
      fun pair => decide (pair.status ≥ Status.nonfinite.code)) =
        (vocab.deviceResults cap orders refine noisy).any
          fun found => decide (found.status = .nonfinite) := by
    rw [gatheredPairs, List.any_map]
    congr 1
    funext found
    cases status : found.status <;> simp [packPair, status, Status.code]
  unfold certified outcome
  simp only [column, nonfinite]
  cases finite : vocab.shards.all Shard.finite with
  | false => rfl
  | true =>
    have locals : ∀ owner ∈ vocab.shards.zipIdx,
        (certLocal owner.1 (vocab.start owner.2) cap (orders owner.2) refine noisy).best row =
          ((owner.1.stockLocal row).1, (owner.1.stockLocal row).2 + vocab.start owner.2) := by
      rintro ⟨shard, rank⟩ owner
      exact cert_local_device shard (vocab.start rank) cap (orders rank) refine noisy
        (List.all_eq_true.mp finite shard (List.fst_mem_of_mem_zipIdx owner)) row inside
    have bests : (vocab.deviceResults cap orders refine noisy).map (fun result => result.best row) =
        vocab.shards.zipIdx.map fun owner => ((owner.1.stockLocal row).1,
          (owner.1.stockLocal row).2 + vocab.start owner.2) := by
      rw [results, List.map_map]
      exact List.map_congr_left fun owner there => locals owner there
    have each := vocab.locals_isFirst row
    rw [← bests] at each
    simp only [Bool.not_true, Bool.false_eq_true, if_false, if_true]
    split
    case isTrue several =>
      have many : 1 < vocab.shards.length := by simpa [results] using several
      have sent : (gatheredPairs (vocab.deviceResults cap orders refine noisy) row).map
          (fun pair => (pair.value, pair.id)) =
            (vocab.deviceResults cap orders refine noisy).map fun result => result.best row := by
        rw [gatheredPairs, List.map_map]
        apply List.map_congr_left
        intro result there
        obtain ⟨owner, listed, rfl⟩ := List.mem_map.mp there
        have small : (owner.1.stockLocal row).2 + vocab.start owner.2 < vocab.total :=
          vocab.global_id_lt row _ (vocab.local_mem row owner listed)
        simp only [Function.comp_apply, packPair, locals owner listed,
          toFloat32_exact (small.le.trans (exact_ids many))]
      rw [← sent] at each
      have some_pair : gatheredPairs (vocab.deviceResults cap orders refine noisy) row ≠ [] := by
        simp [gatheredPairs, results, vocab.ranks_nonempty]
      obtain ⟨best, first, answer⟩ := reducePairs_isFirst some_pair each (vocab.ranges_ascending row)
      rw [answer, vocab.stockGlobal_of_isFirst row best first]
    case isFalse single =>
      obtain ⟨best, chosen, first⟩ := first_of_parts
        (by simpa [results] using vocab.ranks_nonempty) each (vocab.ranges_ascending row)
      obtain ⟨result, there, rfl⟩ := List.mem_map.mp (List.mem_of_getElem? chosen)
      have alone : own = result := by
        have one : (vocab.deviceResults cap orders refine noisy).length = 1 :=
          le_antisymm (Nat.le_of_not_lt single) (List.length_pos_of_mem member)
        obtain ⟨only, all⟩ := List.length_eq_one_iff.mp one
        rw [all, List.mem_singleton] at member there
        exact member.trans there.symm
      rw [vocab.stockGlobal_of_isFirst row _ first, alone]

/-- The certified selection is exact. For every vocabulary split into shards, capacity,
collection order, way of computing the candidates again and row: on a finite shard
every pair of greatest stock value is a candidate of its row, and the reference and
the device select the stock maximum and its lowest id, masked rows included; over the
ranks both answer the stock argmax of the whole vocabulary, or the stock sampler on
every rank when some rank is not finite. The device exchanges ids in fp32, which is
exact up to `2 ^ 24`. -/
theorem cert_selection_exact (cap : Nat) (orders : Nat → Arrangement) (refine : Refine)
    (noisy : Bool) (row : Fin rows) :
    (∀ shard ∈ vocab.shards, shard.finite = true →
      (∀ id < shard.width, (∀ rival < shard.width, shard.value row rival ≤ shard.value row id) →
        shard.candidate row id = true) ∧
      IsFirst (shard.entries row) (shard.stockLocal row) ∧
      ∀ order vstart, (CertMath.certLocal shard cap order).best row = shard.stockLocal row ∧
        (certLocal shard vstart cap order refine noisy).best row =
          ((shard.stockLocal row).1, (shard.stockLocal row).2 + vstart)) ∧
    IsFirst (vocab.stockRow row).zipIdx (vocab.stockGlobal row) ∧
    CertMath.stepTp (vocab.referenceResults cap orders)
      ((List.range vocab.shards.length).map vocab.start) row = vocab.outcome row ∧
    ((1 < vocab.shards.length → vocab.total ≤ 2 ^ 24) →
      ∀ own ∈ vocab.deviceResults cap orders refine noisy,
        certified (vocab.deviceResults cap orders refine noisy) own row = vocab.outcome row) := by
  refine ⟨?_, vocab.stockGlobal_isFirst row, vocab.step_reference cap orders row row.isLt, ?_⟩
  · intro shard _ finite
    refine ⟨?_, shard.stockLocal_isFirst row, ?_⟩
    · intro id owned maximal
      exact shard.maximal_candidate finite row row.isLt id owned maximal
    · intro order vstart
      exact ⟨cert_local_reference shard cap order finite row row.isLt,
        cert_local_device shard vstart cap order refine noisy finite row row.isLt⟩
  · intro exact_ids own member
    exact vocab.step_device cap orders refine noisy row row.isLt exact_ids own member

end Vocabulary

section Sample

/-- A shard of given values under a screen that is off by one either way. -/
def screened (values : List ℤ) (nonempty : 0 < values.length) (short : values.length ≤ intMax) :
    Shard (WithBot ℤ) 1 where
  width := values.length
  finite := true
  lo _ id := ((values.getD id 0 - 1 : ℤ) : WithBot ℤ)
  hi _ id := ((values.getD id 0 + 1 : ℤ) : WithBot ℤ)
  stock _ id := ((values.getD id 0 : ℤ) : WithBot ℤ)
  mask _ _ := false
  logits ids _ := ids.map fun id => ((values.getD id 0 : ℤ) : WithBot ℤ)
  nonempty := nonempty
  int32 := short
  bounded _ _ _ id _ := ⟨WithBot.coe_le_coe.mpr (by omega), WithBot.coe_le_coe.mpr (by omega)⟩
  subset_eq_full _ _ := rfl

/-- Two ranks whose greatest values tie, the first one's at id 1 and the second one's at id 4. -/
def tied : Vocabulary (WithBot ℤ) 1 where
  shards := [screened [1, 5, 2] (by decide) (by decide), screened [4, 5] (by decide) (by decide)]
  nonempty := by decide

/-- Programs that reserve their places last to first. -/
def lastFirst : Arrangement where
  apply := List.reverse
  perm := List.reverse_perm

/-- `cert_selection_exact` for the tie: the reference and every rank of the device answer the lower
id, with the candidates computed again by the kernel. -/
theorem cert_selection_exact_tie :
    CertMath.stepTp (tied.referenceResults 2 fun _ => lastFirst)
        ((List.range tied.shards.length).map tied.start) 0 = some 1 ∧
      ∀ own ∈ tied.deviceResults 2 (fun _ => lastFirst) .kernel false,
        certified (tied.deviceResults 2 (fun _ => lastFirst) .kernel false) own 0 = some 1 :=
  have chosen : tied.outcome 0 = some 1 := by decide +kernel
  have selected := tied.cert_selection_exact 2 (fun _ => lastFirst) .kernel false 0
  ⟨selected.2.2.1.trans chosen, fun own member =>
    (selected.2.2.2 (fun _ => by decide) own member).trans chosen⟩

end Sample

end GlmSpark.CertSelection
