import GlmSpark.KpoolTail
import Mathlib.Algebra.Order.Group.Nat

/-!
# Where the tokens of a step go

The slot kernel counts query starts where its reference searches them; both send every
token of a request to the request's own block, so requests never share a ring. The decode
path groups the flat tokens by request, by a view or by scattering them; both give every
request its own tokens in order and pads behind them.
-/

namespace GlmSpark.KpoolTail

open Blocks Launch Program Ragged

universe u

section Geometry

/-- The ring has room for a pool and the drafts of a step, in whole pools. -/
theorem le_tailRing {kpool : ℕ} (positive : 0 < kpool) (numSpec : ℕ) :
    kpool + numSpec ≤ tailRing kpool numSpec := by
  have blocks : cdiv (kpool + numSpec) kpool ≤ nextPowerOfTwo (cdiv (kpool + numSpec) kpool) := by
    rw [nextPowerOfTwo]
    split
    · omega
    · have bound := Nat.lt_size_self (cdiv (kpool + numSpec) kpool - 1)
      omega
  have whole : kpool + numSpec ≤ kpool * cdiv (kpool + numSpec) kpool := by
    by_contra short
    have inside := (lt_cdiv (kpool + numSpec) kpool (cdiv (kpool + numSpec) kpool) positive).mpr
      (by rw [Nat.mul_comm]; omega)
    exact Nat.lt_irrefl _ inside
  exact Nat.le_trans whole (Nat.mul_le_mul_left kpool blocks)

end Geometry

section Mapping

/-- In an ascending list the search counts what does not exceed the value. -/
theorem searchsortedRight_eq_countP {sorted : List ℕ} (ascending : sorted.Pairwise (· ≤ ·)) (value : ℕ) :
    searchsortedRight sorted value = sorted.countP fun entry => decide (entry ≤ value) := by
  induction sorted with
  | nil => rfl
  | cons entry rest ih =>
    obtain ⟨least, rest'⟩ := List.pairwise_cons.mp ascending
    have tail := ih rest'
    rw [searchsortedRight] at tail ⊢
    by_cases small : entry ≤ value
    · rw [List.takeWhile_cons_of_pos (by simpa using small),
        List.countP_cons_of_pos (by simpa using small), List.length_cons, tail]
    · have none : (rest.countP fun other => decide (other ≤ value)) = 0 := by
        refine List.countP_eq_zero.mpr fun other listed => ?_
        have above := least other listed
        rw [decide_eq_true_iff]
        omega
      rw [List.takeWhile_cons_of_neg (by simpa using small),
        List.countP_cons_of_neg (by simpa using small), none, List.length_nil]

/-- The loop over the query starts counts the same entries as the search. -/
theorem countP_range' (qsl : List ℕ) (numReqs i : ℕ) (enough : numReqs < qsl.length) :
    ((List.range' 1 numReqs).countP fun r => decide (qsl.getD r 0 ≤ i)) =
      (qsl.take (numReqs + 1)).tail.countP fun entry => decide (entry ≤ i) := by
  have entries : (qsl.take (numReqs + 1)).tail = (List.range' 1 numReqs).map fun r => qsl.getD r 0 := by
    apply List.ext_getElem?
    intro index
    rw [List.getElem?_tail, List.getElem?_take, List.getElem?_map]
    by_cases inside : index < numReqs
    · have stored : index + 1 < qsl.length := by omega
      rw [if_pos (by omega), List.getElem?_range' inside, Option.map_some,
        List.getD_eq_getElem?_getD, show 1 + 1 * index = index + 1 by omega,
        List.getElem?_eq_getElem stored, Option.getD_some]
    · rw [if_neg (by omega), List.getElem?_eq_none (by simpa using inside), Option.map_none]
  rw [entries, List.countP_map]
  rfl

/-- A truncated remainder with the ring added where it is negative is the remainder. -/
theorem tmod_fixed (position : ℤ) (ring : ℕ) :
    (if position.tmod ring < 0 then position.tmod ring + ring else position.tmod ring) =
      position % ring := by
  rcases Nat.eq_zero_or_pos ring with rfl | positive
  · simp
  · have low := Int.emod_nonneg position (show (ring : ℤ) ≠ 0 by omega)
    have high := Int.emod_lt_of_pos position (show (0 : ℤ) < ring by omega)
    have truncated := @Int.tmod_eq_emod position ring
    split at truncated <;> split <;> omega

/-- The kernel maps every token as its reference does. -/
theorem tailSlotMapping_eq_reference (slotIn : List ℤ) (blockTable : ℕ → ℕ) {qsl : List ℕ}
    (positions : ℕ → ℤ) (numActualTokens : ℕ) {numReqs : ℕ} (ring : ℕ)
    (enough : numReqs < qsl.length) (ascending : qsl.Pairwise (· ≤ ·)) :
    tailSlotMapping slotIn blockTable qsl positions numActualTokens numReqs ring =
      tailSlotReference slotIn blockTable qsl positions numActualTokens numReqs ring := by
  rw [tailSlotMapping, tailSlotReference]
  by_cases none : numReqs = 0
  · rw [if_pos none, if_pos (Or.inr none)]
  rw [if_neg none]
  by_cases empty : slotIn.length = 0
  · rw [if_pos (Or.inl empty), empty, List.length_eq_zero_iff.mp empty]
    rfl
  rw [if_neg (by omega)]
  refine List.map_congr_left fun i _ => ?_
  have first : (qsl.take (numReqs + 1)).getD 0 0 = qsl.getD 0 0 := by
    rw [List.getD_eq_getElem?_getD, List.getD_eq_getElem?_getD, List.getElem?_take,
      if_pos (Nat.succ_pos _)]
  have last : (qsl.take (numReqs + 1)).getD numReqs 0 = qsl.getD numReqs 0 := by
    rw [List.getD_eq_getElem?_getD, List.getD_eq_getElem?_getD, List.getElem?_take,
      if_pos (Nat.lt_succ_self _)]
  rw [tailSlotKernel]
  dsimp only
  rw [first, last, tmod_fixed]
  by_cases real : qsl.getD 0 0 ≤ i ∧ i < qsl.getD numReqs 0 ∧ i < numActualTokens ∧
      0 ≤ slotIn.getD i (-1)
  · rw [if_pos real, if_pos real]
    -- the first start is counted by the search and left out by the loop
    have counts : searchsortedRight (qsl.take (numReqs + 1)) i =
        ((List.range' 1 numReqs).countP fun r => decide (qsl.getD r 0 ≤ i)) + 1 := by
      rw [searchsortedRight_eq_countP (ascending.sublist (List.take_sublist _ _)),
        countP_range' qsl numReqs i enough]
      cases starts : qsl.take (numReqs + 1) with
      | nil =>
        have size := congrArg List.length starts
        rw [List.length_take, List.length_nil] at size
        omega
      | cons start rest =>
        rw [starts, List.getD_cons_zero] at first
        rw [List.countP_cons_of_pos (by rw [first]; simpa using real.1), List.tail_cons]
    have owner : (min (max ((((List.range' 1 numReqs).countP fun r =>
        decide (qsl.getD r 0 ≤ i)) + 1 : ℕ) - 1 : ℤ) 0) (numReqs - 1 : ℤ)).toNat =
        min ((List.range' 1 numReqs).countP fun r => decide (qsl.getD r 0 ≤ i)) (numReqs - 1) := by
      omega
    rw [counts, owner]
  · rw [if_neg real, if_neg real]

/-- Two requests, a pad between their slots. -/
theorem tailSlotMapping_eq_reference_two :
    tailSlotMapping [4, 5, -1, 7] (· + 3) [0, 3, 4] (fun i => i - 1) 4 2 8 =
      tailSlotReference [4, 5, -1, 7] (· + 3) [0, 3, 4] (fun i => i - 1) 4 2 8 :=
  tailSlotMapping_eq_reference _ _ _ _ _ (by decide) (by decide)

/-- Every token of a request goes to the request's own block, at its position modulo the ring. -/
theorem tailSlotKernel_own {α : Type u} {rows : List (List α)} {slotIn : List ℤ} {blockTable : ℕ → ℕ}
    {positions : ℕ → ℤ} {numActualTokens ring member row : ℕ} (inside : member < rows.length)
    (owned : row < rows[member].length) (counted : rows.flatten.length ≤ numActualTokens)
    (real : 0 ≤ slotIn.getD (offset rows member + row) (-1)) :
    tailSlotKernel slotIn blockTable (offsets rows) positions numActualTokens rows.length ring
        (offset rows member + row) =
      blockTable member * ring + positions (offset rows member + row) % ring := by
  have found := search_owner rows member row inside owned
  have ended := row_before_end rows member row inside owned
  have low : (offsets rows).getD 0 0 = 0 := by
    rw [List.getD_eq_getElem?_getD, offsets_getElem? rows 0 (Nat.zero_le _), offset_zero]
    rfl
  have high : (offsets rows).getD rows.length 0 = rows.flatten.length := by
    rw [List.getD_eq_getElem?_getD, offsets_getElem? rows _ (Nat.le_refl _), offset_length]
    rfl
  have ascending : (offsets rows).Pairwise (· ≤ ·) := by
    rw [offsets, List.pairwise_map]
    exact List.pairwise_lt_range.imp fun less => offset_mono rows (Nat.le_of_lt less)
  have all : (offsets rows).take (rows.length + 1) = offsets rows :=
    List.take_of_length_le (by rw [offsets_length])
  have counts := countP_range' (offsets rows) rows.length (offset rows member + row)
    (by rw [offsets_length]; exact Nat.lt_succ_self _)
  rw [all, ← searchsortedRight_eq_countP (ascending.sublist (List.tail_sublist _)), found] at counts
  rw [tailSlotKernel]
  dsimp only
  rw [low, high, counts, tmod_fixed, if_pos ⟨Nat.zero_le _, ended, by omega, real⟩,
    Nat.min_eq_left (by omega)]

end Mapping

section Grouping

variable {α : Type u}

/-- Every flat token belongs to its request and index within it. -/
theorem buildDecodeScatterIndices_getElem? (rows : List (List α)) {member row : ℕ}
    (inside : member < rows.length) (owned : row < rows[member].length) :
    (buildDecodeScatterIndices (rows.map List.length))[offset rows member + row]? =
      some (member, row) := by
  have reqIds : ((rows.map List.length).zipIdx.flatMap fun entry =>
      List.replicate entry.1 entry.2)[offset rows member + row]? = some member := by
    rw [List.flatMap_def]
    have lengths : (((rows.map List.length).zipIdx.map fun entry =>
        List.replicate entry.1 entry.2).map List.length) = rows.map List.length := by
      rw [List.map_map]
      apply List.ext_getElem?
      intro i
      simp [Function.comp_def]
    rw [← offset_of_lengths _ rows lengths]
    rw [flatten_getElem? _ member row (by simpa using inside) (by simpa using owned)]
    simp
  have starts : ((((List.range (rows.map List.length).length).map fun req =>
      ((rows.map List.length).take req).sum).zip (rows.map List.length)).flatMap
        fun entry => List.replicate entry.2 entry.1)[offset rows member + row]? =
      some (offset rows member) := by
    rw [List.flatMap_def]
    have lengths : (((((List.range (rows.map List.length).length).map fun req =>
        ((rows.map List.length).take req).sum).zip (rows.map List.length)).map
          fun entry => List.replicate entry.2 entry.1).map List.length) = rows.map List.length := by
      rw [List.map_map]
      apply List.ext_getElem
      · simp
      · intro i _ _
        simp
    rw [← offset_of_lengths _ rows lengths]
    rw [flatten_getElem? _ member row (by simpa using inside) (by simpa using owned),
      offset_of_lengths _ rows lengths]
    simp [offset]
  rw [buildDecodeScatterIndices, List.getElem?_map, List.getElem?_zipIdx]
  rw [(@List.getElem?_zip_eq_some _ _ _ _ (member, offset rows member) _).mpr ⟨reqIds, starts⟩]
  simp

/-- What a cell of a scattered grid holds: what was scattered to it, else the pad. -/
theorem scatter_apply (pairs : List ((ℕ × ℕ) × α)) (out : ℕ → ℕ → α) (req t : ℕ) (value : α)
    (agree : ∀ pair ∈ pairs, pair.1 = (req, t) → pair.2 = value) :
    (pairs.foldl (fun out (at', token) =>
        Function.update out at'.1 (Function.update (out at'.1) at'.2 token)) out) req t =
      if (req, t) ∈ pairs.map Prod.fst then value else out req t := by
  induction pairs generalizing out with
  | nil => rfl
  | cons pair rest ih =>
    rw [List.foldl_cons, ih _ fun other listed => agree other (List.mem_cons_of_mem _ listed),
      List.map_cons]
    obtain ⟨⟨r, c⟩, token⟩ := pair
    by_cases later : (req, t) ∈ rest.map Prod.fst
    · rw [if_pos later, if_pos (List.mem_cons_of_mem _ later)]
    rw [if_neg later]
    by_cases here : (req, t) = (r, c)
    · have same := agree _ List.mem_cons_self here.symm
      obtain ⟨rfl, rfl⟩ := Prod.mk.inj here
      rw [if_pos List.mem_cons_self]
      dsimp only at same ⊢
      rw [Function.update_self, Function.update_self, same]
    · rw [if_neg (by rw [List.mem_cons]; exact not_or.mpr ⟨here, later⟩)]
      dsimp only
      by_cases row : req = r
      · subst row
        rw [Function.update_self, Function.update_of_ne fun col => here (by rw [col])]
      · rw [Function.update_of_ne row]

/-- The scattered grid has every request's tokens in its row and pads behind them. -/
theorem scatter_rows (rows : List (List α)) (pad : α) (req t : ℕ) :
    scatterDecodeTokensByRequest rows.flatten pad
        (buildDecodeScatterIndices (rows.map List.length)) req t =
      ((rows[req]?).bind fun row => row[t]?).getD pad := by
  have entry : ∀ pair ∈ (buildDecodeScatterIndices (rows.map List.length)).zip rows.flatten,
      ∃ (inside : pair.1.1 < rows.length), rows[pair.1.1][pair.1.2]? = some pair.2 := by
    intro pair listed
    obtain ⟨i, found⟩ := List.mem_iff_getElem?.mp listed
    obtain ⟨index, token⟩ := List.getElem?_zip_eq_some.mp found
    have bounded := (List.getElem?_eq_some_iff.mp token).1
    obtain ⟨member, row, inside, owned, rfl⟩ := owner_exists rows i bounded
    rw [buildDecodeScatterIndices_getElem? rows inside owned] at index
    rw [flatten_getElem? rows member row inside owned] at token
    rw [← Option.some.inj index]
    exact ⟨inside, by rw [List.getElem?_eq_getElem owned]; exact token⟩
  rw [scatterDecodeTokensByRequest]
  by_cases real : ∃ inside : req < rows.length, t < rows[req].length
  · obtain ⟨inside, owned⟩ := real
    rw [scatter_apply _ _ req t rows[req][t], if_pos, List.getElem?_eq_getElem inside, Option.bind_some,
      List.getElem?_eq_getElem owned, Option.getD_some]
    · refine List.mem_map.mpr ⟨((req, t), rows[req][t]), ?_, rfl⟩
      exact List.mem_of_getElem? (List.getElem?_zip_eq_some.mpr
        ⟨buildDecodeScatterIndices_getElem? rows inside owned, flatten_getElem? rows req t inside owned⟩)
    · intro pair listed same
      obtain ⟨_, stored⟩ := entry pair listed
      simp only [same] at stored
      rw [List.getElem?_eq_getElem owned] at stored
      exact (Option.some.inj stored).symm
  · have nobody : (req, t) ∉ ((buildDecodeScatterIndices (rows.map List.length)).zip
        rows.flatten).map Prod.fst := by
      intro listed
      obtain ⟨pair, member, same⟩ := List.mem_map.mp listed
      obtain ⟨inside, stored⟩ := entry pair member
      simp only [same] at inside stored
      exact real ⟨inside, (List.getElem?_eq_some_iff.mp stored).1⟩
    rw [scatter_apply _ _ req t pad fun pair listed same =>
      absurd (List.mem_map.mpr ⟨pair, listed, same⟩) nobody, if_neg nobody]
    cases found : rows[req]? with
    | none => rfl
    | some row =>
      obtain ⟨inside, rfl⟩ := List.getElem?_eq_some_iff.mp found
      rw [Option.bind_some, List.getElem?_eq_none (Nat.le_of_not_lt fun owned => real ⟨inside, owned⟩)]
      rfl

/-- The view of equally many tokens is the same grid. -/
theorem view_rows {rows : List (List α)} {size : ℕ} (uniform : ∀ row ∈ rows, row.length = size)
    (pad : α) (req : ℕ) {t : ℕ} (inside : t < size) :
    viewTokens rows.flatten pad size req t = ((rows[req]?).bind fun row => row[t]?).getD pad := by
  rw [viewTokens, List.getD_eq_getElem?_getD, flatten_uniform size rows uniform req t inside]

/-- However the batch is grouped, every request finds its own tokens in order and pads behind. -/
theorem groupTokens_rows (rows : List (List α)) (pad : α) (req : ℕ) {t : ℕ}
    (inside : t < (rows.map List.length).max?.getD 0) :
    groupTokens rows.flatten pad (rows.map List.length) req t =
      ((rows[req]?).bind fun row => row[t]?).getD pad := by
  rw [groupTokens]
  split
  next same =>
    obtain ⟨level, total⟩ := same
    have some : rows.map List.length ≠ [] := by
      intro none
      rw [none] at inside
      exact absurd inside (Nat.not_lt_zero t)
    obtain ⟨most, most'⟩ := Option.isSome_iff_exists.mp (List.isSome_max?_of_ne_nil some)
    obtain ⟨least, least'⟩ := Option.isSome_iff_exists.mp (List.isSome_min?_of_ne_nil some)
    rw [most', least', Option.getD_some, Option.getD_some] at level
    rw [most', Option.getD_some] at inside total
    have uniform : ∀ row ∈ rows, row.length = most := by
      intro row listed
      have length : row.length ∈ rows.map List.length := List.mem_map.mpr ⟨row, listed, rfl⟩
      have below := (List.max?_eq_some_iff.mp most').2 _ length
      have above := (List.min?_eq_some_iff.mp least').2 _ length
      omega
    have count : 0 < rows.length := by
      refine Nat.pos_of_ne_zero fun none => some ?_
      rw [List.length_eq_zero_iff.mp none]
      rfl
    rw [List.length_map] at total
    rw [total, List.length_map, Nat.mul_div_cancel_left _ count]
    exact view_rows uniform pad req inside
  next => exact scatter_rows rows pad req t

end Grouping

end GlmSpark.KpoolTail
