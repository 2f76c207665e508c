import Mathlib.Data.List.Basic
import Mathlib.Algebra.Ring.Nat

/-!
# Ragged rows in one flat array

A batch stores the rows of its members one after another in a flat array and
keeps the cumulative row counts beside it. The member that owns a flat row is
found by a right-sided search in those counts. The laws below say that the
search and the flat reads never leave the member they started in.

Members may own any number of rows, also none; nothing here depends on what a
row holds.
-/

namespace GlmSpark.Ragged

universe u
variable {α : Type u}

/-- Number of flat rows before member `member`. -/
def offset (rows : List (List α)) (member : Nat) : Nat :=
  ((rows.take member).map List.length).sum

/-- The cumulative row counts, one more than there are members. -/
def offsets (rows : List (List α)) : List Nat :=
  (List.range (rows.length + 1)).map (offset rows)

/-- The right-sided search of an ascending list: how many leading entries do
not exceed the value. -/
def searchsortedRight (sorted : List Nat) (value : Nat) : Nat :=
  (sorted.takeWhile (fun entry => decide (entry ≤ value))).length

/-- Nothing stands before the first row. -/
@[simp] theorem offset_zero (rows : List (List α)) : offset rows 0 = 0 := by
  simp [offset]

/-- Passing one member adds exactly its own rows. -/
theorem offset_succ (rows : List (List α)) (member : Nat) (inside : member < rows.length) :
    offset rows (member + 1) = offset rows member + rows[member].length := by
  rw [offset, List.take_add_one, List.getElem?_eq_getElem inside]
  simp only [Option.toList_some, List.map_append, List.sum_append, List.map_cons, List.map_nil,
    List.sum_cons, List.sum_nil, Nat.add_zero, offset]

/-- A first member shifts all later offsets by its own rows. -/
theorem offset_cons (first : List α) (rest : List (List α)) (member : Nat) :
    offset (first :: rest) (member + 1) = first.length + offset rest member := by
  simp [offset]

/-- Offsets only depend on the lengths of the members. -/
theorem offset_of_lengths {β : Type*} (rows : List (List α)) (others : List (List β))
    (lengths : rows.map List.length = others.map List.length) (member : Nat) :
    offset rows member = offset others member := by
  have sums := congrArg (fun ls => (ls.take member).sum) lengths
  simpa only [offset, List.map_take] using sums

/-- Offsets never decrease, also across rows without entries. -/
theorem offset_mono (rows : List (List α)) {lower upper : Nat} (ordered : lower ≤ upper) :
    offset rows lower ≤ offset rows upper := by
  induction upper with
  | zero => simp [Nat.le_zero.mp ordered]
  | succ upper ih =>
    rcases Nat.le_succ_iff.mp ordered with earlier | rfl
    · have step : offset rows upper ≤ offset rows (upper + 1) := by
        by_cases inside : upper < rows.length
        · rw [offset_succ rows upper inside]
          omega
        · have beyond : rows.length ≤ upper := Nat.le_of_not_lt inside
          simp [offset, List.take_of_length_le beyond,
            List.take_of_length_le (Nat.le_succ_of_le beyond)]
      exact Nat.le_trans (ih earlier) step
    · exact Nat.le_refl _

/-- Behind the last row stands the whole flat list. -/
@[simp] theorem offset_length (rows : List (List α)) :
    offset rows rows.length = rows.flatten.length := by
  simp [offset, List.length_flatten]

/-- There is one offset a row, and one for the end. -/
@[simp] theorem offsets_length (rows : List (List α)) :
    (offsets rows).length = rows.length + 1 := by
  simp [offsets]

/-- The table of offsets holds each row's offset, and the end at the last place. -/
@[simp] theorem offsets_getElem? (rows : List (List α)) (member : Nat)
    (inside : member ≤ rows.length) : (offsets rows)[member]? = some (offset rows member) := by
  simp [offsets, Nat.lt_succ_of_le inside]

/-- A flat read inside a member's span reads that member's own row. -/
theorem flatten_getElem? (rows : List (List α)) (member row : Nat)
    (inside : member < rows.length) (owned : row < rows[member].length) :
    rows.flatten[offset rows member + row]? = some rows[member][row] := by
  induction rows generalizing member with
  | nil => simp at inside
  | cons first rest ih =>
    cases member with
    | zero =>
      have owned' : row < first.length := owned
      simp [List.getElem?_append_left, owned']
    | succ member =>
      have inside' : member < rest.length := Nat.lt_of_succ_lt_succ inside
      rw [offset_cons, List.flatten_cons, Nat.add_assoc,
        List.getElem?_append_right (Nat.le_add_right _ _), Nat.add_sub_cancel_left]
      exact ih member inside' owned

/-- Lists of one length, one after the other: entry `j` of list `r`. -/
theorem flatten_uniform (size : Nat) (lists : List (List α))
    (uniform : ∀ list ∈ lists, list.length = size) (r j : Nat) (inside : j < size) :
    lists.flatten[r * size + j]? = lists[r]?.bind fun list => list[j]? := by
  induction lists generalizing r with
  | nil => simp
  | cons list lists ih =>
    have first : list.length = size := uniform list List.mem_cons_self
    have later : ∀ list ∈ lists, list.length = size :=
      fun list listed => uniform list (List.mem_cons_of_mem _ listed)
    rw [List.flatten_cons]
    cases r with
    | zero =>
      rw [Nat.zero_mul, Nat.zero_add, List.getElem?_append_left (by omega)]
      rfl
    | succ r =>
      have past : list.length ≤ (r + 1) * size + j := by rw [first, Nat.add_mul]; omega
      have shifted : (r + 1) * size + j - list.length = r * size + j := by
        rw [first, Nat.add_mul]; omega
      rw [List.getElem?_append_right past, shifted, ih later r]
      rfl

/-- Members with equally many rows start at multiples of the size. -/
theorem offset_uniform {rows : List (List α)} {size : Nat} (uniform : ∀ row ∈ rows, row.length = size)
    {member : Nat} (inside : member ≤ rows.length) : offset rows member = member * size := by
  induction member with
  | zero => rw [offset_zero, Nat.zero_mul]
  | succ member ih =>
    rw [offset_succ rows member inside, ih (Nat.le_of_succ_le inside),
      uniform _ (List.getElem_mem inside), Nat.succ_mul]

/-- Every row of a member stays strictly before the next offset. -/
theorem row_before_next (rows : List (List α)) (member row : Nat)
    (inside : member < rows.length) (owned : row < rows[member].length) :
    offset rows member + row < offset rows (member + 1) := by
  rw [offset_succ rows member inside]
  omega

/-- Every row of a member lies inside the flat array. -/
theorem row_before_end (rows : List (List α)) (member row : Nat)
    (inside : member < rows.length) (owned : row < rows[member].length) :
    offset rows member + row < rows.flatten.length := by
  rw [← offset_length]
  exact Nat.lt_of_lt_of_le (row_before_next rows member row inside owned) (offset_mono rows inside)

/-- A value between two neighbouring entries of an ascending list is found at
the position of the upper one. -/
theorem search_between (sorted : List Nat) (value position : Nat)
    (before : ∀ index (stored : index < sorted.length), index < position → sorted[index] ≤ value)
    (after : ∀ stored : position < sorted.length, value < sorted[position])
    (fits : position ≤ sorted.length) : searchsortedRight sorted value = position := by
  induction sorted generalizing position with
  | nil =>
    have atStart : position = 0 := by simpa using fits
    simp [searchsortedRight, atStart]
  | cons entry rest ih =>
    cases position with
    | zero =>
      have above : ¬ entry ≤ value := Nat.not_le_of_lt (after (by simp))
      simp [searchsortedRight, above]
    | succ position =>
      have below : entry ≤ value := before 0 (by simp) (by omega)
      have found : searchsortedRight rest value = position := by
        apply ih position
        · intro index stored earlier
          exact before (index + 1) (by simpa using stored) (by omega)
        · intro stored
          exact after (by simpa using stored)
        · simpa using fits
      simpa [searchsortedRight, below] using found

/-- The search in the cumulative counts finds the owner of a flat row, so a row
is never attributed to another member. -/
theorem search_owner (rows : List (List α)) (member row : Nat)
    (inside : member < rows.length) (owned : row < rows[member].length) :
    searchsortedRight (offsets rows).tail (offset rows member + row) = member := by
  have entry : ∀ index (stored : index < (offsets rows).tail.length),
      (offsets rows).tail[index] = offset rows (index + 1) := by
    intro index stored
    simp [offsets]
  apply search_between
  · intro index stored earlier
    rw [entry index stored]
    have earlierOffset : offset rows (index + 1) ≤ offset rows member := offset_mono rows (by omega)
    omega
  · intro stored
    rw [entry member stored]
    exact row_before_next rows member row inside owned
  · simp only [List.length_tail, offsets_length]
    omega

/-- Every flat row belongs to some member. -/
theorem owner_exists (rows : List (List α)) (flat : Nat) (bounded : flat < rows.flatten.length) :
    ∃ (member row : Nat) (inside : member < rows.length), row < rows[member].length ∧
      flat = offset rows member + row := by
  induction rows generalizing flat with
  | nil => simp at bounded
  | cons first rest ih =>
    by_cases early : flat < first.length
    · exact ⟨0, flat, by simp, early, by simp⟩
    · have remaining : flat - first.length < rest.flatten.length := by
        rw [List.flatten_cons, List.length_append] at bounded
        omega
      obtain ⟨member, row, inside, owned, position⟩ := ih (flat - first.length) remaining
      refine ⟨member + 1, row, by simpa using inside, owned, ?_⟩
      rw [offset_cons]
      omega

/-- The flat rows whose search answers `member` are exactly that member's
consecutive span. -/
theorem owned_rows (rows : List (List α)) (member : Nat) (inside : member < rows.length) :
    (List.range rows.flatten.length).filter
        (fun flat => searchsortedRight (offsets rows).tail flat == member) =
      (List.range rows[member].length).map (offset rows member + ·) := by
  have total : rows.flatten.length =
      offset rows member + (rows[member].length + (rows.flatten.length - offset rows (member + 1))) := by
    have reach : offset rows (member + 1) ≤ rows.flatten.length := by
      rw [← offset_length]
      exact offset_mono rows inside
    rw [offset_succ rows member inside] at reach ⊢
    omega
  have owner : ∀ flat, flat < rows.flatten.length →
      (searchsortedRight (offsets rows).tail flat = member ↔
        offset rows member ≤ flat ∧ flat < offset rows (member + 1)) := by
    intro flat bounded
    obtain ⟨found, row, present, owned, rfl⟩ := owner_exists rows flat bounded
    rw [search_owner rows found row present owned]
    constructor
    · rintro rfl
      exact ⟨Nat.le_add_right _ _, row_before_next rows found row present owned⟩
    · rintro ⟨notBefore, notAfter⟩
      have next : offset rows found + row < offset rows (found + 1) :=
        row_before_next rows found row present owned
      rcases Nat.lt_trichotomy found member with earlier | same | later
      · have := offset_mono rows (show found + 1 ≤ member by omega)
        omega
      · exact same
      · have := offset_mono rows (show member + 1 ≤ found by omega)
        omega
  rw [total, List.range_add, List.range_add, List.filter_append, List.map_append, List.filter_append]
  have before : (List.range (offset rows member)).filter
      (fun flat => searchsortedRight (offsets rows).tail flat == member) = [] := by
    rw [List.filter_eq_nil_iff]
    intro flat bounded
    have early : flat < offset rows member := List.mem_range.mp bounded
    have := owner flat (by omega)
    simp only [beq_iff_eq, this]
    omega
  have during : ((List.range rows[member].length).map (offset rows member + ·)).filter
      (fun flat => searchsortedRight (offsets rows).tail flat == member) =
        (List.range rows[member].length).map (offset rows member + ·) := by
    rw [List.filter_eq_self]
    intro flat present
    obtain ⟨row, bounded, rfl⟩ := List.mem_map.mp present
    simp [search_owner rows member row inside (List.mem_range.mp bounded)]
  have after : (((List.range (rows.flatten.length - offset rows (member + 1))).map
      (rows[member].length + ·)).map (offset rows member + ·)).filter
        (fun flat => searchsortedRight (offsets rows).tail flat == member) = [] := by
    rw [List.filter_eq_nil_iff]
    intro flat present
    simp only [List.map_map, List.mem_map, List.mem_range, Function.comp_apply] at present
    obtain ⟨extra, bounded, rfl⟩ := present
    have := owner (offset rows member + (rows[member].length + extra)) (by omega)
    have next := offset_succ rows member inside
    simp only [beq_iff_eq, this]
    omega
  rw [before, during, after, List.nil_append, List.append_nil]

section Chunks

/-- The consecutive pieces of one size that a loop over a list takes, the last
one possibly shorter. -/
def chunk (size : Nat) (list : List α) (index : Nat) : List α :=
  (list.drop (index * size)).take size

/-- One more piece extends what the loop has seen. -/
theorem take_chunk (size : Nat) (list : List α) (index : Nat) :
    list.take ((index + 1) * size) = list.take (index * size) ++ chunk size list index := by
  rw [Nat.add_mul, Nat.one_mul, List.take_add]
  rfl

/-- Pieces that start inside the list are not empty. -/
theorem chunk_ne_nil (size : Nat) (list : List α) (index : Nat) (positive : 0 < size)
    (inside : index * size < list.length) : chunk size list index ≠ [] := by
  apply List.ne_nil_of_length_pos
  simp only [chunk, List.length_take, List.length_drop]
  omega

/-- The first pieces, in order, are a leading part of the list. -/
theorem chunks_flatten (size : Nat) (list : List α) (count : Nat) :
    ((List.range count).map (chunk size list)).flatten = list.take (count * size) := by
  induction count with
  | zero => simp
  | succ count ih => simp [List.range_succ, ih, take_chunk]

/-- A loop that reaches the end takes the list apart. -/
theorem chunks_whole (size : Nat) (list : List α) (count : Nat) (enough : list.length ≤ count * size) :
    ((List.range count).map (chunk size list)).flatten = list := by
  rw [chunks_flatten, List.take_of_length_le enough]

/-- Parts of one size, joined, are taken apart into the same parts. -/
theorem chunks_of_flatten (size : Nat) (positive : 0 < size) (parts : List (List α))
    (uniform : ∀ part ∈ parts, part.length = size) :
    (List.range (parts.flatten.length / size)).map (chunk size parts.flatten) = parts := by
  induction parts with
  | nil => simp
  | cons first rest ih =>
    have width := uniform first List.mem_cons_self
    have count : (first :: rest).flatten.length / size = rest.flatten.length / size + 1 := by
      rw [List.flatten_cons, List.length_append, width, Nat.add_comm,
        Nat.add_div_right _ positive]
    rw [count, List.range_succ_eq_map, List.map_cons, List.map_map]
    congr 1
    · rw [chunk, Nat.zero_mul, List.drop_zero, List.flatten_cons, ← width, List.take_left]
    · refine Eq.trans (List.map_congr_left fun index _ => ?_)
        (ih fun part member => uniform part (List.mem_cons_of_mem first member))
      have later : (index + 1) * size = first.length + index * size := by
        rw [width, Nat.add_mul, Nat.one_mul, Nat.add_comm]
      rw [Function.comp_apply, chunk, Nat.succ_eq_add_one, later, List.flatten_cons,
        List.drop_length_add_append]
      rfl

/-- A piece is what its positions hold. -/
theorem chunk_eq_map {size index : Nat} {list : List α} {entry : Nat → α}
    (agree : ∀ i < size, list[index * size + i]? = some (entry i)) :
    chunk size list index = (List.range size).map entry := by
  apply List.ext_getElem?
  intro i
  rw [chunk, List.getElem?_take, List.getElem?_drop, List.getElem?_map]
  split
  next inside => rw [agree i inside, List.getElem?_range inside, Option.map_some]
  next outside => rw [List.getElem?_eq_none (by simpa using outside), Option.map_none]

/-- A piece that a leading part has in full is the same in the whole list. -/
theorem chunk_take {size index count : Nat} (list : List α) (inside : (index + 1) * size ≤ count) :
    chunk size (list.take count) index = chunk size list index := by
  rw [Nat.add_mul, Nat.one_mul] at inside
  rw [chunk, chunk, List.drop_take, List.take_take, Nat.min_eq_left (by omega)]

/-- Entries behind a full piece do not change it. -/
theorem chunk_append {size index : Nat} {list : List α} (more : List α)
    (inside : (index + 1) * size ≤ list.length) :
    chunk size (list ++ more) index = chunk size list index := by
  rw [← chunk_take (list ++ more) inside, List.take_left]

end Chunks

end GlmSpark.Ragged
