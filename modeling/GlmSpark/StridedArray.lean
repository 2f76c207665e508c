import Mathlib.Algebra.BigOperators.Ring.List
import Mathlib.Algebra.Order.Ring.Int
import Mathlib.Data.List.Forall2
import Mathlib.Tactic.Ring

/-!
# Strided arrays

An array finds its elements in a memory of cells: an element at an index starts
where the array starts, plus the index times the strides, and takes a fixed number
of cells. Strides may be anything; an array whose elements follow one another in
the order of their indices can be written out as a run of cells and read back.

Cells are arbitrary.
-/

namespace GlmSpark.StridedArray

universe u
variable {γ : Type u}

section Indices

/-- An index has a number below every dimension. -/
def Valid (shape index : List ℕ) : Prop := List.Forall₂ (· < ·) index shape

/-- How many elements come before one, in the order of the indices. -/
def ravel : List ℕ → List ℕ → ℕ
  | _ :: dims, i :: index => i * dims.prod + ravel dims index
  | _, _ => 0

/-- The index with a number of elements before it. -/
def unravel : List ℕ → ℕ → List ℕ
  | [], _ => []
  | _ :: dims, position => position / dims.prod :: unravel dims (position % dims.prod)

/-- An index of the array has a position in it. -/
theorem ravel_lt {shape index : List ℕ} (valid : Valid shape index) :
    ravel shape index < shape.prod := by
  induction valid with
  | nil => exact Nat.one_pos
  | @cons i d index dims below _ ih =>
    rw [ravel, List.prod_cons]
    calc i * dims.prod + ravel dims index
        < i * dims.prod + dims.prod := Nat.add_lt_add_left ih _
      _ = (i + 1) * dims.prod := by rw [Nat.add_mul, Nat.one_mul]
      _ ≤ d * dims.prod := Nat.mul_le_mul_right _ below

/-- The position of an index gives the index back. -/
theorem unravel_ravel {shape index : List ℕ} (valid : Valid shape index) :
    unravel shape (ravel shape index) = index := by
  induction valid with
  | nil => rfl
  | @cons i d index dims _ later ih =>
    have below := ravel_lt later
    have positive : 0 < dims.prod := Nat.zero_lt_of_lt below
    rw [ravel, unravel, Nat.mul_add_mod', Nat.mod_eq_of_lt below, ih, Nat.add_comm,
      Nat.add_mul_div_right _ _ positive, Nat.div_eq_of_lt below, Nat.zero_add]

/-- Where an index leads to with given strides. -/
def steps (strides : List ℤ) (index : List ℕ) : ℤ :=
  (List.zipWith (fun (stride : ℤ) (i : ℕ) => stride * i) strides index).sum

/-- Strides of elements that follow one another. -/
def packed (width : ℕ) : List ℕ → List ℤ
  | [] => []
  | _ :: dims => ((width * dims.prod : ℕ) : ℤ) :: packed width dims

/-- Packed strides are one a dimension. -/
@[simp] theorem packed_length (width : ℕ) (shape : List ℕ) :
    (packed width shape).length = shape.length := by
  induction shape with
  | nil => rfl
  | cons d dims ih => rw [packed, List.length_cons, ih, List.length_cons]

/-- Strides under which elements follow one another; the stride of a single row does not matter. -/
def Packed (width : ℕ) : List ℕ → List ℤ → Prop
  | [], [] => True
  | d :: dims, stride :: strides =>
    (d = 1 ∨ stride = (width * dims.prod : ℕ)) ∧ Packed width dims strides
  | _, _ => False

/-- Whether strides are packed is decided dimension by dimension, from the last product outwards. -/
instance decidablePacked (width : ℕ) :
    (shape : List ℕ) → (strides : List ℤ) → Decidable (Packed width shape strides)
  | [], [] => isTrue trivial
  | [], _ :: _ => isFalse id
  | _ :: _, [] => isFalse id
  | _ :: dims, _ :: strides =>
    have := decidablePacked width dims strides
    inferInstanceAs (Decidable (_ ∧ _))

/-- The strides computed for a shape are packed. -/
theorem packed_packed (width : ℕ) (shape : List ℕ) : Packed width shape (packed width shape) := by
  induction shape with
  | nil => trivial
  | cons d dims ih => exact ⟨Or.inr rfl, ih⟩

/-- Under such strides an index leads to its position. -/
theorem steps_packed {width : ℕ} {shape index : List ℕ} {strides : List ℤ}
    (follow : Packed width shape strides) (valid : Valid shape index) :
    steps strides index = (width * ravel shape index : ℕ) := by
  induction valid generalizing strides with
  | nil => simp [steps, ravel]
  | @cons i d index dims below _ ih =>
    cases strides with
    | nil => exact follow.elim
    | cons stride strides =>
      obtain ⟨first, rest⟩ := follow
      have later := ih rest
      rw [steps] at later ⊢
      rw [List.zipWith_cons_cons, List.sum_cons, later, ravel]
      rcases first with one | rfl
      · obtain rfl : i = 0 := by omega
        simp
      · push_cast
        ring

end Indices

/-- Elements of `width` cells in a memory. -/
structure Strided (γ : Type u) where
  width : ℕ
  shape : List ℕ
  strides : List ℤ
  start : ℤ
  memory : ℤ → γ
  /-- Every dimension has a stride. -/
  fits : strides.length = shape.length

namespace Strided

/-- The cells of an element. -/
def element (a : Strided γ) (index : List ℕ) : List γ :=
  (List.range a.width).map fun k : ℕ => a.memory (a.start + steps a.strides index + k)

/-- Two arrays with the same elements. -/
structure Same (a b : Strided γ) : Prop where
  width : a.width = b.width
  shape : a.shape = b.shape
  element : ∀ index, Valid a.shape index → a.element index = b.element index

/-- An array is the same as itself. -/
theorem Same.refl (a : Strided γ) : Same a a := ⟨rfl, rfl, fun _ _ => rfl⟩

/-- Sameness is transitive: it compares shapes and elements and leaves the memory layout out. -/
theorem Same.trans {a b c : Strided γ} (first : Same a b) (second : Same b c) : Same a c where
  width := first.width.trans second.width
  shape := first.shape.trans second.shape
  element index valid := by
    rw [first.element index valid, second.element index (first.shape ▸ valid)]

/-- Whether the elements follow one another; an array without elements passes. -/
def Contiguous (a : Strided γ) : Prop := 0 ∈ a.shape ∨ Packed a.width a.shape a.strides

/-- Whether an array is contiguous is decided from its shape and strides. -/
instance (a : Strided γ) : Decidable a.Contiguous := inferInstanceAs (Decidable (_ ∨ _))

/-- The elements one after another in a memory. -/
def mapped (memory : ℤ → γ) (start : ℤ) (width : ℕ) (shape : List ℕ) : Strided γ :=
  ⟨width, shape, packed width shape, start, memory, packed_length width shape⟩

/-- A copy with the elements one after another. -/
def copy (a : Strided γ) : Strided γ :=
  mapped (fun cell => a.memory (a.start +
    steps a.strides (unravel a.shape (cell.toNat / a.width)) + (cell.toNat % a.width : ℕ)))
    0 a.width a.shape

/-- The cells an array with consecutive elements takes. -/
def cells (a : Strided γ) : List γ :=
  (List.range (a.width * a.shape.prod)).map fun k : ℕ => a.memory (a.start + k)

/-- An end of a slice: counted from the last row where negative, and within the rows. -/
def bound (stop : ℤ) (rows : ℕ) : ℕ :=
  (if stop < 0 then max (stop + rows) 0 else min stop rows).toNat

/-- `a[lo:hi]`. -/
def slice (a : Strided γ) (some_ : a.shape ≠ []) (lo hi : ℤ) : Strided γ where
  width := a.width
  shape := (bound hi (a.shape.headD 0) - bound lo (a.shape.headD 0)) :: a.shape.tail
  strides := a.strides
  start := a.start + a.strides.headD 0 * bound lo (a.shape.headD 0)
  memory := a.memory
  fits := by
    rw [a.fits, List.length_cons, List.length_tail]
    have positive := List.length_pos_iff.mpr some_
    omega

/-- The first element, as an array without dimensions. -/
def scalar (a : Strided γ) : Strided γ := ⟨a.width, [], [], a.start, a.memory, List.length_nil⟩

/-- A slice bound is clamped to the rows there are, as in Python. -/
theorem bound_le (stop : ℤ) (rows : ℕ) : bound stop rows ≤ rows := by
  rw [bound]
  split <;> omega

section Elements

variable (a : Strided γ)

/-- An element has the width of its type. -/
@[simp] theorem element_length (index : List ℕ) : (a.element index).length = a.width := by
  rw [element, List.length_map, List.length_range]

/-- All elements together have the width times the number of elements. -/
@[simp] theorem cells_length : a.cells.length = a.width * a.shape.prod := by
  rw [cells, List.length_map, List.length_range]

/-- The cells of an element of a mapped memory. -/
theorem mapped_element (memory : ℤ → γ) (start : ℤ) (width : ℕ) (shape index : List ℕ)
    (valid : Valid shape index) :
    (mapped memory start width shape).element index =
      (List.range width).map fun k : ℕ =>
        memory (start + (width * ravel shape index : ℕ) + k) := by
  rw [element, mapped]
  dsimp only
  rw [steps_packed (packed_packed width shape) valid]

/-- A copy has the elements of the original at the same indices. -/
theorem copy_same : Same a.copy a := by
  refine ⟨rfl, rfl, fun index valid => ?_⟩
  change Valid a.shape index at valid
  rw [copy, mapped_element _ _ _ _ _ valid, element]
  refine List.map_congr_left fun k listed => ?_
  have inside : k < a.width := List.mem_range.mp listed
  have cell : (0 + ((a.width * ravel a.shape index : ℕ) : ℤ) + k).toNat =
      a.width * ravel a.shape index + k := by omega
  have quotient : (a.width * ravel a.shape index + k) / a.width = ravel a.shape index := by
    rw [Nat.mul_add_div (Nat.zero_lt_of_lt inside), Nat.div_eq_of_lt inside, Nat.add_zero]
  have rest : (a.width * ravel a.shape index + k) % a.width = k := by
    rw [Nat.mul_add_mod, Nat.mod_eq_of_lt inside]
  rw [cell, quotient, rest, unravel_ravel valid]

/-- A copy is laid out anew, so it is contiguous whatever it was copied from. -/
theorem copy_contiguous : a.copy.Contiguous := Or.inr (packed_packed a.width a.shape)

/-- Where the elements follow one another, an element's cells are at its position. -/
theorem element_eq_cells (follow : a.Contiguous) (index : List ℕ) (valid : Valid a.shape index) :
    a.element index = (a.cells.drop (a.width * ravel a.shape index)).take a.width := by
  have below := ravel_lt valid
  have strides : Packed a.width a.shape a.strides := by
    rcases follow with none | packed
    · rw [List.prod_eq_zero_iff.mpr none] at below
      exact absurd below (Nat.not_lt_zero _)
    · exact packed
  have room : a.width * ravel a.shape index + a.width ≤ a.width * a.shape.prod := by
    rw [← Nat.mul_succ]
    exact Nat.mul_le_mul_left _ below
  apply List.ext_getElem?
  intro k
  by_cases inside : k < a.width
  · rw [List.getElem?_take_of_lt inside, List.getElem?_drop, element, cells, List.getElem?_map,
      List.getElem?_map, List.getElem?_range inside, List.getElem?_range (by omega),
      steps_packed strides valid, Option.map_some, Option.map_some]
    congr 2
    omega
  · rw [List.getElem?_eq_none (by simp; omega), List.getElem?_eq_none (by simp; omega)]

/-- A memory that holds an array's cells holds the array. -/
theorem mapped_same (follow : a.Contiguous) (memory : ℤ → γ) (start : ℤ)
    (holds : ∀ (k : ℕ) (inside : k < a.cells.length), memory (start + k) = a.cells[k]) :
    Same (mapped memory start a.width a.shape) a := by
  refine ⟨rfl, rfl, fun index valid => ?_⟩
  change Valid a.shape index at valid
  have below := ravel_lt valid
  have room : a.width * ravel a.shape index + a.width ≤ a.width * a.shape.prod := by
    rw [← Nat.mul_succ]
    exact Nat.mul_le_mul_left _ below
  rw [mapped_element _ _ _ _ _ valid, a.element_eq_cells follow index valid]
  apply List.ext_getElem?
  intro k
  by_cases inside : k < a.width
  · have there : a.width * ravel a.shape index + k < a.cells.length := by
      rw [cells_length]
      omega
    rw [List.getElem?_take_of_lt inside, List.getElem?_drop, List.getElem?_map,
      List.getElem?_range inside, List.getElem?_eq_getElem there, Option.map_some, ← holds _ there]
    congr 2
    push_cast
    ring
  · rw [List.getElem?_eq_none (by simp; omega), List.getElem?_eq_none (by simp; omega)]

variable {a}

/-- A row of a slice is a row of the array. -/
theorem slice_element (some_ : a.shape ≠ []) (lo hi : ℤ) (i : ℕ) (index : List ℕ) :
    (a.slice some_ lo hi).element (i :: index) =
      a.element ((bound lo (a.shape.headD 0) + i) :: index) := by
  obtain ⟨stride, strides, split⟩ : ∃ stride strides, a.strides = stride :: strides := by
    refine List.exists_cons_of_length_pos ?_
    rw [a.fits]
    exact List.length_pos_iff.mpr some_
  rw [element, element, slice]
  refine List.map_congr_left fun k _ => ?_
  dsimp only
  rw [split, steps, steps, List.zipWith_cons_cons, List.zipWith_cons_cons, List.sum_cons,
    List.sum_cons, List.headD_cons]
  congr 1
  push_cast
  ring

/-- Slices of the same arrays are the same. -/
theorem Same.slice {b : Strided γ} (same : Same a b) (some_ : a.shape ≠ []) (lo hi : ℤ) :
    Same (a.slice some_ lo hi) (b.slice (same.shape ▸ some_) lo hi) := by
  refine ⟨same.width, ?_, fun index valid => ?_⟩
  · change _ :: a.shape.tail = _ :: b.shape.tail
    rw [same.shape]
  · cases index with
    | nil => exact nomatch valid
    | cons i index =>
      obtain ⟨below, later⟩ := List.forall₂_cons.mp valid
      have last := bound_le hi (a.shape.headD 0)
      obtain ⟨rows, dims, split⟩ := List.exists_cons_of_ne_nil some_
      rw [slice_element, slice_element, ← same.shape]
      apply same.element
      rw [split] at below last later ⊢
      exact List.Forall₂.cons (by rw [List.headD_cons] at *; omega) later

end Elements

end Strided

end GlmSpark.StridedArray
