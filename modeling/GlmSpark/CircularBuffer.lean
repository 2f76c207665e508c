import Mathlib.Data.List.Basic
import Mathlib.Logic.Function.Basic

/-!
# A circular buffer that entries are taken back from

Entry `position` of a growing list is written to cell `position % size`. Entries may be
taken back and written again, so the highest position ever written can lie beyond the end
of the list. A cell still holds its entry when no position a whole turn ahead has been
written, whether or not that position was taken back since.
-/

namespace GlmSpark.CircularBuffer

universe u
variable {α : Type u}

/-- The buffer holds the entries from `low` on, except those that positions below `high` have
overwritten. -/
def Holds (size : ℕ) (buffer : ℕ → α) (entries : List α) (low high : ℕ) : Prop :=
  ∀ position value, low ≤ position → high ≤ position + size →
    entries[position]? = some value → buffer (position % size) = value

variable {size low high : ℕ} {buffer : ℕ → α} {entries : List α}

/-- Positions less than a turn apart have different cells. -/
theorem cells_ne {size lower upper : ℕ} (ordered : lower < upper) (near : upper < lower + size) :
    lower % size ≠ upper % size := by
  intro same
  have gap : (upper - lower) % size = 0 := Nat.sub_mod_eq_zero_of_mod_eq same.symm
  rw [Nat.mod_eq_of_lt (by omega)] at gap
  omega

/-- A list without entries from `low` on needs nothing of the buffer. -/
theorem holds_empty (short : entries.length ≤ low) : Holds size buffer entries low high := by
  intro position value after _ stored
  have inside := (List.getElem?_eq_some_iff.mp stored).1
  omega

/-- The next entry is written over the oldest one. What is held grows by the new position, and the
window below it is what it was. -/
theorem Holds.push (holds : Holds size buffer entries low high) (value : α) :
    Holds size (Function.update buffer (entries.length % size) value) (entries ++ [value]) low
      (max high (entries.length + 1)) := by
  intro position found after intact stored
  by_cases last : position = entries.length
  · rw [last, List.getElem?_append_right (Nat.le_refl _), Nat.sub_self,
      List.getElem?_cons_zero] at stored
    rw [last, Function.update_self]
    exact Option.some.inj stored
  · have inside := (List.getElem?_eq_some_iff.mp stored).1
    rw [List.length_append, List.length_singleton] at inside
    have before : position < entries.length := by omega
    rw [List.getElem?_append_left before] at stored
    rw [Function.update_of_ne (cells_ne before (by omega))]
    exact holds position found after (by omega) stored

/-- Entries are taken back from the end. -/
theorem Holds.truncate (holds : Holds size buffer entries low high) (count : ℕ) :
    Holds size buffer (entries.take count) low high := by
  intro position value after intact stored
  rw [List.getElem?_take] at stored
  split at stored
  · exact holds position value after intact stored
  · cases stored

/-- A smaller window of the same buffer: less is claimed of it. -/
theorem Holds.weaken (holds : Holds size buffer entries low high) {later higher : ℕ}
    (lower : low ≤ later) (upper : high ≤ higher) : Holds size buffer entries later higher :=
  fun position value after intact => holds position value (by omega) (by omega)

/-- A buffer that was filled with the last entries. -/
theorem holds_filled
    (filled : ∀ position value, low ≤ position → entries[position]? = some value →
      buffer (position % size) = value) : Holds size buffer entries low high :=
  fun position value after _ => filled position value after

end GlmSpark.CircularBuffer
