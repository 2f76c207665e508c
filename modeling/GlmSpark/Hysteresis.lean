import Mathlib.Data.List.Basic
import Mathlib.Order.Defs.LinearOrder
import Mathlib.Order.Lattice

/-!
# Two thresholds with a dead band

A trigger goes high at the upper threshold, low at the lower one, and keeps its side in
between; where both thresholds are met the upper one wins. It remembers its side only, and
that side is where the latest reading outside the dead band was.
-/

namespace GlmSpark.Hysteresis

universe u
variable {α : Type u} [LinearOrder α] (up down : α)

/-- The next side, from the last one and a reading. -/
def trigger (high : Bool) (reading : α) : Bool :=
  if up ≤ reading then true else if reading ≤ down then false else high

/-- A reading outside the dead band, on either side; the thresholds themselves are outside. -/
def Excursion (reading : α) : Prop := up ≤ reading ∨ reading ≤ down

/-- Whether a reading leaves the band is decided by two comparisons. -/
instance : DecidablePred (Excursion up down) := fun reading =>
  inferInstanceAs (Decidable (up ≤ reading ∨ reading ≤ down))

/-- The latest reading outside the dead band. -/
def lastExcursion (readings : List α) : Option α :=
  readings.reverse.find? fun reading => Excursion up down reading

/-- The latest reading outside the dead band was high, or there was none. -/
def Settled (readings : List α) : Prop :=
  ∀ reading ∈ lastExcursion up down readings, up ≤ reading

/-- A reading outside the band is the latest excursion, whatever came before it. -/
theorem lastExcursion_outside (readings : List α) {reading : α}
    (outside : Excursion up down reading) :
    lastExcursion up down (readings ++ [reading]) = some reading := by
  rw [lastExcursion, List.reverse_append, List.reverse_singleton, List.singleton_append]
  exact List.find?_cons_of_pos (by simpa using outside)

/-- A reading in the dead band is passed over. -/
theorem lastExcursion_inside (readings : List α) {reading : α}
    (inside : ¬ Excursion up down reading) :
    lastExcursion up down (readings ++ [reading]) = lastExcursion up down readings := by
  rw [lastExcursion, List.reverse_append, List.reverse_singleton, List.singleton_append,
    List.find?_cons_of_neg (by simpa using inside)]
  rfl

/-- Without readings the side is the high one, where every run starts. -/
theorem settled_nil : Settled up down [] := by
  intro reading latest
  cases latest

/-- One more reading moves the side as the trigger does. -/
theorem settled_append (readings : List α) (reading : α) {high : Bool}
    (side : high = true ↔ Settled up down readings) :
    trigger up down high reading = true ↔ Settled up down (readings ++ [reading]) := by
  by_cases raised : up ≤ reading
  · have latest := lastExcursion_outside up down readings (.inl raised)
    simp [trigger, Settled, latest, raised]
  by_cases lowered : reading ≤ down
  · have latest := lastExcursion_outside up down readings (.inr lowered)
    simp [trigger, Settled, latest, raised, lowered]
  · have outside : ¬ Excursion up down reading := fun excursion => excursion.elim raised lowered
    rw [Settled, lastExcursion_inside up down readings outside]
    simpa [trigger, raised, lowered, Settled] using side

end GlmSpark.Hysteresis
