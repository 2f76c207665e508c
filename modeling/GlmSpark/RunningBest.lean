import Mathlib.Data.List.Induction
import Mathlib.Order.Basic
import Mathlib.Order.Lattice

/-!
# The running best of a list

A loop keeps the best value seen so far and the item that gave it; an item replaces
the best one only when its value is strictly greater. Over ascending items the loop
ends at the first item of greatest value, or where it started when no value exceeds
the start.
-/

namespace GlmSpark.RunningBest

universe u v
variable {ι : Type u} {V : Type v} [LinearOrder ι] [LinearOrder V]

/-- One round of the loop. -/
def round (value : ι → V) (best : V × ι) (item : ι) : V × ι :=
  if best.1 < value item then (value item, item) else best

/-- The outcome of the loop on `items` from a starting value and item. -/
inductive Outcome (value : ι → V) (items : List ι) (start : V × ι) : V × ι → Prop
  | kept (below : ∀ item ∈ items, value item ≤ start.1) : Outcome value items start start
  | found (item : ι) (listed : item ∈ items) (above : start.1 < value item)
      (greatest : ∀ other ∈ items, value other ≤ value item)
      (first : ∀ other ∈ items, other < item → value other < value item) :
      Outcome value items start (value item, item)

/-- The loop over ascending items ends at the first greatest value above its start. -/
theorem outcome (value : ι → V) (items : List ι) (start : V × ι)
    (ascending : items.Pairwise (· < ·)) :
    Outcome value items start (items.foldl (round value) start) := by
  induction items using List.reverseRecOn with
  | nil => exact .kept fun _ member => nomatch member
  | append_singleton items last ih =>
    obtain ⟨sorted, _, before⟩ := List.pairwise_append.mp ascending
    rw [List.foldl_append, List.foldl_cons, List.foldl_nil]
    have extend : ∀ {holds : ι → Prop}, (∀ other ∈ items, holds other) → holds last →
        ∀ other ∈ items ++ [last], holds other := fun earlier new =>
      List.forall_mem_append.mpr ⟨earlier, List.forall_mem_singleton.mpr new⟩
    have reached := ih sorted
    generalize items.foldl (round value) start = best at reached ⊢
    rw [round]
    cases reached with
    | kept below =>
      split
      next above =>
        refine .found last (by simp) above ?_ ?_
        · exact extend (fun other listed => (below other listed).trans above.le) le_rfl
        · exact extend (fun other listed _ => (below other listed).trans_lt above)
            fun lower => absurd lower (lt_irrefl last)
      next bounded => exact .kept (extend below (le_of_not_gt bounded))
    | found item listed above greatest first =>
      have early : item < last := before item listed last (List.mem_singleton_self last)
      split
      next better =>
        refine .found last (by simp) (above.trans better) ?_ ?_
        · exact extend (fun other there => (greatest other there).trans better.le) le_rfl
        · exact extend (fun other there _ => (greatest other there).trans_lt better)
            fun lower => absurd lower (lt_irrefl last)
      next bounded =>
        refine .found item (List.mem_append_left _ listed) above ?_ ?_
        · exact extend greatest (le_of_not_gt bounded)
        · exact extend first fun lower => absurd lower early.asymm

end GlmSpark.RunningBest
