import Mathlib.Data.List.Basic
import Mathlib.Data.List.Forall2
import Mathlib.Order.BoundedOrder.Basic
import Mathlib.Order.MinMax

/-!
# First maxima of valued entries

A selection over scored entries returns the greatest value and, among the
entries that reach it, the lowest id. The first maximum of a list does not depend
on the order of the list, is found from the first maxima of its parts, and is
already decided by any part that keeps every entry of greatest value.

The values form a linear order with a least element, which stands for an absent
score. Nothing here depends on what the entries are.
-/

namespace GlmSpark.FirstMaximum

universe u
variable {V : Type u} [LinearOrder V]

/-- `best` is an entry of greatest value and of lowest id among those. -/
structure IsFirst (entries : List (V × Nat)) (best : V × Nat) : Prop where
  present : best ∈ entries
  greatest : ∀ entry ∈ entries, entry.1 ≤ best.1
  lowest : ∀ entry ∈ entries, entry.1 = best.1 → best.2 ≤ entry.2

/-- The running best after one more entry: a greater value wins, and on equal
values the lower id. -/
def better (old new : V × Nat) : V × Nat :=
  if old.1 < new.1 ∨ new.1 = old.1 ∧ new.2 < old.2 then new else old

namespace IsFirst

variable {entries others : List (V × Nat)} {best other : V × Nat}

/-- There is at most one first maximum. -/
theorem unique (first : IsFirst entries best) (second : IsFirst entries other) : best = other := by
  have values : best.1 = other.1 :=
    le_antisymm (second.greatest best first.present) (first.greatest other second.present)
  have ids : best.2 = other.2 :=
    le_antisymm (first.lowest other second.present values.symm)
      (second.lowest best first.present values)
  exact Prod.ext values ids

/-- The first maximum only depends on which entries there are, not on their
order. -/
theorem of_mem_iff (same : ∀ entry, entry ∈ others ↔ entry ∈ entries)
    (first : IsFirst entries best) : IsFirst others best where
  present := (same best).mpr first.present
  greatest := fun entry member => first.greatest entry ((same entry).mp member)
  lowest := fun entry member => first.lowest entry ((same entry).mp member)

/-- The better one of two first maxima is the first maximum of both lists
together. -/
theorem append (first : IsFirst entries best) (second : IsFirst others other) :
    IsFirst (entries ++ others) (better best other) := by
  unfold better
  split
  case isTrue taken =>
    have above : best.1 ≤ other.1 := by
      rcases taken with strict | ⟨same, _⟩
      · exact strict.le
      · exact same.ge
    refine ⟨List.mem_append_right _ second.present, ?_, ?_⟩
    · intro entry member
      rcases List.mem_append.mp member with early | late
      · exact (first.greatest entry early).trans above
      · exact second.greatest entry late
    · intro entry member equal
      rcases List.mem_append.mp member with early | late
      · rcases taken with strict | ⟨same, lower⟩
        · have below : entry.1 ≤ best.1 := first.greatest entry early
          exact absurd (equal ▸ below) strict.not_ge
        · exact lower.le.trans (first.lowest entry early (equal.trans same))
      · exact second.lowest entry late equal
  case isFalse kept =>
    have below : other.1 ≤ best.1 := le_of_not_gt fun strict => kept (Or.inl strict)
    refine ⟨List.mem_append_left _ first.present, ?_, ?_⟩
    · intro entry member
      rcases List.mem_append.mp member with early | late
      · exact first.greatest entry early
      · exact (second.greatest entry late).trans below
    · intro entry member equal
      rcases List.mem_append.mp member with early | late
      · exact first.lowest entry early equal
      · have same : other.1 = best.1 := le_antisymm below (equal ▸ second.greatest entry late)
        have ordered : best.2 ≤ other.2 := le_of_not_gt fun lower => kept (Or.inr ⟨same, lower⟩)
        exact ordered.trans (second.lowest entry late (equal.trans same.symm))

/-- A single entry is its own first maximum. -/
theorem singleton (entry : V × Nat) : IsFirst [entry] entry :=
  ⟨by simp, by simp, by simp⟩

/-- Every nonempty list has a first maximum. -/
theorem exists_of_nonempty (nonempty : entries ≠ []) : ∃ best, IsFirst entries best := by
  induction entries with
  | nil => exact absurd rfl nonempty
  | cons entry rest ih =>
    by_cases last : rest = []
    · subst last
      exact ⟨entry, singleton entry⟩
    · obtain ⟨best, first⟩ := ih last
      exact ⟨better entry best, (singleton entry).append first⟩

/-- A part that keeps every entry of greatest value has the whole list's first
maximum. -/
theorem of_part (part : ∀ entry ∈ others, entry ∈ entries)
    (keeps : ∀ entry ∈ entries, (∀ rival ∈ entries, rival.1 ≤ entry.1) → entry ∈ others)
    (first : IsFirst others best) : IsFirst entries best := by
  obtain ⟨top, whole⟩ := exists_of_nonempty (List.ne_nil_of_mem (part best first.present))
  have kept : top ∈ others := keeps top whole.present whole.greatest
  have greatest : ∀ entry ∈ entries, entry.1 ≤ best.1 := fun entry member =>
    (whole.greatest entry member).trans (first.greatest top kept)
  refine ⟨part best first.present, greatest, ?_⟩
  intro entry member equal
  exact first.lowest entry (keeps entry member fun rival there => equal ▸ greatest rival there) equal

/-- Shifting every id by the same amount shifts the first maximum. -/
theorem shift (amount : Nat) (first : IsFirst entries best) :
    IsFirst (entries.map fun entry => (entry.1, amount + entry.2)) (best.1, amount + best.2) := by
  refine ⟨List.mem_map.mpr ⟨best, first.present, rfl⟩, ?_, ?_⟩
  · rintro _ member
    obtain ⟨entry, there, rfl⟩ := List.mem_map.mp member
    exact first.greatest entry there
  · rintro _ member equal
    obtain ⟨entry, there, rfl⟩ := List.mem_map.mp member
    exact Nat.add_le_add_left (first.lowest entry there equal) amount

end IsFirst

section Computed

variable [OrderBot V]

/-- The greatest of some values; the least element when there is none. -/
def maxValue (values : List V) : V := values.foldl max ⊥

/-- The first index of a greatest value. -/
def argmax (values : List V) : Nat := values.idxOf (maxValue values)

/-- The greatest value and the lowest id among the entries that reach it. -/
def select (entries : List (V × Nat)) : V × Option Nat :=
  let greatest := maxValue (entries.map Prod.fst)
  (greatest, ((entries.filter fun entry => entry.1 = greatest).map Prod.snd).min?)

omit [OrderBot V] in
/-- A running maximum is its start or one of the values, and bounds them all. -/
theorem foldl_max (start : V) (values : List V) :
    (values.foldl max start = start ∨ values.foldl max start ∈ values) ∧
      start ≤ values.foldl max start ∧ ∀ value ∈ values, value ≤ values.foldl max start := by
  induction values generalizing start with
  | nil => simp
  | cons value rest ih =>
    obtain ⟨found, above, bounds⟩ := ih (max start value)
    refine ⟨?_, (le_max_left _ _).trans above, ?_⟩
    · rcases found with same | later
      · rcases max_choice start value with left | right
        · exact Or.inl (same.trans left)
        · exact Or.inr (List.mem_cons.mpr (Or.inl (same.trans right)))
      · exact Or.inr (List.mem_cons_of_mem _ later)
    · intro entry member
      rcases List.mem_cons.mp member with rfl | later
      · exact (le_max_right _ _).trans above
      · exact bounds entry later

/-- Every value of a list is at most the running maximum over it. -/
theorem le_maxValue {values : List V} {value : V} (member : value ∈ values) :
    value ≤ maxValue values :=
  (foldl_max ⊥ values).2.2 value member

/-- The running maximum of a list that is not empty is one of its values, so the initial bottom
never shows. -/
theorem maxValue_mem {values : List V} (nonempty : values ≠ []) : maxValue values ∈ values := by
  rcases (foldl_max ⊥ values).1 with least | found
  · obtain ⟨value, member⟩ := List.exists_mem_of_ne_nil values nonempty
    have bottom : value = ⊥ := le_bot_iff.mp (least ▸ le_maxValue member)
    have same : maxValue values = ⊥ := least
    rw [same, ← bottom]
    exact member
  · exact found

/-- A member that no value exceeds is the maximum. -/
theorem maxValue_eq_of_greatest {values : List V} {value : V} (member : value ∈ values)
    (greatest : ∀ rival ∈ values, rival ≤ value) : maxValue values = value :=
  le_antisymm (greatest _ (maxValue_mem (List.ne_nil_of_mem member))) (le_maxValue member)

/-- The first index of a greatest value is an index, reaches the maximum, and no
earlier index does. -/
theorem argmax_spec {values : List V} (nonempty : values ≠ []) :
    ∃ inside : argmax values < values.length, values[argmax values] = maxValue values ∧
      ∀ index (there : index < values.length), values[index] = maxValue values →
        argmax values ≤ index := by
  have inside : argmax values < values.length := List.idxOf_lt_length_of_mem (maxValue_mem nonempty)
  refine ⟨inside, List.getElem_idxOf inside, ?_⟩
  intro index there reached
  by_contra later
  have unreached := List.not_of_lt_findIdx (Nat.lt_of_not_le later)
  simp [reached] at unreached

/-- Appending least elements moves neither the maximum nor its first index. -/
theorem argmax_append_bot {values : List V} (nonempty : values ≠ []) (count : Nat) :
    maxValue (values ++ List.replicate count ⊥) = maxValue values ∧
      argmax (values ++ List.replicate count ⊥) = argmax values := by
  have same : maxValue (values ++ List.replicate count ⊥) = maxValue values := by
    apply maxValue_eq_of_greatest (List.mem_append_left _ (maxValue_mem nonempty))
    intro rival member
    rcases List.mem_append.mp member with real | padding
    · exact le_maxValue real
    · rw [List.eq_of_mem_replicate padding]
      exact bot_le
  refine ⟨same, ?_⟩
  unfold argmax
  rw [same, List.idxOf_append_of_mem (maxValue_mem nonempty)]

/-- The computed selection is the first maximum. -/
theorem select_isFirst {entries : List (V × Nat)} {best : V × Nat} (first : IsFirst entries best) :
    select entries = (best.1, some best.2) := by
  have value : maxValue (entries.map Prod.fst) = best.1 := by
    apply maxValue_eq_of_greatest (List.mem_map_of_mem first.present)
    rintro _ member
    obtain ⟨entry, there, rfl⟩ := List.mem_map.mp member
    exact first.greatest entry there
  have id : ((entries.filter fun entry => entry.1 = best.1).map Prod.snd).min? = some best.2 := by
    rw [List.min?_eq_some_iff]
    refine ⟨List.mem_map_of_mem (List.mem_filter.mpr ⟨first.present, by simp⟩), ?_⟩
    intro id member
    obtain ⟨entry, there, rfl⟩ := List.mem_map.mp member
    obtain ⟨inside, equal⟩ := List.mem_filter.mp there
    exact first.lowest entry inside (by simpa using equal)
  simp only [select, value, id]

/-- Parts whose ids ascend from part to part: the first part with the greatest
maximum holds the first maximum of them all. -/
theorem first_of_parts {parts : List (List (V × Nat))} {bests : List (V × Nat)}
    (nonempty : bests ≠ []) (each : List.Forall₂ IsFirst parts bests)
    (ascending : parts.Pairwise fun early late => ∀ entry ∈ early, ∀ other ∈ late,
      entry.2 < other.2) :
    ∃ best, bests[argmax (bests.map Prod.fst)]? = some best ∧ IsFirst parts.flatten best := by
  have mapped : bests.map Prod.fst ≠ [] := by simpa using nonempty
  obtain ⟨inside, reached, earliest⟩ := argmax_spec mapped
  have stored : argmax (bests.map Prod.fst) < bests.length := by simpa using inside
  have sizes : parts.length = bests.length := each.length_eq
  have at_part : ∀ index (there : index < bests.length),
      IsFirst (parts.get ⟨index, sizes ▸ there⟩) bests[index] := by
    intro index there
    exact each.get (sizes ▸ there) there
  have value : bests[argmax (bests.map Prod.fst)].1 = maxValue (bests.map Prod.fst) := by
    simpa using reached
  refine ⟨bests[argmax (bests.map Prod.fst)], List.getElem?_eq_getElem stored, ?_, ?_, ?_⟩
  · exact List.mem_flatten.mpr ⟨_, List.getElem_mem _, (at_part _ stored).present⟩
  · intro entry member
    obtain ⟨part, listed, there⟩ := List.mem_flatten.mp member
    obtain ⟨index, bounded, rfl⟩ := List.getElem_of_mem listed
    have own := (at_part index (sizes ▸ bounded)).greatest entry there
    have top : bests[index].1 ≤ maxValue (bests.map Prod.fst) :=
      le_maxValue (List.mem_map_of_mem (List.getElem_mem _))
    exact value ▸ own.trans top
  · intro entry member equal
    obtain ⟨part, listed, there⟩ := List.mem_flatten.mp member
    obtain ⟨index, bounded, rfl⟩ := List.getElem_of_mem listed
    have own := at_part index (sizes ▸ bounded)
    have top : bests[index].1 ≤ maxValue (bests.map Prod.fst) :=
      le_maxValue (List.mem_map_of_mem (List.getElem_mem _))
    have tied : bests[index].1 = maxValue (bests.map Prod.fst) :=
      le_antisymm top ((value ▸ equal ▸ own.greatest entry there))
    have notBefore : argmax (bests.map Prod.fst) ≤ index :=
      earliest index (by simpa using sizes ▸ bounded) (by simpa using tied)
    rcases Nat.eq_or_lt_of_le notBefore with same | before
    · have own' : IsFirst parts[index] bests[argmax (bests.map Prod.fst)] := by
        simpa only [same, List.get_eq_getElem] using own
      exact own'.lowest entry there equal
    · have ordered := List.pairwise_iff_getElem.mp ascending _ _ (sizes ▸ stored) bounded before
      exact (ordered _ (at_part _ stored).present entry there).le

end Computed

end GlmSpark.FirstMaximum
