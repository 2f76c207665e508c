import Mathlib.Order.Bounds.Basic
import Mathlib.Data.Nat.Notation

/-!
# Tables that remember the latest position of every key

Keys occur at natural positions. A table over an interval of positions is a list
of pairs that names, for every key of the interval, its latest occurrence among
those it names. Tables over adjacent intervals can be put together, kept apart
as layers and asked from the newest to the oldest; each way the first answer is
the latest occurrence.

Keys and occurrences are arbitrary; nothing is said about how a table is
ordered or searched.
-/

namespace GlmSpark.LatestTable

universe u v
variable {κ : Type u}

/-- The greatest number with a property, or nothing when no number has it. -/
def IsLatest (holds : ℕ → Prop) : Option ℕ → Prop
  | none => ∀ position, ¬ holds position
  | some position => IsGreatest holds position

/-- There is one latest position at most, so two tables that are right agree. -/
theorem IsLatest.unique {holds : ℕ → Prop} {one other : Option ℕ} (first : IsLatest holds one)
    (second : IsLatest holds other) : one = other := by
  cases one with
  | none =>
    cases other with
    | none => rfl
    | some position => exact absurd second.1 (first position)
  | some position =>
    cases other with
    | none => exact absurd first.1 (second position)
    | some also => exact congrArg some (IsGreatest.unique first second)

/-- Only the property matters, not how it is written. -/
theorem IsLatest.congr {holds also : ℕ → Prop} {answer : Option ℕ}
    (same : ∀ position, holds position ↔ also position) (latest : IsLatest holds answer) :
    IsLatest also answer := by
  have equal : holds = also := funext fun position => propext (same position)
  rwa [← equal]

/-- The newer answer counts where there is one, when all its positions come later. -/
theorem IsLatest.or {newer older : ℕ → Prop} {new old : Option ℕ} (first : IsLatest newer new)
    (second : IsLatest older old)
    (apart : ∀ before after, older before → newer after → before ≤ after) :
    IsLatest (fun position => newer position ∨ older position) (new.or old) := by
  cases new with
  | some position =>
    refine ⟨Or.inl first.1, ?_⟩
    rintro other (after | before)
    · exact first.2 after
    · exact apart other position before first.1
  | none =>
    cases old with
    | some position =>
      refine ⟨Or.inr second.1, ?_⟩
      rintro other (after | before)
      · exact absurd after (first other)
      · exact second.2 before
    | none =>
      rintro other (after | before)
      · exact first other after
      · exact second other before

/-- A list of pairs names occurrences in an interval, and for each of them one at least as late. -/
structure Represents (occurs : κ → ℕ → Prop) (low high : ℕ) (pairs : List (κ × ℕ)) : Prop where
  sound : ∀ key position, (key, position) ∈ pairs →
    low ≤ position ∧ position < high ∧ occurs key position
  latest : ∀ key position, low ≤ position → position < high → occurs key position →
    ∃ later, position ≤ later ∧ (key, later) ∈ pairs

/-- Some pairs of a list with one at least as late for each of them. -/
structure Reduces (reduced pairs : List (κ × ℕ)) : Prop where
  sound : ∀ key position, (key, position) ∈ reduced → (key, position) ∈ pairs
  latest : ∀ key position, (key, position) ∈ pairs →
    ∃ later, position ≤ later ∧ (key, later) ∈ reduced

section Represents

variable {occurs : κ → ℕ → Prop} {low middle high : ℕ} {pairs older newer : List (κ × ℕ)}

/-- Dropping what is not the latest of its key changes no table. -/
theorem Represents.reduce (table : Represents occurs low high pairs)
    {reduced : List (κ × ℕ)} (less : Reduces reduced pairs) :
    Represents occurs low high reduced := by
  constructor
  · intro key position listed
    exact table.sound key position (less.sound key position listed)
  · intro key position above below there
    obtain ⟨later, after, listed⟩ := table.latest key position above below there
    obtain ⟨last, afterwards, kept⟩ := less.latest key later listed
    exact ⟨last, after.trans afterwards, kept⟩

/-- Tables over adjacent intervals make one table. -/
theorem Represents.append (old : Represents occurs low middle older)
    (new : Represents occurs middle high newer) (first : low ≤ middle) (second : middle ≤ high) :
    Represents occurs low high (older ++ newer) := by
  constructor
  · intro key position listed
    rcases List.mem_append.mp listed with before | after
    · obtain ⟨above, below, there⟩ := old.sound key position before
      exact ⟨above, below.trans_le second, there⟩
    · obtain ⟨above, below, there⟩ := new.sound key position after
      exact ⟨first.trans above, below, there⟩
  · intro key position above below there
    rcases Nat.lt_or_ge position middle with before | after
    · obtain ⟨later, latest, listed⟩ := old.latest key position above before there
      exact ⟨later, latest, List.mem_append_left _ listed⟩
    · obtain ⟨later, latest, listed⟩ := new.latest key position after below there
      exact ⟨later, latest, List.mem_append_right _ listed⟩

/-- A table stays one over a longer interval without further occurrences. -/
theorem Represents.widen (table : Represents occurs low high pairs) {further : ℕ}
    (longer : high ≤ further)
    (quiet : ∀ key position, high ≤ position → position < further → ¬ occurs key position) :
    Represents occurs low further pairs := by
  constructor
  · intro key position listed
    obtain ⟨above, below, there⟩ := table.sound key position listed
    exact ⟨above, below.trans_le longer, there⟩
  · intro key position above below there
    rcases Nat.lt_or_ge position high with before | after
    · exact table.latest key position above before there
    · exact absurd there (quiet key position after below)

/-- Occurrences past the interval do not matter. -/
theorem Represents.congr {also : κ → ℕ → Prop} (table : Represents occurs low high pairs)
    (same : ∀ key position, position < high → (occurs key position ↔ also key position)) :
    Represents also low high pairs := by
  constructor
  · intro key position listed
    obtain ⟨above, below, there⟩ := table.sound key position listed
    exact ⟨above, below, (same key position below).mp there⟩
  · intro key position above below there
    exact table.latest key position above below ((same key position below).mpr there)

/-- Where every key is named once, what is read is the latest occurrence. -/
theorem Represents.answer (table : Represents occurs low high pairs) {key : κ}
    {answer : Option ℕ} (read : ∀ position, answer = some position ↔ (key, position) ∈ pairs) :
    IsLatest (fun position => low ≤ position ∧ position < high ∧ occurs key position) answer := by
  cases answer with
  | none =>
    rintro position ⟨above, below, there⟩
    obtain ⟨later, _, listed⟩ := table.latest key position above below there
    exact nomatch (read later).mpr listed
  | some position =>
    refine ⟨table.sound key position ((read position).mp rfl), ?_⟩
    rintro other ⟨above, below, there⟩
    obtain ⟨later, after, listed⟩ := table.latest key other above below there
    obtain rfl : position = later := Option.some.inj ((read later).mpr listed)
    exact after

end Represents

/-- Layers, newest first, over adjacent intervals below a position; nothing occurs before the
oldest. -/
def Stack (occurs : κ → ℕ → Prop) : List (List (κ × ℕ)) → ℕ → Prop
  | [], high => ∀ key position, position < high → ¬ occurs key position
  | newest :: older, high =>
    ∃ low, low ≤ high ∧ Represents occurs low high newest ∧ Stack occurs older low

section Stack

variable {occurs : κ → ℕ → Prop} {high : ℕ}

/-- Layers stay layers below a later position without further occurrences. -/
theorem Stack.widen {layers : List (List (κ × ℕ))} (stack : Stack occurs layers high) {further : ℕ}
    (longer : high ≤ further)
    (quiet : ∀ key position, high ≤ position → position < further → ¬ occurs key position) :
    Stack occurs layers further := by
  cases layers with
  | nil =>
    intro key position below
    rcases Nat.lt_or_ge position high with before | after
    · exact stack key position before
    · exact quiet key position after below
  | cons newest older =>
    obtain ⟨low, above, table, rest⟩ := stack
    exact ⟨low, above.trans longer, table.widen longer quiet, rest⟩

/-- Occurrences past the layers do not matter. -/
theorem Stack.congr {also : κ → ℕ → Prop} {layers : List (List (κ × ℕ))}
    (stack : Stack occurs layers high)
    (same : ∀ key position, position < high → (occurs key position ↔ also key position)) :
    Stack also layers high := by
  induction layers generalizing high with
  | nil => exact fun key position below there =>
      stack key position below ((same key position below).mpr there)
  | cons newest older ih =>
    obtain ⟨low, above, table, rest⟩ := stack
    refine ⟨low, above, table.congr same, ih rest ?_⟩
    exact fun key position below => same key position (below.trans_le above)

/-- The first answer from the newest layer to the oldest is the latest occurrence. -/
theorem Stack.answer {ρ : Type v} {layers : List ρ} {pairs : ρ → List (κ × ℕ)}
    (stack : Stack occurs (layers.map pairs) high) (key : κ) (read : ρ → Option ℕ)
    (reads : ∀ layer ∈ layers, ∀ position,
      read layer = some position ↔ (key, position) ∈ pairs layer) :
    IsLatest (fun position => position < high ∧ occurs key position) (layers.findSome? read) := by
  induction layers generalizing high with
  | nil => exact fun position there => stack key position there.1 there.2
  | cons newest older ih =>
    obtain ⟨low, above, table, rest⟩ := stack
    have first := table.answer (reads newest List.mem_cons_self)
    have second := ih rest fun layer listed => reads layer (List.mem_cons_of_mem _ listed)
    have both := first.or second fun before after earlier later => by omega
    have found : (newest :: older).findSome? read = (read newest).or (older.findSome? read) := by
      rw [List.findSome?_cons]
      cases read newest <;> rfl
    rw [found]
    refine both.congr fun position => ?_
    constructor
    · rintro (⟨_, below, there⟩ | ⟨below, there⟩)
      · exact ⟨below, there⟩
      · exact ⟨below.trans_le above, there⟩
    · rintro ⟨below, there⟩
      rcases Nat.lt_or_ge position low with before | after
      · exact Or.inr ⟨before, there⟩
      · exact Or.inl ⟨after, below, there⟩

/-- Everything layers name comes before the position they end at. -/
theorem Stack.below {layers : List (List (κ × ℕ))} (stack : Stack occurs layers high) :
    ∀ layer ∈ layers, ∀ pair ∈ layer, pair.2 < high := by
  induction layers generalizing high with
  | nil => exact fun layer none => absurd none List.not_mem_nil
  | cons newest older ih =>
    obtain ⟨low, above, table, rest⟩ := stack
    intro layer listed pair named
    rcases List.mem_cons.mp listed with rfl | further
    · exact (table.sound pair.1 pair.2 named).2.1
    · exact (ih rest layer further pair named).trans_le above

/-- Every position of a newer layer is later than all positions of older ones, so the first layer
that has a key has its latest position. -/
theorem Stack.ordered {layers : List (List (κ × ℕ))} (stack : Stack occurs layers high) :
    layers.Pairwise fun newer older => ∀ new ∈ newer, ∀ old ∈ older, old.2 < new.2 := by
  induction layers generalizing high with
  | nil => exact List.Pairwise.nil
  | cons newest older ih =>
    obtain ⟨low, above, table, rest⟩ := stack
    refine List.pairwise_cons.mpr ⟨fun layer listed new named old before => ?_, ih rest⟩
    exact (rest.below layer listed old before).trans_le (table.sound new.1 new.2 named).1

/-- What any layer names is an occurrence of its key. -/
theorem Stack.sound {layers : List (List (κ × ℕ))} (stack : Stack occurs layers high) :
    ∀ layer ∈ layers, ∀ pair ∈ layer, occurs pair.1 pair.2 := by
  induction layers generalizing high with
  | nil => exact fun layer none => absurd none List.not_mem_nil
  | cons newest older ih =>
    obtain ⟨low, above, table, rest⟩ := stack
    intro layer listed pair named
    rcases List.mem_cons.mp listed with rfl | further
    · exact (table.sound pair.1 pair.2 named).2.2
    · exact ih rest layer further pair named

/-- The first answer is also the latest position that is named at all. -/
theorem Stack.scan {ρ : Type v} {layers : List ρ} {pairs : ρ → List (κ × ℕ)}
    (stack : Stack occurs (layers.map pairs) high) (key : κ) (read : ρ → Option ℕ)
    (reads : ∀ layer ∈ layers, ∀ position,
      read layer = some position ↔ (key, position) ∈ pairs layer) :
    IsLatest (fun position => ∃ layer ∈ layers, (key, position) ∈ pairs layer)
      (layers.findSome? read) := by
  have occurrence : ∀ position, (∃ layer ∈ layers, (key, position) ∈ pairs layer) →
      position < high ∧ occurs key position := by
    rintro position ⟨layer, listed, named⟩
    have mapped : pairs layer ∈ layers.map pairs := List.mem_map_of_mem listed
    exact ⟨stack.below _ mapped _ named, stack.sound _ mapped _ named⟩
  have answer := stack.answer key read reads
  cases found : layers.findSome? read with
  | none =>
    rw [found] at answer
    exact fun position named => answer position (occurrence position named)
  | some position =>
    rw [found] at answer
    obtain ⟨layer, listed, answered⟩ := List.exists_of_findSome?_eq_some found
    refine ⟨⟨layer, listed, (reads layer listed position).mp answered⟩, ?_⟩
    exact fun other named => answer.2 (occurrence other named)

end Stack

end GlmSpark.LatestTable
