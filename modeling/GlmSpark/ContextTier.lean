import Mathlib.Data.List.Sort
import Mathlib.Data.List.Induction
import Mathlib.Order.MinMax
import GlmSpark.Dict
import GlmSpark.LatestTable

/-!
# Frozen tiers of the context index

A tier holds n-gram keys in increasing order, each once, with the latest end
position of the key. The source builds it by sorting and keeping the last pair of
every run of one key, or, without numpy, from a dictionary of the best position.
Keys are any linear order here.
-/

namespace GlmSpark.ContextTier

open LatestTable

universe u
variable {κ : Type u} [LinearOrder κ]

/-- Order of `lexsort((p, k))` and of tuples: by key, then by position. -/
def InOrder (one other : κ × ℕ) : Prop :=
  one.1 < other.1 ∨ one.1 = other.1 ∧ one.2 ≤ other.2

/-- The order of sorted pairs is decidable, which lets `sortPairs` be evaluated. -/
instance : DecidableRel (InOrder (κ := κ)) := fun one other =>
  inferInstanceAs (Decidable (one.1 < other.1 ∨ one.1 = other.1 ∧ one.2 ≤ other.2))

/-- Any two pairs are in order one way round: by key, and by position where the keys agree. -/
instance : Std.Total (InOrder (κ := κ)) where
  total one other := by
    rcases lt_trichotomy one.1 other.1 with less | same | more
    · exact Or.inl (Or.inl less)
    · rcases Nat.le_total one.2 other.2 with before | after
      · exact Or.inl (Or.inr ⟨same, before⟩)
      · exact Or.inr (Or.inr ⟨same.symm, after⟩)
    · exact Or.inr (Or.inl more)

/-- The order is transitive. With totality this is what sorting needs to give a sorted list. -/
instance : IsTrans (κ × ℕ) InOrder where
  trans one middle other := by
    rintro (less | ⟨same, before⟩) (less' | ⟨same', before'⟩)
    · exact Or.inl (less.trans less')
    · exact Or.inl (same' ▸ less)
    · exact Or.inl (same ▸ less')
    · exact Or.inr ⟨same.trans same', before.trans before'⟩

/-- `order = lexsort((p, k))`, or `sorted(items)`. -/
def sortPairs (pairs : List (κ × ℕ)) : List (κ × ℕ) := pairs.insertionSort InOrder

/-- `last[:-1] = k[1:] != k[:-1]`: keep a pair when the next one has another key. -/
def lastOfRuns : List (κ × ℕ) → List (κ × ℕ)
  | one :: other :: rest =>
    if other.1 ≠ one.1 then one :: lastOfRuns (other :: rest) else lastOfRuns (other :: rest)
  | pairs => pairs

/-- `if p > best.get(k, -1): best[k] = p`. -/
def keepBest (best : List (κ × ℕ)) (pair : κ × ℕ) : List (κ × ℕ) :=
  if (best.lookup pair.1).all (· < pair.2) then Dict.assign pair.1 pair.2 best else best

/-- `_Tier`: increasing keys with the latest end position of each. -/
structure Tier (κ : Type u) [LinearOrder κ] where
  pairs : List (κ × ℕ)
  increasing : pairs.Pairwise fun one other => one.1 < other.1

/-- What is kept of sorted pairs starts with the first key. -/
theorem lastOfRuns_above (bound : κ) (pairs : List (κ × ℕ)) (above : ∀ pair ∈ pairs, bound < pair.1) :
    ∀ pair ∈ lastOfRuns pairs, bound < pair.1 := by
  fun_induction lastOfRuns pairs with
  | case1 one other rest different ih =>
    intro pair kept
    rcases List.mem_cons.mp kept with rfl | later
    · exact above pair List.mem_cons_self
    · exact ih (fun pair listed => above pair (List.mem_cons_of_mem _ listed)) pair later
  | case2 one other rest same ih =>
    exact ih fun pair listed => above pair (List.mem_cons_of_mem _ listed)
  | case3 => exact above

/-- Keeping the last pair of every run leaves strictly increasing keys. -/
theorem lastOfRuns_increasing (pairs : List (κ × ℕ)) (sorted : pairs.Pairwise InOrder) :
    (lastOfRuns pairs).Pairwise fun one other => one.1 < other.1 := by
  fun_induction lastOfRuns pairs with
  | case1 one other rest different ih =>
    obtain ⟨first, later⟩ := List.pairwise_cons.mp sorted
    refine List.pairwise_cons.mpr ⟨lastOfRuns_above one.1 _ ?_, ih later⟩
    have next : one.1 < other.1 := by
      rcases first other List.mem_cons_self with less | ⟨same, _⟩
      · exact less
      · exact absurd same.symm different
    intro pair listed
    rcases List.mem_cons.mp listed with rfl | further
    · exact next
    · rcases (List.pairwise_cons.mp later).1 pair further with less | ⟨same, _⟩
      · exact next.trans less
      · exact same ▸ next
  | case2 one other rest same ih => exact ih (List.pairwise_cons.mp sorted).2
  | case3 pairs short =>
    match pairs, short with
    | [], _ => exact List.Pairwise.nil
    | [_], _ => exact List.pairwise_singleton _ _
    | one :: other :: rest, short => exact absurd rfl (short one other rest)

/-- The last pair of a run of sorted pairs has the latest position of its key. -/
theorem lastOfRuns_reduces (pairs : List (κ × ℕ)) (sorted : pairs.Pairwise InOrder) :
    Reduces (lastOfRuns pairs) pairs := by
  fun_induction lastOfRuns pairs with
  | case1 one other rest different ih =>
    obtain ⟨sound, latest⟩ := ih (List.pairwise_cons.mp sorted).2
    constructor
    · intro key position kept
      rcases List.mem_cons.mp kept with here | later
      · exact here ▸ List.mem_cons_self
      · exact List.mem_cons_of_mem _ (sound key position later)
    · intro key position listed
      rcases List.mem_cons.mp listed with here | later
      · exact ⟨position, Nat.le_refl _, here ▸ List.mem_cons_self⟩
      · obtain ⟨last, after, kept⟩ := latest key position later
        exact ⟨last, after, List.mem_cons_of_mem _ kept⟩
  | case2 one other rest same ih =>
    obtain ⟨first, later⟩ := List.pairwise_cons.mp sorted
    obtain ⟨sound, latest⟩ := ih later
    constructor
    · exact fun key position kept => List.mem_cons_of_mem _ (sound key position kept)
    · intro key position listed
      rcases List.mem_cons.mp listed with here | further
      · -- The next pair has the same key and is no earlier.
        obtain rfl : (key, position) = one := here
        have equal : other.1 = key := of_not_not same
        rcases first other List.mem_cons_self with less | ⟨_, before⟩
        · exact absurd equal.symm less.ne
        · obtain ⟨last, after, kept⟩ := latest key other.2 (equal ▸ List.mem_cons_self)
          exact ⟨last, before.trans after, kept⟩
      · exact latest key position further
  | case3 => exact ⟨fun _ _ => id, fun key position listed => ⟨position, Nat.le_refl _, listed⟩⟩

/-- Sorting changes the order of the pairs and not which pairs there are. -/
theorem mem_sortPairs (pairs : List (κ × ℕ)) (pair : κ × ℕ) :
    pair ∈ sortPairs pairs ↔ pair ∈ pairs :=
  List.mem_insertionSort InOrder

/-- The sorted pairs are in order. As positions break ties the order is the stable one of the
source's sort. -/
theorem sortPairs_sorted (pairs : List (κ × ℕ)) : (sortPairs pairs).Pairwise InOrder :=
  List.pairwise_insertionSort InOrder pairs

/-- The dictionary keeps one pair a key. -/
theorem keepBest_nodup (best : List (κ × ℕ)) (pair : κ × ℕ)
    (distinct : (best.map Prod.fst).Nodup) : ((keepBest best pair).map Prod.fst).Nodup := by
  rw [keepBest]
  split
  · exact Dict.nodup_assign _ _ _ distinct
  · exact distinct

/-- A key reads as the larger of its positions afterwards. -/
theorem lookup_keepBest (best : List (κ × ℕ)) (key other : κ) (position : ℕ) :
    (keepBest best (key, position)).lookup other =
      if other = key then some (max ((best.lookup key).getD 0) position)
      else best.lookup other := by
  rw [keepBest]
  split
  next better =>
    rw [Dict.lookup_assign]
    cases known : best.lookup key with
    | none => simp
    | some old =>
      have before : old < position := by simpa [known] using better
      simp [max_eq_right before.le]
  next worse =>
    split
    next same =>
      subst same
      cases known : best.lookup other with
      | none => simp [known] at worse
      | some old =>
        have after : position ≤ old := by simpa [known] using worse
        simp [max_eq_left after]
    next => rfl

/-- With one more pair the dictionary still has the best position of every key. -/
theorem keepBest_reduces (best seen : List (κ × ℕ)) (pair : κ × ℕ)
    (distinct : (best.map Prod.fst).Nodup) (reduces : Reduces best seen) :
    Reduces (keepBest best pair) (seen ++ [pair]) := by
  obtain ⟨name, last⟩ := pair
  have stored := fun key position => Dict.lookup_eq_some_iff best distinct key position
  have kept : ∀ key position, (key, position) ∈ keepBest best (name, last) ↔
      (keepBest best (name, last)).lookup key = some position := fun key position =>
    (Dict.lookup_eq_some_iff _ (keepBest_nodup best (name, last) distinct) key position).symm
  constructor
  · intro key position listed
    rw [kept, lookup_keepBest] at listed
    split at listed
    next same =>
      subst same
      cases known : best.lookup key with
      | none =>
        obtain rfl : last = position := by simpa [known] using listed
        simp
      | some old =>
        have larger : max old last = position := by simpa [known] using listed
        rcases max_choice old last with first | second
        · have here : (key, position) ∈ best := by rw [← stored, known, ← larger, first]
          exact List.mem_append_left _ (reduces.sound key position here)
        · obtain rfl : last = position := second ▸ larger
          simp
    next =>
      exact List.mem_append_left _ (reduces.sound key position ((stored key position).mp listed))
  · intro key position listed
    rcases List.mem_append.mp listed with before | now
    · obtain ⟨later, after, here⟩ := reduces.latest key position before
      by_cases same : key = name
      · subst same
        refine ⟨max later last, after.trans (le_max_left _ _), (kept _ _).mpr ?_⟩
        rw [lookup_keepBest, if_pos rfl, (stored key later).mpr here]
        rfl
      · refine ⟨later, after, (kept _ _).mpr ?_⟩
        rw [lookup_keepBest, if_neg same, (stored key later).mpr here]
    · obtain ⟨rfl, rfl⟩ : key = name ∧ position = last := by simpa using now
      refine ⟨max ((best.lookup key).getD 0) position, le_max_right _ _, (kept _ _).mpr ?_⟩
      rw [lookup_keepBest, if_pos rfl]

/-- `best` after all pairs: for each key its latest position, as the loop without numpy collects
them. -/
def bestOf (pairs : List (κ × ℕ)) : List (κ × ℕ) := pairs.foldl keepBest []

/-- The dictionary of best positions names every key once and its latest position. -/
theorem bestOf_spec (pairs : List (κ × ℕ)) :
    ((bestOf pairs).map Prod.fst).Nodup ∧ Reduces (bestOf pairs) pairs := by
  induction pairs using List.reverseRecOn with
  | nil => exact ⟨List.nodup_nil, fun _ _ => id, fun key position listed =>
      ⟨position, Nat.le_refl _, listed⟩⟩
  | append_singleton pairs pair ih =>
    obtain ⟨distinct, reduces⟩ := ih
    rw [bestOf, List.foldl_concat]
    exact ⟨keepBest_nodup _ pair distinct, keepBest_reduces _ _ pair distinct reduces⟩

/-- Sorted pairs with distinct keys have strictly increasing keys. -/
theorem sortPairs_increasing (pairs : List (κ × ℕ)) (distinct : (pairs.map Prod.fst).Nodup) :
    (sortPairs pairs).Pairwise fun one other => one.1 < other.1 := by
  have keys : ((sortPairs pairs).map Prod.fst).Nodup :=
    ((List.perm_insertionSort InOrder pairs).map Prod.fst).nodup_iff.mpr distinct
  have apart : (sortPairs pairs).Pairwise fun one other => one.1 ≠ other.1 := List.pairwise_map.mp keys
  refine ((sortPairs_sorted pairs).and apart).imp ?_
  rintro one other ⟨less | ⟨same, _⟩, different⟩
  · exact less
  · exact absurd same different

/-- `_Tier.from_pairs`, with or without numpy: sorted, one pair a key. -/
def Tier.fromPairs (numpy : Bool) (pairs : List (κ × ℕ)) : Tier κ :=
  if numpy then ⟨lastOfRuns (sortPairs pairs), lastOfRuns_increasing _ (sortPairs_sorted pairs)⟩
  else ⟨sortPairs (bestOf pairs), sortPairs_increasing _ (bestOf_spec pairs).1⟩

/-- `_Tier.from_dict`: the hot dictionary of a level, frozen into a tier. -/
def Tier.fromDict (numpy : Bool) (dict : List (κ × ℕ)) : Tier κ := Tier.fromPairs numpy dict

/-- `_Tier.merged`: the pairs of both tiers, where the newer position of a key wins. -/
def Tier.merged (numpy : Bool) (older newer : Tier κ) : Tier κ :=
  Tier.fromPairs numpy (older.pairs ++ newer.pairs)

/-- `searchsorted` and `bisect_left`: where a key stands, or would be inserted, in increasing keys. -/
def bisectLeft (keys : List κ) (key : κ) : ℕ := (keys.takeWhile (· < key)).length

/-- `_Tier.get`: binary search for a key among the sorted ones. -/
def Tier.get (tier : Tier κ) (key : κ) : Option ℕ :=
  match tier.pairs[bisectLeft (tier.pairs.map Prod.fst) key]? with
  | some (found, position) => if found = key then some position else none
  | none => none

/-- Both ways of building a tier keep the latest position of every key. -/
theorem fromPairs_reduces (numpy : Bool) (pairs : List (κ × ℕ)) :
    Reduces (Tier.fromPairs numpy pairs).pairs pairs := by
  cases numpy with
  | true =>
    obtain ⟨sound, latest⟩ := lastOfRuns_reduces _ (sortPairs_sorted pairs)
    refine ⟨fun key position kept => (mem_sortPairs pairs _).mp (sound key position kept), ?_⟩
    exact fun key position listed => latest key position ((mem_sortPairs pairs _).mpr listed)
  | false =>
    obtain ⟨sound, latest⟩ := (bestOf_spec pairs).2
    constructor
    · exact fun key position kept => sound key position ((mem_sortPairs _ _).mp kept)
    · intro key position listed
      obtain ⟨later, after, kept⟩ := latest key position listed
      exact ⟨later, after, (mem_sortPairs _ _).mpr kept⟩

/-- A tier answers a key with the position it stores for it. -/
theorem get_eq_some_iff (tier : Tier κ) (key : κ) (position : ℕ) :
    tier.get key = some position ↔ (key, position) ∈ tier.pairs := by
  obtain ⟨pairs, increasing⟩ := tier
  rw [Tier.get]
  induction pairs with
  | nil => simp [bisectLeft]
  | cons pair rest ih =>
    obtain ⟨name, stored⟩ := pair
    obtain ⟨above, later⟩ := List.pairwise_cons.mp increasing
    dsimp only at above
    rcases lt_trichotomy name key with less | same | more
    · have different : key ≠ name := less.ne'
      simpa [bisectLeft, less, different] using ih later
    · subst same
      have elsewhere : (name, position) ∉ rest := fun listed => absurd (above _ listed) (lt_irrefl _)
      simp [bisectLeft, elsewhere, eq_comm]
    · have elsewhere : (key, position) ∉ rest := fun listed =>
        absurd ((above _ listed).trans more) (lt_irrefl _)
      simp [bisectLeft, more.not_gt, more.ne, more.ne', elsewhere]

end GlmSpark.ContextTier
