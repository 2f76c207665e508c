import Mathlib.Data.List.Chain
import Mathlib.Data.Nat.Log
import GlmSpark.LookupMatch

/-!
# The tiers of the context index

`_push_tier` appends a tier and merges the last two as long as the older is at most
twice the newer. A merge drops superseded keys, so the merged tier can be smaller
than both together; it is compared again with the next older one. Whatever tiers
are pushed, every tier stays more than twice the next newer one, and older tiers
keep earlier positions.
-/

namespace GlmSpark.LookupTiers

open LatestTable ContextTier LookupIndex LookupLevels LookupMatch Runs

section Shape

variable {κ : Type*} [LinearOrder κ]

/-- Tiers, newest first: every tier is more than twice the next newer one, and none is empty. -/
structure Shaped (tiers : List (Tier κ)) : Prop where
  ratio : tiers.IsChain fun newer older => 2 * newer.pairs.length < older.pairs.length
  filled : ∀ tier ∈ tiers, tier.pairs ≠ []

/-- A tier of some pairs is not empty, whatever is dropped. -/
theorem fromPairs_filled (numpy : Bool) {pairs : List (κ × ℕ)} (some_ : pairs ≠ []) :
    (Tier.fromPairs numpy pairs).pairs ≠ [] := by
  obtain ⟨⟨key, position⟩, listed⟩ := List.exists_mem_of_ne_nil pairs some_
  obtain ⟨later, _, kept⟩ := (fromPairs_reduces numpy pairs).latest key position listed
  exact List.ne_nil_of_mem kept

/-- The oldest tier is at least a power of two as large as the newest. -/
theorem growth (newest : Tier κ) (older : List (Tier κ))
    (ratio : (newest :: older).IsChain fun newer older =>
      2 * newer.pairs.length < older.pairs.length) :
    2 ^ older.length * newest.pairs.length ≤
      ((newest :: older).getLast (List.cons_ne_nil _ _)).pairs.length := by
  induction older generalizing newest with
  | nil => simp
  | cons next older ih =>
    obtain ⟨twice, further⟩ := List.isChain_cons_cons.mp ratio
    calc 2 ^ (older.length + 1) * newest.pairs.length
        = 2 ^ older.length * (2 * newest.pairs.length) := by rw [Nat.pow_succ, Nat.mul_assoc]
      _ ≤ 2 ^ older.length * next.pairs.length := Nat.mul_le_mul_left _ twice.le
      _ ≤ _ := ih next further

/-- There are no more tiers than one and the logarithm of the oldest one's size. -/
theorem Shaped.length_le {tiers : List (Tier κ)} (shaped : Shaped tiers) :
    ∀ oldest ∈ tiers.getLast?, tiers.length ≤ 1 + Nat.log 2 oldest.pairs.length := by
  intro oldest last
  cases tiers with
  | nil => exact nomatch last
  | cons newest older =>
    obtain rfl : (newest :: older).getLast (List.cons_ne_nil _ _) = oldest := by
      rwa [List.getLast?_eq_some_getLast (List.cons_ne_nil _ _), Option.mem_some_iff] at last
    have grown := growth newest older shaped.ratio
    have one : 1 ≤ newest.pairs.length :=
      List.length_pos_iff.mpr (shaped.filled newest List.mem_cons_self)
    have power : 2 ^ older.length ≤
        ((newest :: older).getLast (List.cons_ne_nil _ _)).pairs.length :=
      (Nat.le_mul_of_pos_right _ one).trans grown
    have bound := Nat.le_log_of_pow_le Nat.one_lt_two power
    rw [List.length_cons]
    omega

end Shape

section Pushes

/-- The cascade of merges ends where the ratio holds again. -/
theorem mergeTiers_shaped (numpy : Bool) (newest : Tier Key) (tiers : List (Tier Key))
    (filled : newest.pairs ≠ []) (shaped : Shaped tiers) :
    Shaped (mergeTiers numpy newest tiers) := by
  induction tiers generalizing newest with
  | nil =>
    refine ⟨List.isChain_singleton _, fun tier listed => ?_⟩
    obtain rfl := List.mem_singleton.mp listed
    exact filled
  | cons older rest ih =>
    have further : Shaped rest :=
      ⟨shaped.ratio.tail, fun tier listed => shaped.filled tier (List.mem_cons_of_mem _ listed)⟩
    rw [mergeTiers]
    split
    next =>
      -- The merged tier is compared with the tier before both.
      have both : older.pairs ++ newest.pairs ≠ [] := List.append_ne_nil_of_right_ne_nil _ filled
      exact ih (older.merged numpy newest) (fromPairs_filled numpy both) further
    next apart =>
      refine ⟨List.isChain_cons_cons.mpr ⟨Nat.not_le.mp apart, shaped.ratio⟩, ?_⟩
      intro tier listed
      rcases List.mem_cons.mp listed with rfl | before
      · exact filled
      · exact shaped.filled tier before

/-- Pushing a tier for one `n` keeps the shape for every `n`. -/
theorem pushTier_shaped (numpy : Bool) (tiers : ℕ → List (Tier Key)) (m : ℕ) (tier : Tier Key)
    (filled : tier.pairs ≠ []) (shaped : ∀ n, Shaped (tiers n)) (n : ℕ) :
    Shaped (pushTier numpy tiers m tier n) := by
  rw [pushTier]
  by_cases here : n = m
  · subst here
    rw [Function.update_self]
    exact mergeTiers_shaped numpy tier (tiers n) filled (shaped n)
  · rw [Function.update_of_ne here]
    exact shaped n

/-- `_freeze` keeps the shape of the tiers: sizes still fall geometrically after the merges it
makes. -/
theorem freeze_shaped (settings : Settings) (index : ContextIndex)
    (shaped : ∀ n, Shaped (index.tiers n)) (n : ℕ) :
    Shaped ((freeze settings index).tiers n) := by
  suffices general : ∀ (ms : List ℕ) (index : ContextIndex), (∀ n, Shaped (index.tiers n)) →
      ∀ n, Shaped ((ms.foldl (freezeLevel settings.numpy) index).tiers n) from
    general settings.ns index shaped n
  intro ms
  induction ms with
  | nil => exact fun _ shaped => shaped
  | cons m ms ih =>
    intro index shaped
    refine ih (freezeLevel settings.numpy index m) fun n => ?_
    rw [freezeLevel]
    split
    next stored => exact pushTier_shaped _ _ m _ (fromPairs_filled _ stored) shaped n
    next => exact shaped n

/-- `_push` keeps the shape, as it only adds to the pending part or freezes it. -/
theorem push_shaped (settings : Settings) (index : ContextIndex) (t : ℤ)
    (shaped : ∀ n, Shaped (index.tiers n)) (n : ℕ) : Shaped ((push settings index t).tiers n) := by
  rw [push]
  dsimp only
  split
  · refine freeze_shaped settings _ ?_ n
    exact shaped
  · exact shaped n

/-- The tiers of a bulk load keep the shape. -/
theorem bulkLoop_shaped (settings : Settings) (tokens : List ℤ) (ends : List ℕ) (left d : ℕ)
    (h : List Key) (tiers : ℕ → List (Tier Key)) (shaped : ∀ n, Shaped (tiers n)) (n : ℕ) :
    Shaped (bulkLoop settings tokens ends left d h tiers n) := by
  induction left generalizing d h tiers with
  | zero => exact shaped n
  | succ left ih =>
    rw [bulkLoop]
    refine ih (d + 1) _ _ fun n => ?_
    split
    next stored => exact pushTier_shaped _ tiers d _ (fromPairs_filled _ stored.2) shaped n
    next => exact shaped n

/-- `extend` keeps the shape on every path. -/
theorem extend_shaped (settings : Settings) (index : ContextIndex) (new : List ℤ)
    (shaped : ∀ n, Shaped (index.tiers n)) (n : ℕ) :
    Shaped ((extend settings index new).tiers n) := by
  rw [extend]
  split
  next => exact shaped n
  split
  next => exact bulkLoop_shaped _ _ _ _ _ _ _ (freeze_shaped settings index shaped) n
  next =>
    clear * - shaped
    induction new generalizing index with
    | nil => exact shaped n
    | cons t new ih => exact ih (push settings index t) (push_shaped settings index t shaped)

/-- The index of nothing has no tiers. -/
theorem empty_shaped (n : ℕ) : Shaped (ContextIndex.empty.tiers n) :=
  ⟨List.isChain_nil, fun _ none => absurd none List.not_mem_nil⟩

/-- `sync` keeps the shape, also when it starts over. -/
theorem sync_shaped (settings : Settings) (index : ContextIndex) (src : List ℤ) (budget : ℤ)
    (shaped : ∀ n, Shaped (index.tiers n)) (n : ℕ) :
    Shaped ((sync settings index src budget).1.tiers n) := by
  have start : ∀ n, Shaped ((startOver index src).tiers n) := by
    intro n
    rw [startOver]
    split
    · exact empty_shaped n
    · exact shaped n
  rw [sync]
  dsimp only
  split
  · exact extend_shaped settings _ _ start n
  · exact start n

end Pushes

section Ingesting

/-- How tokens reach an index. -/
inductive Event
  | extend (new : List ℤ)
  | sync (src : List ℤ) (budget : ℤ)

/-- An index that takes in any tokens, in chunks of any sizes, and starts over when `sync` says so. -/
def ingesting (settings : Settings) : System ContextIndex Event where
  initial := ContextIndex.empty
  step index
    | .extend new => extend settings index new
    | .sync src budget => (sync settings index src budget).1
  allowed _ _ := True

/-- Every level is complete and in shape. -/
theorem ingesting_shaped (settings : Settings) {index : ContextIndex}
    (reachable : Reachable (ingesting settings) index) :
    Indexed settings index ∧ ∀ n, Shaped (index.tiers n) := by
  apply reachable.invariant ⟨empty_indexed settings, empty_shaped⟩
  rintro index event ⟨indexed, shaped⟩ _
  cases event with
  | extend new =>
    exact ⟨(extend_indexed settings index new indexed).1, extend_shaped settings index new shaped⟩
  | sync src budget =>
    exact ⟨(sync_spec settings index src budget indexed).1,
      sync_shaped settings index src budget shaped⟩

/-- `self.tiers[n]`, oldest first as the source appends them. -/
def tierList (index : ContextIndex) (n : ℕ) : List (Tier Key) :=
  (index.tiers n).reverse

/-- Whatever tiers were pushed, each is more than twice the next one, keeps increasing keys and only
positions before those of later tiers and of the dictionary; so the tiers are few, and scanning them
from the newest finds the latest stored position of a key, as `get` finds its latest occurrence. -/
theorem tiers_geometric (settings : Settings) {index : ContextIndex}
    (reachable : Reachable (ingesting settings) index) {n : ℕ} (configured : n ∈ settings.ns) :
    ((tierList index n).IsChain fun older newer => 2 * newer.pairs.length < older.pairs.length) ∧
    ((tierList index n).Pairwise fun earlier later =>
      ∀ old ∈ earlier.pairs, ∀ new ∈ later.pairs, old.2 < new.2) ∧
    (∀ tier ∈ tierList index n, ∀ old ∈ tier.pairs, ∀ new ∈ index.hot n, old.2 < new.2) ∧
    (∀ tier ∈ tierList index n, tier.pairs.Pairwise fun one other => one.1 < other.1) ∧
    (∀ first ∈ (tierList index n).head?,
      (tierList index n).length ≤ 1 + Nat.log 2 first.pairs.length) ∧
    ∀ key,
      IsLatest (fun position => ∃ tier ∈ tierList index n, (key, position) ∈ tier.pairs)
        ((tierList index n).reverse.findSome? fun tier => tier.get key) ∧
      IsLatest (fun position => position < index.tokens.length ∧
        Occurs index.tokens n key position) (index.get n key) := by
  obtain ⟨indexed, shaped⟩ := ingesting_shaped settings reachable
  obtain ⟨_, start, _, table, stack⟩ := indexed n configured
  have listed : ∀ tier, tier ∈ tierList index n ↔ tier ∈ index.tiers n := fun tier =>
    List.mem_reverse
  refine ⟨?_, ?_, ?_, fun tier _ => tier.increasing, ?_, fun key => ⟨?_, ?_⟩⟩
  · exact List.isChain_reverse.mpr (shaped n).ratio
  · refine List.pairwise_reverse.mpr ((List.pairwise_map.mp stack.ordered).imp ?_)
    exact fun {newer older} apart old before new after => apart new after old before
  · intro tier pushed old before new after
    have stored : tier.pairs ∈ (index.tiers n).map Tier.pairs :=
      List.mem_map_of_mem ((listed tier).mp pushed)
    exact (stack.below _ stored old before).trans_le (table.sound new.1 new.2 after).1
  · intro first oldest
    rw [tierList, List.head?_reverse] at oldest
    rw [tierList, List.length_reverse]
    exact (shaped n).length_le first oldest
  · have scanned := stack.scan key (fun tier => tier.get key) fun tier _ => get_eq_some_iff tier key
    rw [tierList, List.reverse_reverse]
    refine scanned.congr fun position => ?_
    simp only [List.mem_reverse]
  · exact get_latest settings index indexed configured key

/-- Two bulk loads that merge, a freeze that does not, and two pushes. -/
def chunks : List Event :=
  [.extend [1, 2, 1, 2], .extend [1, 2, 3, 4, 5, 6, 7, 8, 9, 10], .extend [1, 1, 1],
    .extend [1, 1]]

/-- The run of `chunks` ends with a merged tier, a small one and a dictionary. -/
theorem tiers_geometric_chunks :
    let index := (ingesting twoGrams).run (ingesting twoGrams).initial chunks
    (tierList index 2).map (fun tier => tier.pairs.length) = [9, 3] ∧
      (index.hot 2).map Prod.snd = [18] ∧
      ∀ tier ∈ tierList index 2, ∀ old ∈ tier.pairs, ∀ new ∈ index.hot 2, old.2 < new.2 := by
  intro index
  have reachable : Reachable (ingesting twoGrams) index :=
    Reachable.initial.run chunks ⟨trivial, trivial, trivial, trivial, trivial⟩
  exact ⟨by decide +kernel, by decide +kernel,
    (tiers_geometric twoGrams reachable (by decide)).2.2.1⟩

end Ingesting

end GlmSpark.LookupTiers
