import GlmSpark.FirstMaximum
import GlmSpark.LookupPlanner

/-!
# The plans a request waits for

The planner records a request's plan under the number of its step and forgets it when a later
output is classified. Records whose output never comes are forgotten by number, the smallest
first, once there are more than eight.

A number that was forgotten this way is below all that remain. The record that is looked up for
an output is therefore that of the step which made the drafts, or there is none.
-/

namespace GlmSpark.LookupPlans

open LookupPlanner

/-- The numbers of the recorded plans. -/
def numbers (plans : List (ℕ × PlanRec)) : List ℕ := plans.map Prod.fst

/-- A number is recorded, or it gave way to eight larger ones. -/
def Kept (plans : List (ℕ × PlanRec)) (seq : ℕ) : Prop :=
  seq ∈ numbers plans ∨ (∀ n ∈ numbers plans, seq < n) ∧ 8 ≤ plans.length

/-- A recorded number is one of the numbers. -/
theorem mem_numbers_of_lookup {plans : List (ℕ × PlanRec)} {seq : ℕ} {plan : PlanRec}
    (recorded : plans.lookup seq = some plan) : seq ∈ numbers plans :=
  (Dict.mem_keys_iff seq plans).mpr ⟨plan, recorded⟩

/-- Forgetting a list of step numbers removes exactly their plans. -/
theorem lookup_forget (gone : List ℕ) (plans : List (ℕ × PlanRec)) (seq : ℕ) :
    (gone.foldl (fun plans seq => Dict.erase seq plans) plans).lookup seq =
      if seq ∈ gone then none else plans.lookup seq := by
  induction gone generalizing plans with
  | nil => rfl
  | cons first rest ih =>
    rw [List.foldl_cons, ih, Dict.lookup_erase]
    by_cases later : seq ∈ rest
    · rw [if_pos later, if_pos (List.mem_cons_of_mem _ later)]
    · by_cases same : seq = first
      · rw [if_neg later, if_pos same, if_pos (same ▸ List.mem_cons_self)]
      · rw [if_neg later, if_neg same, if_neg (List.not_mem_cons_of_ne_of_not_mem same later)]

/-- The numbers that remain are those that were not forgotten, in order. -/
theorem numbers_forget (gone : List ℕ) (plans : List (ℕ × PlanRec)) :
    numbers (gone.foldl (fun plans seq => Dict.erase seq plans) plans) =
      (numbers plans).filter fun n => n ∉ gone := by
  induction gone generalizing plans with
  | nil => simp
  | cons first rest ih =>
    have erased : numbers (Dict.erase first plans) = (numbers plans).filter fun n => n ≠ first := by
      rw [numbers, numbers, Dict.erase, List.filter_map]
      rfl
    rw [List.foldl_cons, ih, erased, List.filter_filter]
    refine List.filter_congr fun n _ => ?_
    simp [not_or, Bool.and_comm]

/-- Without repetitions, what is not among the first elements is the rest of the list. -/
theorem filter_not_mem_take {all : List ℕ} (single : all.Nodup) (i : ℕ) :
    all.filter (fun n => n ∉ all.take i) = all.drop i := by
  have split : ∀ early late : List ℕ, (early ++ late).Nodup →
      (early ++ late).filter (fun n => n ∉ early) = late := by
    intro early late apart
    have none : early.filter (fun n => n ∉ early) = [] :=
      List.filter_eq_nil_iff.mpr fun n listed => by simpa using listed
    have whole : late.filter (fun n => n ∉ early) = late :=
      List.filter_eq_self.mpr fun n listed => by
        simpa using fun also => (List.nodup_append.mp apart).2.2 n also n listed rfl
    rw [List.filter_append, none, whole, List.nil_append]
  have parts := split (all.take i) (all.drop i) (by rwa [List.take_append_drop])
  rwa [List.take_append_drop] at parts

/-- What `prunePlans` forgets: some of the smallest numbers, and then eight remain. -/
theorem prunePlans_spec {plans : List (ℕ × PlanRec)} (distinct : (numbers plans).Nodup) :
    ∃ gone : List ℕ,
      (∀ seq, (prunePlans plans).lookup seq = if seq ∈ gone then none else plans.lookup seq) ∧
      numbers (prunePlans plans) = (numbers plans).filter (fun n => n ∉ gone) ∧
      (∀ seq ∈ gone, ∀ n ∈ numbers (prunePlans plans), seq < n) ∧
      (gone ≠ [] → (prunePlans plans).length = 8) := by
  rw [prunePlans, show plans.map Prod.fst = numbers plans from rfl]
  split
  case isFalse =>
    refine ⟨[], fun seq => rfl, ?_, fun seq none => absurd none List.not_mem_nil, fun none =>
      absurd rfl none⟩
    exact (List.filter_eq_self.mpr fun n _ => by simp).symm
  case isTrue many =>
    have order := List.perm_insertionSort (· ≤ ·) (numbers plans)
    have sorted := List.pairwise_insertionSort (· ≤ ·) (numbers plans)
    have size : ((numbers plans).insertionSort (· ≤ ·)).length = plans.length :=
      (List.length_insertionSort _ _).trans (List.length_map _)
    generalize (numbers plans).insertionSort (· ≤ ·) = all at order sorted size
    have single : all.Nodup := order.nodup_iff.mpr distinct
    have apart := List.disjoint_take_drop single le_rfl (m := plans.length - 8)
    rw [← List.take_append_drop (plans.length - 8) all, List.pairwise_append] at sorted
    have left := numbers_forget (all.take (plans.length - 8)) plans
    have remaining : (numbers ((all.take (plans.length - 8)).foldl
        (fun plans seq => Dict.erase seq plans) plans)).Perm (all.drop (plans.length - 8)) := by
      rw [left, ← filter_not_mem_take single]
      exact order.symm.filter _
    refine ⟨all.take (plans.length - 8), lookup_forget _ plans, left, ?_, fun _ => ?_⟩
    · intro seq early n remains
      have late := remaining.mem_iff.mp remains
      exact lt_of_le_of_ne (sorted.2.2 seq early n late) fun same => apart early (same ▸ late)
    · have length := remaining.length_eq
      rw [List.length_drop, size, numbers, List.length_map] at length
      exact length.trans (by omega)

/-- At most one number is new, and older plans are the same or pruned. -/
structure Carried (before after : List (ℕ × PlanRec)) (seq : ℕ) : Prop where
  distinct : (numbers after).Nodup
  others : ∀ n, n ≠ seq → after.lookup n = none ∨ after.lookup n = before.lookup n
  known : ∀ n ∈ numbers after, n = seq ∨ n ∈ numbers before
  kept : ∀ n < seq, Kept before n → Kept after n

/-- A plan is recorded under a new number and old ones are pruned. -/
structure Renewed (before after : List (ℕ × PlanRec)) (seq : ℕ) (plan : PlanRec) : Prop
    extends Carried before after seq where
  own : after.lookup seq = some plan

/-- Plans are carried over unchanged when nothing was recorded. -/
theorem Carried.refl {plans : List (ℕ × PlanRec)} (distinct : (numbers plans).Nodup) (seq : ℕ) :
    Carried plans plans seq :=
  ⟨distinct, fun _ _ => .inr rfl, fun _ listed => .inr listed, fun _ _ kept => kept⟩

/-- What `plan` does to the records of an entry. -/
theorem renewed_prune {plans : List (ℕ × PlanRec)} {seq : ℕ} (plan : PlanRec)
    (distinct : (numbers plans).Nodup) (newest : ∀ n ∈ numbers plans, n < seq) :
    Renewed plans (prunePlans (Dict.assign seq plan plans)) seq plan := by
  have fresh : seq ∉ numbers plans := fun listed => lt_irrefl seq (newest seq listed)
  have added : Dict.assign seq plan plans = plans ++ [(seq, plan)] := if_neg fresh
  have grown : numbers (Dict.assign seq plan plans) = numbers plans ++ [seq] := by
    rw [added, numbers, List.map_append]
    rfl
  have single := Dict.nodup_assign seq plan plans distinct
  obtain ⟨gone, lookup, left, below, eight⟩ := prunePlans_spec single
  have known : ∀ n ∈ numbers (prunePlans (Dict.assign seq plan plans)),
      n = seq ∨ n ∈ numbers plans := by
    intro n listed
    rw [left] at listed
    have earlier := (List.mem_filter.mp listed).1
    rw [grown, List.mem_append, List.mem_singleton] at earlier
    exact earlier.symm
  have largest : seq ∉ gone := by
    intro dropped
    have some_left : prunePlans (Dict.assign seq plan plans) ≠ [] :=
      List.ne_nil_of_length_pos (by rw [eight (List.ne_nil_of_mem dropped)]; decide)
    obtain ⟨entry, listed⟩ := List.exists_mem_of_ne_nil _ some_left
    have above := below seq dropped entry.1 (List.mem_map_of_mem listed)
    rcases known entry.1 (List.mem_map_of_mem listed) with same | earlier
    · exact lt_irrefl seq (same ▸ above)
    · exact lt_asymm above (newest _ earlier)
  refine ⟨⟨?distinct, ?others, ?known, ?kept⟩, ?own⟩
  case distinct =>
    rw [left]
    exact single.filter _
  case own => rw [lookup, if_neg largest, Dict.lookup_assign, if_pos rfl]
  case others =>
    intro n different
    rw [lookup]
    split
    · exact .inl rfl
    · exact .inr (by rw [Dict.lookup_assign, if_neg different])
  case known => exact known
  case kept =>
    intro n early kept
    by_cases dropped : n ∈ gone
    · exact .inr ⟨below n dropped, (eight (List.ne_nil_of_mem dropped)).ge⟩
    · rcases kept with recorded | ⟨above, many⟩
      · refine .inl ?_
        rw [left, List.mem_filter, grown]
        exact ⟨List.mem_append_left _ recorded, by simpa using dropped⟩
      · refine .inr ⟨fun m listed => ?_, ?_⟩
        · rcases known m listed with rfl | earlier
          · exact early
          · exact above m earlier
        · by_cases none : gone = []
          · have all : numbers (prunePlans (Dict.assign seq plan plans)) =
                numbers plans ++ [seq] := by
              rw [left, grown, none]
              exact List.filter_eq_self.mpr fun m _ => by simp
            have length := congrArg List.length all
            rw [numbers, List.length_map, List.length_append, numbers, List.length_map] at length
            omega
          · exact (eight none).ge

/-- The record of the step may be rewritten afterwards. -/
theorem Renewed.rewrite {before after : List (ℕ × PlanRec)} {seq : ℕ} {plan : PlanRec}
    (renewed : Renewed before after seq plan) (other : PlanRec) :
    Renewed before (Dict.assign seq other after) seq other := by
  have stored : seq ∈ after.map Prod.fst := mem_numbers_of_lookup renewed.own
  have same : numbers (Dict.assign seq other after) = numbers after := by
    rw [Dict.assign, if_pos stored, numbers, Dict.keys_update]
    rfl
  refine ⟨⟨?distinct, ?others, ?known, ?kept⟩, ?own⟩
  case distinct => rw [same]; exact renewed.distinct
  case own => rw [Dict.lookup_assign, if_pos rfl]
  case others =>
    intro n different
    rw [Dict.lookup_assign, if_neg different]
    exact renewed.others n different
  case known => rw [same]; exact renewed.known
  case kept =>
    intro n early kept
    have length : (Dict.assign seq other after).length = after.length := by
      have lengths := congrArg List.length same
      rwa [numbers, numbers, List.length_map, List.length_map] at lengths
    rw [Kept, same, length]
    exact renewed.kept n early kept

/-- Where no number lies between, the record looked up for a step is the one of its drafter. -/
theorem newestBefore_drafter {plans : List (ℕ × PlanRec)} {drafter seq : ℕ}
    (earlier : drafter < seq) (between : ∀ n ∈ numbers plans, n < seq → n ≤ drafter)
    (kept : Kept plans drafter) :
    newestBefore seq plans = plans.lookup drafter := by
  rw [newestBefore]
  rcases kept with recorded | ⟨above, _⟩
  · have listed : drafter ∈ (plans.map Prod.fst).filter fun s => s < seq :=
      List.mem_filter.mpr ⟨recorded, by simpa using earlier⟩
    have largest : ((plans.map Prod.fst).filter fun s => s < seq).foldl max 0 = drafter := by
      obtain ⟨found, _, above⟩ := FirstMaximum.foldl_max 0
        ((plans.map Prod.fst).filter fun s => s < seq)
      refine le_antisymm ?_ (above drafter listed)
      rcases found with least | found
      · exact least.le.trans (Nat.zero_le _)
      · obtain ⟨recorded, before⟩ := List.mem_filter.mp found
        exact between _ recorded (by simpa using before)
    rw [if_neg (List.ne_nil_of_mem listed), largest]
  · have none : (plans.map Prod.fst).filter (fun s => s < seq) = [] :=
      List.filter_eq_nil_iff.mpr fun n listed before =>
        absurd (between n listed (by simpa using before)) (not_le_of_gt (above n listed))
    rw [if_pos none, Dict.lookup_eq_none]
    exact fun recorded => lt_irrefl drafter (above drafter recorded)

section Forgetting

/-- The records `classify` leaves. -/
def since (seq : ℕ) (plans : List (ℕ × PlanRec)) : List (ℕ × PlanRec) :=
  plans.filter fun entry => ¬ entry.1 < seq

/-- Pruning at a step forgets plans of earlier steps only. -/
theorem lookup_since (seq : ℕ) (plans : List (ℕ × PlanRec)) {n : ℕ} (late : seq ≤ n) :
    (since seq plans).lookup n = plans.lookup n := by
  induction plans with
  | nil => rfl
  | cons entry rest ih =>
    rw [since] at ih ⊢
    obtain ⟨name, plan⟩ := entry
    by_cases early : name < seq
    · have passed : (n == name) = false := by
        rw [beq_eq_false_iff_ne]
        omega
      rw [List.filter_cons_of_neg (by simpa using early), ih, List.lookup_cons, passed]
    · rw [List.filter_cons_of_pos (by simpa using early), List.lookup_cons, List.lookup_cons, ih]

/-- The numbers that remain after pruning are those from the step on, in order. -/
theorem numbers_since (seq : ℕ) (plans : List (ℕ × PlanRec)) :
    numbers (since seq plans) = (numbers plans).filter fun n => ¬ n < seq := by
  rw [numbers, numbers, since, List.filter_map]
  rfl

/-- A plan that is not forgotten stays kept. -/
theorem Kept.since {plans : List (ℕ × PlanRec)} {seq n : ℕ} (kept : Kept plans n) (late : seq ≤ n) :
    Kept (since seq plans) n := by
  rw [Kept, numbers_since]
  rcases kept with recorded | ⟨above, many⟩
  · exact .inl (List.mem_filter.mpr ⟨recorded, by simpa using late⟩)
  · have all : LookupPlans.since seq plans = plans := by
      refine List.filter_eq_self.mpr fun entry listed => ?_
      have larger := above entry.1 (List.mem_map_of_mem listed)
      simp only [not_lt, decide_eq_true_eq]
      omega
    rw [all]
    exact .inr ⟨fun m listed => above m (List.mem_filter.mp listed).1, many⟩

end Forgetting

end GlmSpark.LookupPlans
