import GlmSpark.SharedPrice

/-!
# The price ledger

What the decisions of a worker must have in common for one price to explain them. A decision
is recorded with the price it was made at and the price it ended with; the ledger of a list of
decisions says that the prices follow on from each other, and that a host policy run alone on
the same requests decides the same lengths.
-/

namespace GlmSpark.SharedPrice

open DraftPolicy PriceUpdate DraftTruncation GatedTruncation DevSelect CommandStream Runs

universe u v w
variable {ι : Type u} {ρ : Type v} {F : Type w} [DecidableEq ι] [DecidableEq ρ]

section Tables

/-- Two policies with the same tables; prices and margins may differ. -/
structure SameTables (p q : Policy F) : Prop where
  edges : p.edges = q.edges
  g : p.g = q.g
  t1 : p.t1 = q.t1
  rowMs : p.rowMs = q.rowMs
  power : p.power = q.power

/-- A policy has its own tables. -/
theorem SameTables.refl (p : Policy F) : SameTables p p := ⟨rfl, rfl, rfl, rfl, rfl⟩

/-- That two policies have the same tables does not depend on their order. -/
theorem SameTables.symm {p q : Policy F} (same : SameTables p q) : SameTables q p :=
  ⟨same.edges.symm, same.g.symm, same.t1.symm, same.rowMs.symm, same.power.symm⟩

/-- Sameness of tables is transitive. Only the price and the counters change along a run, so it
holds between any two of its states. -/
theorem SameTables.trans {p q r : Policy F} (same : SameTables p q) (other : SameTables q r) :
    SameTables p r :=
  ⟨same.edges.trans other.edges, same.g.trans other.g, same.t1.trans other.t1,
    same.rowMs.trans other.rowMs, same.power.trans other.power⟩

variable [Field F] [LinearOrder F]

/-- What is expected of a draft is read off the tables. -/
theorem SameTables.expectFrom {p q : Policy F} (same : SameTables p q) (s : ℕ) (cum e : F)
    (conf : List F) : p.expectFrom s cum e conf = q.expectFrom s cum e conf := by
  induction conf generalizing s cum e with
  | nil => rfl
  | cons lq conf ih =>
    rw [Policy.expectFrom, Policy.expectFrom, Policy.bin, Policy.bin, same.edges, same.g, ih]

/-- Expected tokens are read from the tables alone. -/
theorem SameTables.expectations {p q : Policy F} (same : SameTables p q) (confs : List (List F))
    (kmax : ℕ) : expectations p confs kmax = expectations q confs kmax := by
  refine List.map_congr_left fun conf _ => ?_
  rw [Policy.expect, Policy.expect, same.expectFrom]

omit [LinearOrder F] in
/-- So is the cost of a step. -/
theorem SameTables.cost {p q : Policy F} (same : SameTables p q) (n rows : ℕ) :
    p.cost n rows = q.cost n rows := by
  rw [Policy.cost, Policy.cost, same.t1, same.rowMs]

omit [LinearOrder F] in
/-- And so is the value of a length at a given price. -/
theorem SameTables.value {p q : Policy F} (same : SameTables p q) (lam : F) (es : List (List F))
    (L : ℕ) : p.value lam es L = q.value lam es L := by
  rw [Policy.value, Policy.value, same.cost]

/-- So is the length a price leads to. -/
theorem SameTables.bestLength {p q : Policy F} (same : SameTables p q) (lam : F)
    (es : List (List F)) (kmax : ℕ) : p.bestLength lam es kmax = q.bestLength lam es kmax := by
  have rounds : p.round lam es = q.round lam es := by
    funext best L
    rw [Policy.round, Policy.round, same.value]
  rw [Policy.bestLength, Policy.bestLength, rounds]

/-- A choice updates price and counters and keeps the tables. -/
theorem SameTables.choose {p q : Policy F} (same : SameTables p q) (confs : List (List F))
    (kmax : ℕ) : SameTables p (q.choose confs kmax).2 :=
  ⟨same.edges, same.g, same.t1, same.rowMs, same.power⟩

omit [Field F] [LinearOrder F] in
/-- Setting a price keeps the tables too. -/
theorem SameTables.setPrice {p q : Policy F} (same : SameTables p q) (lam : F) :
    SameTables p (setPrice q lam) :=
  ⟨same.edges, same.g, same.t1, same.rowMs, same.power⟩

/-- Policies with the same tables and the same price for a batch choose alike. -/
theorem SameTables.choose_eq {p q : Policy F} (same : SameTables p q) (confs : List (List F))
    (kmax : ℕ) (price : p.price confs.length = q.price confs.length) :
    (p.choose confs kmax).1 = (q.choose confs kmax).1 ∧
      (p.choose confs kmax).2.price confs.length = (q.choose confs kmax).2.price confs.length := by
  have length : (p.choose confs kmax).1 = (q.choose confs kmax).1 := by
    rw [choose_length, choose_length, price, same.expectations, same.bestLength]
  refine ⟨length, ?_⟩
  rw [choose_price, choose_price, length, price, same.expectations, rate, rate, same.cost]

/-- A choice sets the price of its batch size. -/
theorem choose_lam (policy : Policy F) (confs : List (List F)) (kmax n : ℕ) :
    (policy.choose confs kmax).2.lam n =
      if n = confs.length then some ((policy.choose confs kmax).2.price confs.length)
      else policy.lam n := by
  rw [Policy.price, Policy.choose]
  dsimp only
  rw [Function.update_self, Option.getD_some, Function.update_apply]

omit [LinearOrder F] in
/-- Policies with the same tables and the same entry have the same price. -/
theorem SameTables.price {p q : Policy F} (same : SameTables p q) {n : ℕ}
    (lam : p.lam n = q.lam n) :
    p.price n = q.price n := by
  rw [Policy.price, Policy.price, lam, same.cost, same.power]

/-- A choice leaves the prices of other batch sizes. -/
theorem choose_price_other (policy : Policy F) (confs : List (List F)) (kmax : ℕ) {n : ℕ}
    (other : n ≠ confs.length) : (policy.choose confs kmax).2.price n = policy.price n := by
  have kept : (policy.choose confs kmax).2.lam n = policy.lam n := by rw [choose_lam, if_neg other]
  exact (((SameTables.refl policy).choose confs kmax).price kept.symm).symm

omit [LinearOrder F] in
/-- A price that is set is the price. -/
theorem setPrice_price (policy : Policy F) (lam : F) : (setPrice policy lam).price 1 = lam := by
  rw [Policy.price, setPrice]
  dsimp only
  rw [Function.update_self, Option.getD_some]

end Tables

section Ledger

/-- What a decision is asked. -/
structure Request (ι : Type u) (F : Type w) where
  variant : ι
  confs : List (List F)
  kmax : ℕ

/-- A decision: what it was asked, the price it used, its length and the price it ended with. -/
structure Outcome (ι : Type u) (F : Type w) extends Request ι F where
  onDevice : Bool
  lam : F
  length : ℤ
  produced : F

/-- A decision as the device has or will have made it. -/
def resolve (picks : List (Pick ι F)) : Decided ι F → Option (Outcome ι F)
  | .host variant confs kmax lam length produced =>
    some ⟨⟨variant, confs, kmax⟩, false, lam, length, produced⟩
  | .device number => picks[number]?.map fun pick =>
    ⟨⟨pick.set, [pick.conf], kMax⟩, true, pick.lam, pick.length, pick.produced⟩

variable [Field F] [LinearOrder F]

/-- The device at the end of the stream. -/
def Host.view (host : Host ι F) : Device ι F := host.stream.settled Device.exec

/-- The decisions in the order of the program. -/
def Host.outcomes (host : Host ι F) : List (Outcome ι F) :=
  host.decided.filterMap (resolve host.view.picks)

/-- The price a variant's latest decision for one request ended with. -/
def latest (initial : F) (variant : ι) (outcomes : List (Outcome ι F)) : F :=
  (((outcomes.filter fun outcome =>
    outcome.variant = variant ∧ outcome.confs.length = 1).getLast?).map Outcome.produced).getD initial

/-- Every decision for one request uses the price the latest one of its variant ended with. -/
def Chained (initial : F) (outcomes : List (Outcome ι F)) : Prop :=
  ∀ before outcome after, outcomes = before ++ outcome :: after → outcome.confs.length = 1 →
    outcome.lam = latest initial outcome.variant before

/-- Host policies, one for each variant, decide a list of requests. -/
def alone (policy : Policy F) (requests : List (Request ι F)) : (ι → Policy F) × List ℤ :=
  requests.foldl (fun state request =>
    let (L, after) := (state.1 request.variant).choose request.confs request.kmax
    (Function.update state.1 request.variant after, state.2 ++ [(L : ℤ)]))
    (fun _ => policy, [])

/-- Some length's value passes the start of the loop, or all seven drafts are worth one token. -/
def Passes (policy : Policy F) (outcome : Outcome ι F) : Prop :=
  (∃ L, 1 ≤ L ∧ L ≤ kMax ∧
      -10 ^ 30 < policy.value outcome.lam (outcome.confs.map policy.expect) L) ∨
    total (outcome.confs.map policy.expect) kMax = 1

/-- Every decision of the device passes. -/
def AllPass (policy : Policy F) (outcomes : List (Outcome ι F)) : Prop :=
  ∀ outcome ∈ outcomes, outcome.onDevice = true → Passes policy outcome

/-- The decisions so far, against the price of each variant and the host policies. -/
structure Ledger (policy : Policy F) (outcomes : List (Outcome ι F)) (lams : ι → F)
    (pols : ι → Policy F) : Prop where
  chained : Chained (policy.price 1) outcomes
  latest : ∀ v, latest (policy.price 1) v outcomes = lams v
  lengths : AllPass policy outcomes →
    outcomes.map Outcome.length = (alone policy (outcomes.map Outcome.toRequest)).2
  policies : AllPass policy outcomes → ∀ v,
    SameTables policy ((alone policy (outcomes.map Outcome.toRequest)).1 v) ∧
      ((alone policy (outcomes.map Outcome.toRequest)).1 v).price 1 = lams v ∧
      ∀ n, n ≠ 1 → ((alone policy (outcomes.map Outcome.toRequest)).1 v).lam n = (pols v).lam n

omit [DecidableEq ι] in
/-- If all pass with one more decision, the earlier ones do. -/
theorem AllPass.earlier {policy : Policy F} {outcomes : List (Outcome ι F)} {outcome : Outcome ι F}
    (pass : AllPass policy (outcomes ++ [outcome])) : AllPass policy outcomes :=
  fun other listed => pass other (List.mem_append_left _ listed)

/-- One more request is decided by the policy of its own variant, after all earlier ones. -/
theorem alone_snoc (policy : Policy F) (requests : List (Request ι F)) (request : Request ι F) :
    alone policy (requests ++ [request]) =
      (Function.update (alone policy requests).1 request.variant
          (((alone policy requests).1 request.variant).choose request.confs request.kmax).2,
        (alone policy requests).2 ++
          [((((alone policy requests).1 request.variant).choose request.confs
            request.kmax).1 : ℤ)]) := by
  rw [alone, List.foldl_append, List.foldl_cons, List.foldl_nil]
  rfl

/-- It changes the policy of its variant. -/
theorem alone_snoc_policy (policy : Policy F) (requests : List (Request ι F))
    (request : Request ι F) (v : ι) : (alone policy (requests ++ [request])).1 v =
      if v = request.variant then
        (((alone policy requests).1 v).choose request.confs request.kmax).2
      else (alone policy requests).1 v := by
  rw [alone_snoc]
  dsimp only
  rw [Function.update_apply]
  split
  next own => rw [own]
  next => rfl

omit [Field F] [LinearOrder F] in
/-- A decision for one request is its variant's latest. -/
theorem latest_snoc (initial : F) (v : ι) (outcomes : List (Outcome ι F)) (outcome : Outcome ι F) :
    latest initial v (outcomes ++ [outcome]) =
      if outcome.variant = v ∧ outcome.confs.length = 1 then outcome.produced
      else latest initial v outcomes := by
  rw [latest, latest, List.filter_append]
  by_cases own : outcome.variant = v ∧ outcome.confs.length = 1
  · rw [if_pos own, List.filter_cons_of_pos (by simpa using own), List.filter_nil,
      List.getLast?_concat]
    rfl
  · rw [if_neg own, List.filter_cons_of_neg (by simpa using own), List.filter_nil, List.append_nil]

omit [Field F] [LinearOrder F] in
/-- A chain grows by a decision that uses the latest price. -/
theorem Chained.snoc {initial : F} {outcomes : List (Outcome ι F)}
    (chained : Chained initial outcomes) {outcome : Outcome ι F}
    (used : outcome.confs.length = 1 → outcome.lam = latest initial outcome.variant outcomes) :
    Chained initial (outcomes ++ [outcome]) := by
  intro before middle after split single
  obtain rfl | ⟨rest, last, rfl⟩ := List.eq_nil_or_concat after
  · obtain ⟨rfl, same⟩ := List.append_inj' split rfl
    obtain rfl : outcome = middle := by simpa using same
    exact used single
  · rw [List.concat_eq_append, ← List.cons_append, ← List.append_assoc] at split
    exact chained before middle rest (List.append_inj' split rfl).1 single

variable {policy : Policy F} {outcomes : List (Outcome ι F)} {lams : ι → F} {pols : ι → Policy F}

/-- A decision for one request at its variant's price, as a policy makes it unless a decision of
the device does not pass. -/
theorem Ledger.snoc_single (ledger : Ledger policy outcomes lams pols) (outcome : Outcome ι F)
    (single : outcome.confs.length = 1) (used : outcome.lam = lams outcome.variant)
    (agrees : (outcome.onDevice = true → Passes policy outcome) → ∀ p, SameTables policy p →
      p.price 1 = lams outcome.variant →
      outcome.length = (p.choose outcome.confs outcome.kmax).1 ∧
        outcome.produced = (p.choose outcome.confs outcome.kmax).2.price 1)
    {after : ι → Policy F} (others : ∀ v n, n ≠ 1 → (after v).lam n = (pols v).lam n) :
    Ledger policy (outcomes ++ [outcome]) (Function.update lams outcome.variant outcome.produced)
      after := by
  have choice : AllPass policy (outcomes ++ [outcome]) → _ := fun pass =>
    agrees (pass outcome (List.mem_append_right _ List.mem_cons_self)) _
      (ledger.policies pass.earlier outcome.variant).1
      (ledger.policies pass.earlier outcome.variant).2.1
  constructor
  case chained => exact ledger.chained.snoc fun _ => used.trans (ledger.latest _).symm
  case latest =>
    intro v
    rw [latest_snoc, Function.update_apply]
    by_cases own : v = outcome.variant
    · rw [if_pos ⟨own.symm, single⟩, if_pos own]
    · rw [if_neg fun both => own both.1.symm, if_neg own]
      exact ledger.latest v
  case lengths =>
    intro pass
    rw [List.map_append, List.map_append, List.map_singleton, List.map_singleton, alone_snoc,
      ledger.lengths pass.earlier, (choice pass).1]
  case policies =>
    intro pass v
    obtain ⟨tables, price, rest⟩ := ledger.policies pass.earlier v
    rw [List.map_append, List.map_singleton, alone_snoc_policy, Function.update_apply]
    by_cases own : v = outcome.variant
    · subst own
      rw [if_pos rfl, if_pos rfl]
      refine ⟨tables.choose _ _, (choice pass).2.symm, fun n different => ?_⟩
      rw [choose_lam, if_neg (single ▸ different), rest n different, others _ n different]
    · rw [if_neg own, if_neg own]
      exact ⟨tables, price, fun n different => (rest n different).trans (others v n different).symm⟩

/-- A decision of a host policy for another number of requests. -/
theorem Ledger.snoc_batch (ledger : Ledger policy outcomes lams pols) (outcome : Outcome ι F)
    (several : outcome.confs.length ≠ 1) (tables : SameTables policy (pols outcome.variant))
    (made : outcome.length = ((pols outcome.variant).choose outcome.confs outcome.kmax).1) :
    Ledger policy (outcomes ++ [outcome]) lams (Function.update pols outcome.variant
      ((pols outcome.variant).choose outcome.confs outcome.kmax).2) := by
  have choice : AllPass policy (outcomes ++ [outcome]) → _ := fun pass =>
    have kept := ledger.policies pass.earlier outcome.variant
    have same := kept.1.symm.trans tables
    same.choose_eq outcome.confs outcome.kmax (same.price (kept.2.2 _ several))
  constructor
  case chained => exact ledger.chained.snoc fun single => absurd single several
  case latest =>
    intro v
    rw [latest_snoc, if_neg fun both => several both.2]
    exact ledger.latest v
  case lengths =>
    intro pass
    rw [List.map_append, List.map_append, List.map_singleton, List.map_singleton, alone_snoc,
      ledger.lengths pass.earlier, made, (choice pass).1]
  case policies =>
    intro pass v
    obtain ⟨kept, price, rest⟩ := ledger.policies pass.earlier v
    rw [List.map_append, List.map_singleton, alone_snoc_policy, Function.update_apply]
    by_cases own : v = outcome.variant
    · subst own
      rw [if_pos rfl, if_pos rfl]
      refine ⟨kept.choose _ _, ?_, fun n different => ?_⟩
      · rw [choose_price_other _ _ _ (Ne.symm several), price]
      · rw [choose_lam, choose_lam, (choice pass).2, rest n different]
    · rw [if_neg own, if_neg own]
      exact ⟨kept, price, rest⟩

/-- Other prices of the host policies for one request change nothing that is kept of them. -/
theorem Ledger.reprice {policy : Policy F} {outcomes : List (Outcome ι F)} {lams : ι → F}
    {pols after : ι → Policy F} (ledger : Ledger policy outcomes lams pols)
    (others : ∀ v n, n ≠ 1 → (after v).lam n = (pols v).lam n) :
    Ledger policy outcomes lams after := by
  refine ⟨ledger.chained, ledger.latest, ledger.lengths, fun pass v => ?_⟩
  obtain ⟨tables, price, rest⟩ := ledger.policies pass v
  exact ⟨tables, price, fun n different => (rest n different).trans (others v n different).symm⟩

end Ledger

end GlmSpark.SharedPrice
