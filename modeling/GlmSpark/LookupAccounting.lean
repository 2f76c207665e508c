import GlmSpark.LookupLevels
import GlmSpark.LookupPlanCalls

/-!
# What an output leaves of a request

`classify` finds the record of the step whose drafts are verified and replays its check;
`observe` queues the step, and `_resolve` compares it later with the tokens that were committed.
A queued step that was drafted by lookup is accounted for whenever it was accepted as its draft
says: the accepted ids are committed, and the first rejected one is not.
-/

namespace GlmSpark.LookupAccounting

open LookupIndex LookupLevels LookupRows LookupPlanner LookupPlans

section Prefixes

/-- A draft that is committed up to an index has a common prefix of that length. -/
theorem le_commonPrefix {tokens : List ℤ} {draft : List (Option ℤ)} {start n : ℕ}
    (same : ∀ j < n, ∃ t, draft[j]? = some (some t) ∧ tokens[start + j]? = some t) :
    n ≤ commonPrefix tokens draft start := by
  induction n generalizing draft start with
  | zero => exact Nat.zero_le _
  | succ n ih =>
    obtain ⟨t, here, committed⟩ := same 0 (Nat.zero_lt_succ n)
    cases draft with
    | nil => cases here
    | cons first rest =>
      obtain rfl : first = some t := Option.some.inj here
      rw [Nat.add_zero] at committed
      rw [commonPrefix, if_pos committed]
      refine Nat.succ_le_succ (ih fun j below => ?_)
      obtain ⟨u, listed, later⟩ := same (j + 1) (Nat.succ_lt_succ below)
      rw [← Nat.add_assoc, Nat.add_right_comm] at later
      exact ⟨u, listed, later⟩

/-- An id that is not committed ends the common prefix. -/
theorem commonPrefix_le {tokens : List ℤ} {draft : List (Option ℤ)} {start n : ℕ} {t : ℤ}
    (drafted : draft[n]? = some (some t)) (rejected : tokens[start + n]? ≠ some t) :
    commonPrefix tokens draft start ≤ n := by
  induction n generalizing draft start with
  | zero =>
    cases draft with
    | nil => cases drafted
    | cons first rest =>
      obtain rfl : first = some t := Option.some.inj drafted
      rw [Nat.add_zero] at rejected
      rw [commonPrefix, if_neg rejected]
  | succ n ih =>
    cases draft with
    | nil => cases drafted
    | cons first rest =>
      cases first with
      | none => exact Nat.zero_le _
      | some u =>
        rw [commonPrefix]
        split
        · refine Nat.succ_le_succ (ih drafted ?_)
          rwa [Nat.add_right_comm, Nat.add_assoc]
        · exact Nat.zero_le _

end Prefixes

section Pending

variable (engine : Engine)

/-- A queued step fits the committed tokens: a check that passed compares tokens before the step,
and a step drafted by lookup accepted the ids that were committed after it. -/
structure Fits (tokens : List ℤ) (pd : Pending) : Prop where
  checked : pd.ok = true → pd.p ≤ tokens.length ∧
    Continues (tokens.take pd.p) pd.p pd.shadow.src pd.shadow.lhost engine.cfg.maxDelta
  settled : pd.source = .lookup →
    pd.ok = true ∧ pd.accepted ≤ pd.k ∧ pd.k ≤ engine.engineK ∧ pd.p + pd.accepted < tokens.length
  accepted : pd.source = .lookup → ∀ j < pd.accepted, ∀ t,
    draftId (tokens.take pd.p) pd.p pd.shadow.src pd.shadow.lhost engine.cfg.periodic j = some t →
      tokens[pd.p + j]? = some t
  rejected : pd.source = .lookup → pd.accepted < pd.k → ∀ t,
    draftId (tokens.take pd.p) pd.p pd.shadow.src pd.shadow.lhost engine.cfg.periodic
      pd.accepted = some t → tokens[pd.p + pd.accepted]? ≠ some t

variable {engine}

/-- A pending step stays right when more tokens are committed: all it refers to is before them. -/
theorem Fits.mono {tokens longer : List ℤ} {pd : Pending} (fits : Fits engine tokens pd)
    (more : tokens <+: longer) : Fits engine longer pd := by
  obtain ⟨added, rfl⟩ := more
  have early : pd.p ≤ tokens.length → (tokens ++ added).take pd.p = tokens.take pd.p :=
    fun inside => List.take_append_of_le_length inside
  have read : ∀ i, i < tokens.length → (tokens ++ added)[i]? = tokens[i]? := fun i inside =>
    List.getElem?_append_left inside
  have inside : pd.source = .lookup → pd.p ≤ tokens.length := fun lookup =>
    (fits.checked (fits.settled lookup).1).1
  constructor
  case checked =>
    intro ok
    obtain ⟨length, continues⟩ := fits.checked ok
    rw [early length, List.length_append]
    exact ⟨by omega, continues⟩
  case settled =>
    intro lookup
    obtain ⟨ok, most, verified, room⟩ := fits.settled lookup
    rw [List.length_append]
    exact ⟨ok, most, verified, by omega⟩
  case accepted =>
    intro lookup j below t drafted
    rw [early (inside lookup)] at drafted
    have room := (fits.settled lookup).2.2.2
    rw [read _ (by omega)]
    exact fits.accepted lookup j below t drafted
  case rejected =>
    intro lookup short t drafted
    rw [early (inside lookup)] at drafted
    rw [read _ (fits.settled lookup).2.2.2]
    exact fits.rejected lookup short t drafted

/-- The draft `_resolve` replays from the tokens is the one the step was scheduled with. -/
theorem Fits.draft {tokens : List ℤ} {pd : Pending} (fits : Fits engine tokens pd)
    (ok : pd.ok = true) :
    lookupDraft tokens pd.p pd.shadow.src pd.shadow.lhost engine.engineK engine.cfg.periodic =
      some ((List.range engine.engineK).map
        (draftId (tokens.take pd.p) pd.p pd.shadow.src pd.shadow.lhost engine.cfg.periodic)) := by
  obtain ⟨inside, continues⟩ := fits.checked ok
  have formed := continues.1
  rw [lookupDraft_eq inside _ _ _ ⟨formed.1, formed.2.2⟩, Int.toNat_natCast]
  congr 2
  funext j
  exact (draftId_take _ _ tokens ⟨formed.1, formed.2.2⟩ _ j).symm

/-- A step drafted by lookup is accounted for. -/
theorem Fits.accounted {tokens : List ℤ} {pd : Pending} (fits : Fits engine tokens pd)
    (lookup : pd.source = .lookup) :
    let draft := (List.range engine.engineK).map
      (draftId (tokens.take pd.p) pd.p pd.shadow.src pd.shadow.lhost engine.cfg.periodic)
    accounted pd draft (commonPrefix tokens draft pd.p) = true := by
  intro draft
  obtain ⟨_, most, verified, _⟩ := fits.settled lookup
  have entry : ∀ j < engine.engineK, draft[j]? = some (draftId (tokens.take pd.p) pd.p
      pd.shadow.src pd.shadow.lhost engine.cfg.periodic j) := by
    intro j below
    rw [List.getElem?_map, List.getElem?_range below, Option.map_some]
  -- before the first hole every index has an id
  have firm : ∀ j, j < min pd.k (draft.findIdx Option.isNone) → ∃ t, draft[j]? = some (some t) ∧
      draftId (tokens.take pd.p) pd.p pd.shadow.src pd.shadow.lhost engine.cfg.periodic j =
        some t := by
    intro j below
    have listed := entry j (by omega)
    obtain ⟨inside, value⟩ := List.getElem?_eq_some_iff.mp listed
    have filled := List.not_of_lt_findIdx (lt_of_lt_of_le below (min_le_right _ _))
    rw [value] at filled
    obtain ⟨t, id⟩ := Option.isSome_iff_exists.mp (Option.isNone_eq_false_iff.mp filled)
    exact ⟨t, listed.trans (congrArg some id), id⟩
  have before : ∀ n, n ≤ pd.accepted → n ≤ min pd.k (draft.findIdx Option.isNone) →
      n ≤ commonPrefix tokens draft pd.p := by
    intro n early room
    refine le_commonPrefix fun j below => ?_
    obtain ⟨t, listed, id⟩ := firm j (by omega)
    exact ⟨t, listed, fits.accepted lookup j (by omega) t id⟩
  rw [LookupPlanner.accounted]
  rcases Nat.lt_or_ge pd.accepted (min pd.k (draft.findIdx Option.isNone)) with short | full
  · obtain ⟨t, listed, id⟩ := firm pd.accepted short
    have above := before pd.accepted le_rfl short.le
    have below := commonPrefix_le listed (fits.rejected lookup (by omega) t id)
    have exact_length : pd.accepted = commonPrefix tokens draft pd.p := le_antisymm above below
    rw [if_pos (by omega), decide_eq_true_iff]
    exact exact_length
  · have above := before _ full le_rfl
    rw [if_neg (by omega), decide_eq_true_iff]
    exact ⟨full, most⟩

end Pending

section Resolve

variable {engine : Engine}

/-- Resolving steps that fit never fails, counts no mismatch and leaves some of the last ones
queued. -/
theorem resolve_spec (final : Bool) (pending : List Pending) (st : ReqState) (acct : Account)
    (fits : ∀ pd ∈ pending, Fits engine st.idx.tokens pd) :
    (resolve engine final pending st acct).2.2 = true ∧
      (resolve engine final pending st acct).2.1.mismatch = acct.mismatch ∧
      ∃ left, left <:+ pending ∧
        core (resolve engine final pending st acct).1 = { core st with pending := left } := by
  induction pending generalizing st acct with
  | nil => exact ⟨rfl, rfl, [], List.suffix_refl _, rfl⟩
  | cons pd rest ih =>
    have later : ∀ (next : ReqState) (after : Account), next.idx = st.idx →
        core next = core st → after.mismatch = acct.mismatch →
        (resolve engine final rest next after).2.2 = true ∧
          (resolve engine final rest next after).2.1.mismatch = acct.mismatch ∧
          ∃ left, left <:+ pd :: rest ∧
            core (resolve engine final rest next after).1 = { core st with pending := left } := by
      intro next after idx same counted
      obtain ⟨done, mismatch, left, suffix, kept⟩ := ih next after fun other listed => by
        rw [idx]
        exact fits other (List.mem_cons_of_mem _ listed)
      exact ⟨done, mismatch.trans counted, left, suffix.trans (List.suffix_cons pd rest),
        by rw [kept, same]⟩
    have own := fits pd List.mem_cons_self
    rw [resolve]
    dsimp only
    split
    · exact ⟨rfl, rfl, pd :: rest, List.suffix_refl _, rfl⟩
    split
    · exact later st acct rfl rfl rfl
    split
    · exact later _ acct rfl rfl rfl
    next passed =>
      have ok : pd.ok = true := not_not.mp passed
      have drafted := own.draft ok
      rw [drafted]
      dsimp only
      refine later _ _ ?_ ?_ ?_
      · split <;> rfl
      · split <;> rfl
      · split
        next lookup =>
          rw [account, if_pos (own.accounted lookup)]
        next => rfl

end Resolve

section Calls

universe u
variable {κ : Type u} [DecidableEq κ] {engine : Engine}

/-- Whether the check of a record passes on the indexed tokens. -/
def replayed (cfg : LookupConfig) (idx : ContextIndex) (plan : PlanRec) (preLen : ℕ) : Bool :=
  match plan.shadow with
  | some s => decide (preLen ≤ idx.tokens.length ∧
      Continues idx.tokens preLen s.src s.lhost cfg.maxDelta)
  | none => false

/-- What `classify` answers for a core. -/
def answer (cfg : LookupConfig) (held : Core) (seq preLen : ℕ) : Source :=
  match newestBefore seq held.plans with
  | none => .none
  | some plan => sourceOf plan.mode (replayed cfg held.idx plan preLen)

/-- What `classify` leaves of a core. -/
def classified (cfg : LookupConfig) (held : Core) (seq preLen : ℕ) : Core :=
  match newestBefore seq held.plans with
  | none => { held with cur := none }
  | some plan =>
    { held with
      plans := since seq held.plans
      cur := some ⟨seq, plan, replayed cfg held.idx plan preLen,
        sourceOf plan.mode (replayed cfg held.idx plan preLen), preLen⟩ }

/-- `classify` never fails, and answers from the core of the request alone. -/
theorem classify_spec (engine : Engine) (planner : Planner κ) (seq : ℕ) (rid : κ) (preLen : ℕ) :
    (planner.classify engine seq rid preLen).2 =
        some (answer engine.cfg (view engine planner rid) seq preLen) ∧
      (planner.classify engine seq rid preLen).1.acctMismatch = planner.acctMismatch ∧
      ∀ other, view engine (planner.classify engine seq rid preLen).1 other =
        if other = rid then classified engine.cfg (view engine planner rid) seq preLen
        else view engine planner other := by
  rw [Planner.classify, answer, classified]
  cases here : planner.states rid with
  | none =>
    rw [view_unknown here]
    refine ⟨rfl, rfl, fun other => ?_⟩
    by_cases own : other = rid
    · rw [if_pos own, own]
      exact view_unknown here
    · rw [if_neg own]
  | some st =>
    rw [view_of_state here]
    dsimp only
    rw [show (core st).plans = st.plans from rfl]
    cases found : newestBefore seq st.plans with
    | none => exact ⟨rfl, rfl, fun other => view_put planner rid other _⟩
    | some plan =>
      dsimp only
      have written : ∀ (st' : ReqState) other, view engine (planner.put rid st') other =
          if other = rid then core st' else view engine planner other := fun st' other =>
        view_put planner rid other st'
      cases shadow : plan.shadow with
      | none =>
        have check : replayed engine.cfg (core st).idx plan preLen = false := by
          rw [replayed, shadow]
        dsimp only
        rw [check]
        exact ⟨rfl, rfl, written _⟩
      | some s =>
        dsimp only
        by_cases inside : preLen ≤ st.idx.tokens.length
        · have check : replayed engine.cfg (core st).idx plan preLen =
              decide (Continues st.idx.tokens preLen s.src s.lhost engine.cfg.maxDelta) := by
            rw [replayed, shadow]
            exact decide_eq_decide.mpr ⟨And.right, fun continues => ⟨inside, continues⟩⟩
          rw [if_pos inside, replayCheck_eq inside, check]
          exact ⟨rfl, rfl, written _⟩
        · have check : replayed engine.cfg (core st).idx plan preLen = false := by
            rw [replayed, shadow]
            exact decide_eq_false fun both => inside both.1
          rw [if_neg inside, check]
          exact ⟨rfl, rfl, written _⟩

/-- What is queued after a step was observed. -/
def queued (held : Core) (cur : Current) (kSched accepted : ℕ) : List Pending :=
  if kSched = 0 then held.pending
  else match cur.plan.shadow with
    | some shadow =>
      held.pending ++ [⟨cur.preLen, shadow, cur.ok, cur.source, kSched, accepted⟩]
    | none => held.pending

/-- `observe` of a step that was not classified changes nothing. -/
theorem observe_unclassified (planner : Planner κ) (seq : ℕ) (rid : κ) (kSched accepted : ℕ)
    (tokens : List ℤ) (idle : ∀ cur, (view engine planner rid).cur = some cur → cur.seq ≠ seq) :
    planner.observe engine seq rid kSched accepted tokens = (planner, some ()) := by
  rw [Planner.observe]
  cases here : planner.states rid with
  | none => rfl
  | some st =>
    rw [view_of_state here] at idle
    dsimp only
    cases left : st.cur with
    | none => rfl
    | some cur =>
      dsimp only
      rw [if_pos (idle cur left)]

/-- `observe` of a classified step queues it and resolves what can be; when all queued steps fit, it
does not fail and counts no mismatch. -/
theorem observe_spec (planner : Planner κ) (seq : ℕ) (rid : κ) (kSched accepted : ℕ)
    (tokens : List ℤ) {cur : Current} (left : (view engine planner rid).cur = some cur)
    (own : cur.seq = seq)
    (fits : ∀ pd ∈ queued (view engine planner rid) cur kSched accepted,
      Fits engine (sync engine.cfg.settings (view engine planner rid).idx tokens
        engine.cfg.ingestBudget).1.tokens pd) :
    (planner.observe engine seq rid kSched accepted tokens).2 = some () ∧
      (planner.observe engine seq rid kSched accepted tokens).1.acctMismatch =
        planner.acctMismatch ∧
      ∃ pending, pending <:+ queued (view engine planner rid) cur kSched accepted ∧
        ∀ other, view engine (planner.observe engine seq rid kSched accepted tokens).1 other =
          if other = rid then
            ⟨(sync engine.cfg.settings (view engine planner rid).idx tokens
              engine.cfg.ingestBudget).1, (view engine planner rid).plans, pending, none⟩
          else view engine planner other := by
  cases here : planner.states rid with
  | none =>
    rw [view_unknown here] at left
    cases left
  | some st =>
    rw [view_of_state here] at left fits ⊢
    rw [Planner.observe, here]
    dsimp only
    rw [show st.cur = some cur from left]
    dsimp only
    rw [if_neg (not_not.mpr own)]
    by_cases none : kSched = 0
    · rw [if_pos none, queued, if_pos none]
      exact ⟨rfl, rfl, st.pending, List.suffix_refl _, fun other => view_put planner rid other _⟩
    · rw [if_neg none, Planner.resolve]
      generalize noted : noteStep engine.cfg { st with
        cur := Option.none
        idx := (sync engine.cfg.settings st.idx tokens engine.cfg.ingestBudget).1 } cur kSched
          accepted = next
      have waiting : next.pending = queued (core st) cur kSched accepted := by
        rw [← noted, queued, if_neg none]
        rfl
      have held : core next = ⟨(sync engine.cfg.settings st.idx tokens engine.cfg.ingestBudget).1,
          st.plans, next.pending, Option.none⟩ := by
        rw [← noted]
        rfl
      obtain ⟨done, counted, pending, suffix, kept⟩ := resolve_spec false next.pending next
        ⟨planner.acctOk, planner.acctMismatch⟩ fun pd listed => by
          rw [show next.idx = (core next).idx from rfl, held]
          exact fits pd (waiting ▸ listed)
      dsimp only
      rw [done, if_pos rfl]
      refine ⟨rfl, counted, pending, waiting ▸ suffix, fun other => ?_⟩
      refine (view_put planner rid other _).trans ?_
      rw [kept, held]
      rfl

/-- `finish` forgets the request; when all queued steps fit, it does not fail and counts no
mismatch. -/
theorem finish_spec (planner : Planner κ) (rid : κ)
    (fits : ∀ pd ∈ (view engine planner rid).pending,
      Fits engine (view engine planner rid).idx.tokens pd) :
    (planner.finish engine rid).2 = some () ∧
      (planner.finish engine rid).1.acctMismatch = planner.acctMismatch ∧
      ∀ other, view engine (planner.finish engine rid).1 other =
        if other = rid then Core.fresh else view engine planner other := by
  rw [Planner.finish]
  cases here : planner.states rid with
  | none => exact ⟨rfl, rfl, view_evict planner rid⟩
  | some st =>
    rw [view_of_state here] at fits
    obtain ⟨done, counted, _, _, _⟩ := resolve_spec true st.pending st
      ⟨planner.acctOk, planner.acctMismatch⟩ fits
    dsimp only
    rw [Planner.resolve]
    dsimp only
    rw [done, if_pos rfl]
    refine ⟨rfl, counted, fun other => (view_evict _ rid other).trans ?_⟩
    split
    next => rfl
    next different => exact (view_put planner rid other _).trans (if_neg different)

end Calls

end GlmSpark.LookupAccounting
