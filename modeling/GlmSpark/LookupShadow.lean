import GlmSpark.LookupMatch
import GlmSpark.LookupPlanCalls
import GlmSpark.Runs

/-!
# What the planner remembers of a copy

A request's last shadow names two positions of its indexed tokens and how far back they
agree. The sticky test only compares the tokens added since, so the shadow is right as
long as the index below it stays. Starting the index over keeps the shadow; unless the
same plan indexes the whole new list and refuses the shadow, a later plan may follow a
copy of the discarded history.
-/

namespace GlmSpark.LookupShadow

open LookupIndex LookupLevels LookupMatch LookupPlanner LookupPlans LookupRows Runs

section Slices

/-- Slices that end at two positions are equal when the tokens before both are. -/
theorem slice_eq_iff {toks : List ℤ} {a b n : ℕ} (left : n ≤ a) (right : n ≤ b) :
    slice toks (a - n) a = slice toks (b - n) b ↔
      ∀ j < n, toks[a - 1 - j]? = toks[b - 1 - j]? := by
  have read : ∀ stop, n ≤ stop → ∀ j < n,
      (slice toks (stop - n) stop)[n - 1 - j]? = toks[stop - 1 - j]? := by
    intro stop room j below
    have position : stop - n + (n - 1 - j) = stop - 1 - j := by omega
    rw [slice, List.getElem?_drop, position, List.getElem?_take_of_lt (by omega)]
  constructor
  · intro same j below
    rw [← read a left j below, ← read b right j below, same]
  · intro same
    apply List.ext_getElem?
    intro i
    by_cases below : i < n
    · have index : n - 1 - (n - 1 - i) = i := by omega
      have here := same (n - 1 - i) (by omega)
      rw [← read a left _ (by omega), ← read b right _ (by omega), index] at here
      exact here
    · rw [slice, slice, List.getElem?_drop, List.getElem?_drop,
        List.getElem?_eq_none (by rw [List.length_take]; omega),
        List.getElem?_eq_none (by rw [List.length_take]; omega)]

end Slices

section Soundness

/-- A shadow of the indexed tokens: its positions are inside, and the tokens before both agree
as far back as it says. -/
structure Sound (tokens : List ℤ) (shadow : Shadow) : Prop where
  positive : 0 < shadow.src
  earlier : shadow.src < shadow.lhost
  inside : shadow.lhost ≤ tokens.length
  room : shadow.agree ≤ shadow.src
  agrees : slice tokens (shadow.src - shadow.agree) shadow.src =
    slice tokens (shadow.lhost - shadow.agree) shadow.lhost

/-- The agreement of a shadow, read token by token: so many tokens before its source are those
before the end. -/
theorem Sound.read {tokens : List ℤ} {shadow : Shadow} (sound : Sound tokens shadow) (j : ℕ)
    (below : j < shadow.agree) :
    tokens[shadow.src - 1 - j]? = tokens[shadow.lhost - 1 - j]? :=
  (slice_eq_iff sound.room (sound.room.trans sound.earlier.le)).mp sound.agrees j below

/-- Tokens added to the index do not touch a shadow. -/
theorem Sound.append {tokens : List ℤ} {shadow : Shadow} (sound : Sound tokens shadow)
    (more : List ℤ) : Sound (tokens ++ more) shadow := by
  have earlier := sound.earlier
  have inside := sound.inside
  refine ⟨sound.positive, earlier, ?_, sound.room, ?_⟩
  · rw [List.length_append]
    exact inside.trans (Nat.le_add_right _ _)
  · rw [slice_eq_iff sound.room (sound.room.trans earlier.le)]
    intro j below
    have room := sound.room
    rw [List.getElem?_append_left (by omega), List.getElem?_append_left (by omega)]
    exact sound.read j below

/-- A shadow the sticky test accepts, advanced over the new tokens. -/
theorem advance_sound {cfg : LookupConfig} {tokens : List ℤ} {s0 shadow : Shadow}
    (sound : Sound tokens s0) (kept : advance cfg tokens s0 = some shadow) :
    Sound tokens shadow ∧ shadow.lhost = tokens.length := by
  have earlier := sound.earlier
  have positive := sound.positive
  have room := sound.room
  rw [advance] at kept
  split at kept
  case isFalse => cases kept
  case isTrue passed =>
    obtain ⟨inside, _, continued⟩ := passed
    obtain rfl := Option.some.inj kept
    have further : min cfg.maxAgree (s0.agree + (tokens.length - s0.lhost)) ≤
        s0.agree + (tokens.length - s0.lhost) := Nat.min_le_right _ _
    refine ⟨⟨?_, ?_, Nat.le_refl _, ?_, ?_⟩, rfl⟩
    · change 0 < s0.src + (tokens.length - s0.lhost)
      omega
    · change s0.src + (tokens.length - s0.lhost) < tokens.length
      omega
    · change min cfg.maxAgree (s0.agree + (tokens.length - s0.lhost)) ≤
        s0.src + (tokens.length - s0.lhost)
      omega
    · rw [slice_eq_iff (by dsimp only; omega) (by dsimp only; omega)]
      intro j below
      dsimp only at below ⊢
      -- the last tokens were compared by the test, the ones before them by the old shadow
      by_cases added : j < tokens.length - s0.lhost
      · have split : s0.src = s0.src + (tokens.length - s0.lhost) - (tokens.length - s0.lhost) := by
          omega
        have start : s0.lhost = tokens.length - (tokens.length - s0.lhost) := by omega
        have tested : slice tokens (s0.src + (tokens.length - s0.lhost) -
              (tokens.length - s0.lhost)) (s0.src + (tokens.length - s0.lhost)) =
            slice tokens (tokens.length - (tokens.length - s0.lhost)) tokens.length := by
          rw [← split, ← start, continued]
        exact (slice_eq_iff (by omega) (by omega)).mp tested j added
      · have old := sound.read (j - (tokens.length - s0.lhost)) (by omega)
        have source : s0.src - 1 - (j - (tokens.length - s0.lhost)) =
            s0.src + (tokens.length - s0.lhost) - 1 - j := by omega
        have host : s0.lhost - 1 - (j - (tokens.length - s0.lhost)) = tokens.length - 1 - j := by
          omega
        rwa [source, host] at old

/-- A match of the index is a shadow of its tokens. -/
theorem matched_sound {cfg : LookupConfig} {idx : ContextIndex} {shadow : Shadow}
    (indexed : Indexed cfg.settings idx) (found : matched cfg idx = some shadow) :
    Sound idx.tokens shadow ∧ shadow.lhost = idx.tokens.length := by
  have sizes := cfg.sizes
  have answer := match_isMatch cfg.settings idx indexed cfg.nMin cfg.nMax cfg.maxAgree
  rw [matched] at found
  split at found
  case h_2 => cases found
  case h_1 m here =>
    rw [here] at answer
    obtain ⟨⟨_, above, _⟩, there, _, agree, _, length⟩ := answer
    split at found
    case isFalse => cases found
    case isTrue =>
      obtain rfl := Option.some.inj found
      have below : m.src < idx.tokens.length := there.1.1.1
      have long : m.n ≤ m.src := there.1.1.2.1
      have suffix := commonSuffix_le idx.tokens m.src
      refine ⟨⟨?_, ?_, length.le, ?_, ?_⟩, length⟩
      · change 0 < m.src
        omega
      · change m.src < m.length
        omega
      · change m.agree ≤ m.src
        omega
      · rw [slice_eq_iff (by dsimp only; omega) (by dsimp only; omega)]
        intro j early
        dsimp only at early ⊢
        have same := commonSuffix_agrees idx.tokens m.src below.le j (by omega)
        rw [List.getD_eq_getElem?_getD, List.getD_eq_getElem?_getD,
          List.getElem?_eq_getElem (by omega), List.getElem?_eq_getElem (by omega),
          Option.getD_some, Option.getD_some] at same
        rw [length, List.getElem?_eq_getElem (by omega), List.getElem?_eq_getElem (by omega), same]

end Soundness

section Request

/-- The index is complete and the remembered shadow is one of its tokens. -/
structure Tracked (cfg : LookupConfig) (idx : ContextIndex) (last : Option Shadow) : Prop where
  indexed : Indexed cfg.settings idx
  sound : ∀ shadow, last = some shadow → Sound idx.tokens shadow

/-- When `sync` starts the index over, no shadow is remembered, or the whole new list fits the
budget and does not continue the shadow's copy. -/
def Harmless (cfg : LookupConfig) (budget : ℤ) (st : ReqState) (tokens : List ℤ) : Prop :=
  rewritten st.idx tokens → ∀ s0, st.lastShadow = some s0 →
    tokens.length ≤ budget ∧ ¬ follows cfg tokens s0

/-- Every shadow `plan` goes on with is one of the indexed tokens and ends at the last one. -/
theorem follow_sound {cfg : LookupConfig} {st : ReqState} {shadow : Shadow}
    (indexed : Indexed cfg.settings st.idx)
    (kept : ∀ s0, st.lastShadow = some s0 → follows cfg st.idx.tokens s0 →
      Sound st.idx.tokens s0)
    (goesOn : follow cfg st = some shadow) :
    Sound st.idx.tokens shadow ∧ shadow.lhost = st.idx.tokens.length := by
  have advanced : ∀ s, sticky cfg st = some s →
      Sound st.idx.tokens s ∧ s.lhost = st.idx.tokens.length := by
    intro s stuck
    obtain ⟨s0, remembered, kept'⟩ := Option.bind_eq_some_iff.mp stuck
    have passed : follows cfg st.idx.tokens s0 := by
      by_contra refused
      rw [advance, if_neg refused] at kept'
      cases kept'
    exact advance_sound (kept s0 remembered passed) kept'
  rw [follow] at goesOn
  cases stuck : sticky cfg st with
  | none =>
    rw [stuck] at goesOn
    exact matched_sound indexed goesOn
  | some old =>
    cases found : matched cfg st.idx with
    | none =>
      rw [stuck, found] at goesOn
      exact Option.some.inj goesOn ▸ advanced old stuck
    | some new =>
      rw [stuck, found] at goesOn
      dsimp only at goesOn
      split at goesOn
      · exact Option.some.inj goesOn ▸ advanced old stuck
      · exact Option.some.inj goesOn ▸ matched_sound indexed found

/-- After `sync` either the indexed tokens only grew or the index was started over. -/
theorem sync_tokens {cfg : LookupConfig} {idx : ContextIndex} (tokens : List ℤ) (budget : ℤ)
    (indexed : Indexed cfg.settings idx) :
    (¬ rewritten idx tokens ∧
      ∃ more, (sync cfg.settings idx tokens budget).1.tokens = idx.tokens ++ more) ∨
    (rewritten idx tokens ∧ (sync cfg.settings idx tokens budget).1.tokens =
      tokens.take budget.toNat) := by
  obtain ⟨_, after, _⟩ := sync_spec cfg.settings idx tokens budget indexed
  rw [startOver] at after
  by_cases other : rewritten idx tokens
  · rw [if_pos other] at after
    exact Or.inr ⟨other, after⟩
  · rw [if_neg other] at after
    exact Or.inl ⟨other, _, after⟩

/-- The index after a plan's `sync` is complete, what is remembered is a shadow of it, and the
shadow handed on ends at its last token. -/
theorem refresh_tracked {cfg : LookupConfig} {st : ReqState} {tokens : List ℤ} {budget : ℤ}
    (tracked : Tracked cfg st.idx st.lastShadow) (harmless : Harmless cfg budget st tokens) :
    Tracked cfg (refresh cfg st tokens budget).1.idx (refresh cfg st tokens budget).1.lastShadow ∧
      ∀ shadow, (refresh cfg st tokens budget).2.1 = some shadow →
        (refresh cfg st tokens budget).1.lastShadow = some shadow ∧
          shadow.lhost = (refresh cfg st tokens budget).1.idx.tokens.length := by
  obtain ⟨indexed, _, whole⟩ := sync_spec cfg.settings st.idx tokens budget tracked.indexed
  have moved := sync_tokens tokens budget tracked.indexed
  rw [refresh]
  generalize sync cfg.settings st.idx tokens budget = synced at indexed whole moved
  obtain ⟨idx, caught, used⟩ := synced
  dsimp only at indexed whole moved ⊢
  -- a shadow that is not refused here belongs to the history the index still holds
  have kept : ∀ s0, st.lastShadow = some s0 → (caught = true → follows cfg idx.tokens s0) →
      Sound idx.tokens s0 := by
    intro s0 remembered passed
    rcases moved with ⟨_, more, grown⟩ | ⟨other, fresh⟩
    · rw [grown]
      exact (tracked.sound s0 remembered).append more
    · obtain ⟨fits, refused⟩ := harmless other s0 remembered
      have all : idx.tokens = tokens := by
        rw [fresh, List.take_of_length_le (by omega)]
      exact absurd (all ▸ passed (whole.mpr (by rw [all]))) refused
  cases caught with
  | true =>
    have goesOn : ∀ shadow, follow cfg { st with idx := idx } = some shadow →
        Sound idx.tokens shadow ∧ shadow.lhost = idx.tokens.length := by
      intro shadow goesOn
      have remains : ∀ s0, { st with idx := idx }.lastShadow = some s0 →
          follows cfg { st with idx := idx }.idx.tokens s0 →
          Sound { st with idx := idx }.idx.tokens s0 := fun s0 remembered passed =>
        kept s0 remembered fun _ => passed
      exact follow_sound indexed remains goesOn
    exact ⟨⟨indexed, fun shadow same => (goesOn shadow same).1⟩,
      fun shadow same => ⟨same, (goesOn shadow same).2⟩⟩
  | false =>
    refine ⟨⟨indexed, fun s0 remembered => kept s0 remembered ?_⟩, ?_⟩
    · intro caught
      cases caught
    · intro shadow none
      cases none

end Request

section Memory

universe u
variable {κ : Type u} [DecidableEq κ] (engine : Engine)

/-- What a planner holds about the copies of a request: its index and the remembered shadow. -/
def memory (planner : Planner κ) (rid : κ) : Option (ContextIndex × Option Shadow) :=
  (planner.states rid).map fun st => (st.idx, st.lastShadow)

omit [DecidableEq κ] in
/-- A request's state read through its memory. -/
theorem memory_of_state {planner : Planner κ} {rid : κ} {st : ReqState}
    (here : planner.states rid = some st) :
    memory planner rid = some (st.idx, st.lastShadow) := by
  rw [memory, here, Option.map_some]

/-- Writing a request's state changes no other memory. -/
theorem memory_put (planner : Planner κ) (rid other : κ) (st : ReqState) :
    memory (planner.put rid st) other =
      if other = rid then some (st.idx, st.lastShadow) else memory planner other := by
  rw [memory, Planner.states_put]
  split <;> rfl

/-- A state with the same index and shadow leaves every memory as it was. -/
theorem memory_put_same {planner : Planner κ} {rid : κ} {st next : ReqState}
    (here : planner.states rid = some st) (idx : next.idx = st.idx)
    (last : next.lastShadow = st.lastShadow) : memory (planner.put rid next) = memory planner := by
  funext other
  rw [memory_put]
  split
  next same => rw [same, memory_of_state here, idx, last]
  next => rfl

/-- Converting skip rows only rewrites recorded modes. -/
theorem memory_convertPlans (seq : ℕ) (rows : List (κ × Row)) (planner : Planner κ) :
    memory (convertPlans seq rows planner).1 = memory planner := by
  induction rows generalizing planner with
  | nil => rfl
  | cons entry rest ih =>
    obtain ⟨rid, row⟩ := entry
    rw [convertPlans]
    split
    · cases here : planner.states rid with
      | none => rfl
      | some st =>
        dsimp only
        cases st.plans.lookup seq with
        | none => rfl
        | some plan =>
          dsimp only
          rw [ih]
          exact memory_put_same here rfl rfl
    · exact ih planner

/-- Noting the previous rows only rewrites a flag. -/
theorem memory_notePrevious (rows : List (κ × Row)) (entries : List (PlanEntry κ))
    (planner : Planner κ) :
    memory (entries.foldl (notePrevious rows) planner) = memory planner := by
  induction entries generalizing planner with
  | nil => rfl
  | cons e rest ih =>
    rw [List.foldl_cons, ih, notePrevious]
    cases here : planner.states e.rid with
    | none => rfl
    | some st => exact memory_put_same here rfl rfl

/-- Resolving pending steps keeps the index and the shadow. -/
theorem resolve_keeps (final : Bool) (pending : List Pending) (st : ReqState) (acct : Account) :
    (resolve engine final pending st acct).1.idx = st.idx ∧
      (resolve engine final pending st acct).1.lastShadow = st.lastShadow := by
  induction pending generalizing st acct with
  | nil => exact ⟨rfl, rfl⟩
  | cons pd rest ih =>
    rw [resolve]
    dsimp only
    split
    · exact ⟨rfl, rfl⟩
    split
    · exact ih st acct
    split
    · exact ih (noteEvaluation (noteCheck engine.cfg.alpha st pd.shadow.cls pd.ok) pd.shadow.cls) acct
    split
    · exact ⟨rfl, rfl⟩
    next draft _ =>
      obtain ⟨idx, last⟩ := ih
        (if ¬ final = true ∨ pd.p + engine.engineK ≤ st.idx.tokens.length then
          noteEvaluation (noteDraft engine (noteCheck engine.cfg.alpha st pd.shadow.cls pd.ok)
            pd.shadow.cls (commonPrefix st.idx.tokens draft pd.p)) pd.shadow.cls
        else noteCheck engine.cfg.alpha st pd.shadow.cls pd.ok)
        (if pd.source = .lookup then
          account acct pd draft (commonPrefix st.idx.tokens draft pd.p) else acct)
      constructor
      · refine idx.trans ?_
        split <;> rfl
      · refine last.trans ?_
        split <;> rfl

/-- Resolving a request's pending steps keeps every memory. -/
theorem memory_resolve {planner : Planner κ} {rid : κ} {st next : ReqState} (final : Bool)
    (here : planner.states rid = some st) (idx : next.idx = st.idx)
    (last : next.lastShadow = st.lastShadow) :
    memory (planner.resolve engine rid next final).1 = memory planner := by
  have kept := resolve_keeps engine final next.pending next
    ⟨planner.acctOk, planner.acctMismatch⟩
  have written := memory_put_same here (kept.1.trans idx) (kept.2.trans last)
  exact written

/-- An entry writes the state after its `sync` back, with one more recorded plan. -/
theorem planner_planEntry (call : PlanCall) (loop : PlanLoop κ) (e : PlanEntry κ) :
    ∃ plans, (planEntry engine call loop e).planner = loop.planner.put e.rid
      { (refresh engine.cfg (loop.planner.state engine e.rid) e.tokens loop.budget).1 with
        plans := plans } := by
  rw [planEntry]
  generalize refresh engine.cfg (loop.planner.state engine e.rid) e.tokens loop.budget = out
  obtain ⟨st, shadow, used⟩ := out
  dsimp only
  split
  · rw [planAlternating.eq_def]
    split
    · exact ⟨_, rfl⟩
    · exact ⟨_, rfl⟩
  · rw [planChosen]
    dsimp only
    split
    · split
      · exact ⟨_, rfl⟩
      · exact ⟨_, rfl⟩
    · exact ⟨_, rfl⟩

/-- The memory an entry of `plan` leaves. -/
theorem memory_planEntry (call : PlanCall) (loop : PlanLoop κ) (e : PlanEntry κ) (other : κ) :
    let out := refresh engine.cfg (loop.planner.state engine e.rid) e.tokens loop.budget
    memory (planEntry engine call loop e).planner other =
      if other = e.rid then some (out.1.idx, out.1.lastShadow) else memory loop.planner other := by
  obtain ⟨plans, left⟩ := planner_planEntry engine call loop e
  rw [left]
  exact memory_put loop.planner e.rid other _

/-- Outside the alternating modes an entry adds at most a row of its shadow. -/
theorem rows_planEntry (plain : engine.cfg.force.alternating = false) (call : PlanCall)
    (loop : PlanLoop κ) (e : PlanEntry κ) :
    (planEntry engine call loop e).rows = loop.rows ∨ ∃ shadow mode k,
      (refresh engine.cfg (loop.planner.state engine e.rid) e.tokens loop.budget).2.1 =
        some shadow ∧
      (planEntry engine call loop e).rows =
        Dict.assign e.rid ⟨mode, shadow.src, shadow.lhost, k⟩ loop.rows := by
  obtain ⟨_, _, _, rows, _⟩ := planEntry_eq engine plain call loop e rfl
  rw [rows, addRow]
  split
  next row stands =>
    obtain ⟨_, shadow, here, rfl⟩ := rowOf_eq_some.mp stands
    exact Or.inr ⟨shadow, _, _, here, rfl⟩
  next => exact Or.inl rfl

end Memory

section Calls

universe u
variable {κ : Type u} [DecidableEq κ] (engine : Engine)

/-- Every request's memory is tracked. -/
def Tracks (planner : Planner κ) : Prop :=
  ∀ rid idx last, memory planner rid = some (idx, last) → Tracked engine.cfg idx last

/-- Every row names the positions of a shadow its request remembers, up to the last indexed
token. -/
def RowsTracked (planner : Planner κ) (rows : List (κ × Row)) : Prop :=
  ∀ rid row, (rid, row) ∈ rows → ∃ idx shadow, memory planner rid = some (idx, some shadow) ∧
    row.src = shadow.src ∧ row.lhost = shadow.lhost ∧ row.lhost = idx.tokens.length

/-- Every entry of a plan is harmless when its turn comes. -/
def SafeEntries (call : PlanCall) : PlanLoop κ → List (PlanEntry κ) → Prop
  | _, [] => True
  | loop, e :: rest =>
    Harmless engine.cfg loop.budget (loop.planner.state engine e.rid) e.tokens ∧
      SafeEntries call (planEntry engine call loop e) rest

variable {engine}

omit [DecidableEq κ] in
/-- The state an entry starts from is tracked, also that of an unknown request. -/
theorem Tracks.state {planner : Planner κ} (tracks : Tracks engine planner) (rid : κ) :
    Tracked engine.cfg (planner.state engine rid).idx (planner.state engine rid).lastShadow := by
  rw [Planner.state]
  cases here : planner.states rid with
  | none =>
    refine ⟨empty_indexed engine.cfg.settings, ?_⟩
    intro shadow none
    cases none
  | some st => exact tracks rid st.idx st.lastShadow (memory_of_state here)

/-- Writing a tracked state keeps all of them tracked. -/
theorem Tracks.put {planner : Planner κ} (tracks : Tracks engine planner) (rid : κ)
    (st : ReqState) (tracked : Tracked engine.cfg st.idx st.lastShadow) :
    Tracks engine (planner.put rid st) := by
  intro other idx last here
  rw [memory_put] at here
  split at here
  · obtain ⟨rfl, rfl⟩ := Prod.mk.inj (Option.some.inj here)
    exact tracked
  · exact tracks other idx last here

omit [DecidableEq κ] in
/-- Planners with equal memories are tracked alike. -/
theorem Tracks.congr {planner after : Planner κ} (tracks : Tracks engine planner)
    (same : memory after = memory planner) : Tracks engine after := fun rid idx last here =>
  tracks rid idx last (same ▸ here)

/-- A forgotten request is not tracked any more. -/
theorem Tracks.evict {planner : Planner κ} (tracks : Tracks engine planner) (rid : κ) :
    Tracks engine (planner.evict rid) := by
  intro other idx last here
  rw [memory, Planner.states_evict] at here
  split at here
  · cases here
  · exact tracks other idx last here

/-- An entry whose turn is harmless keeps everything tracked. -/
theorem planEntry_tracks (call : PlanCall) {loop : PlanLoop κ} (e : PlanEntry κ)
    (tracks : Tracks engine loop.planner)
    (harmless : Harmless engine.cfg loop.budget (loop.planner.state engine e.rid) e.tokens) :
    Tracks engine (planEntry engine call loop e).planner := by
  intro other idx last here
  rw [memory_planEntry] at here
  split at here
  · obtain ⟨rfl, rfl⟩ := Prod.mk.inj (Option.some.inj here)
    exact (refresh_tracked (tracks.state e.rid) harmless).1
  · exact tracks other idx last here

/-- The rows of the entries so far stay tracked, and the entry's own row is. -/
theorem planEntry_rows (plain : engine.cfg.force.alternating = false) (call : PlanCall)
    {loop : PlanLoop κ} (e : PlanEntry κ) (tracks : Tracks engine loop.planner)
    (harmless : Harmless engine.cfg loop.budget (loop.planner.state engine e.rid) e.tokens)
    (unseen : e.rid ∉ loop.rows.map Prod.fst) (tracked : RowsTracked loop.planner loop.rows) :
    RowsTracked (planEntry engine call loop e).planner (planEntry engine call loop e).rows := by
  have earlier : ∀ rid row, (rid, row) ∈ loop.rows → ∃ idx shadow,
      memory (planEntry engine call loop e).planner rid = some (idx, some shadow) ∧
        row.src = shadow.src ∧ row.lhost = shadow.lhost ∧ row.lhost = idx.tokens.length := by
    intro rid row listed
    have other : rid ≠ e.rid := fun same => unseen (same ▸ List.mem_map_of_mem listed)
    rw [memory_planEntry, if_neg other]
    exact tracked rid row listed
  rcases rows_planEntry engine plain call loop e with same | ⟨shadow, mode, k, here, added⟩
  · rw [same]
    exact earlier
  · rw [added, Dict.assign, if_neg unseen]
    intro rid row listed
    rcases List.mem_append.mp listed with old | new
    · exact earlier rid row old
    · obtain ⟨rfl, rfl⟩ := Prod.mk.inj (List.mem_singleton.mp new)
      obtain ⟨last, length⟩ := (refresh_tracked (tracks.state e.rid) harmless).2 shadow here
      rw [memory_planEntry, if_pos rfl, last]
      exact ⟨_, shadow, rfl, rfl, rfl, length⟩

/-- A row of an entry belongs to it or was there before. -/
theorem planEntry_keys (plain : engine.cfg.force.alternating = false) (call : PlanCall)
    (loop : PlanLoop κ) (e : PlanEntry κ) {rid : κ}
    (listed : rid ∈ (planEntry engine call loop e).rows.map Prod.fst) :
    rid = e.rid ∨ rid ∈ loop.rows.map Prod.fst := by
  rcases rows_planEntry engine plain call loop e with same | ⟨shadow, mode, k, _, added⟩
  · exact Or.inr (same ▸ listed)
  · rw [added, Dict.mem_keys_assign] at listed
    exact listed

/-- The loop of `plan` keeps everything tracked. -/
theorem planLoop_tracks (call : PlanCall) (entries : List (PlanEntry κ)) (loop : PlanLoop κ)
    (tracks : Tracks engine loop.planner) (safe : SafeEntries engine call loop entries) :
    Tracks engine (entries.foldl (planEntry engine call) loop).planner := by
  induction entries generalizing loop with
  | nil => exact tracks
  | cons e rest ih => exact ih _ (planEntry_tracks call e tracks safe.1) safe.2

/-- The rows the loop of `plan` ends with are tracked. -/
theorem planLoop_rows (plain : engine.cfg.force.alternating = false) (call : PlanCall)
    (entries : List (PlanEntry κ)) (loop : PlanLoop κ) (tracks : Tracks engine loop.planner)
    (safe : SafeEntries engine call loop entries) (distinct : (entries.map PlanEntry.rid).Nodup)
    (unseen : ∀ e ∈ entries, e.rid ∉ loop.rows.map Prod.fst)
    (tracked : RowsTracked loop.planner loop.rows) :
    RowsTracked (entries.foldl (planEntry engine call) loop).planner
      (entries.foldl (planEntry engine call) loop).rows := by
  induction entries generalizing loop with
  | nil => exact tracked
  | cons e rest ih =>
    obtain ⟨single, others⟩ := List.nodup_cons.mp distinct
    refine ih _ (planEntry_tracks call e tracks safe.1) safe.2 others ?_
      (planEntry_rows plain call e tracks safe.1 (unseen e List.mem_cons_self) tracked)
    intro later listed again
    rcases planEntry_keys plain call loop e again with same | before
    · exact single (same ▸ List.mem_map_of_mem listed)
    · exact unseen later (List.mem_cons_of_mem _ listed) before

/-- What follows the loop of `plan` keeps what the loop remembers. -/
theorem memory_finishPlan (seq : ℕ) (entries : List (PlanEntry κ)) (nBatch : ℕ)
    (loop : PlanLoop κ) :
    memory (finishPlan seq entries nBatch loop).1 = memory loop.planner := by
  have converted := memory_convertPlans seq loop.rows loop.planner
  rw [finishPlan]
  split
  · rw [memory_notePrevious]
  · split
    next planner here =>
      rw [memory_notePrevious, ← converted, here]
    next planner here =>
      rw [← converted, here]

/-- The rows handed out have the positions of the rows of the loop. -/
theorem rows_finishPlan {seq : ℕ} {entries : List (PlanEntry κ)} {nBatch : ℕ}
    {loop : PlanLoop κ} {out : StepPlan κ} (answer : (finishPlan seq entries nBatch loop).2 = some out)
    {rid : κ} {row : Row} (listed : (rid, row) ∈ out.rows) :
    ∃ before, (rid, before) ∈ loop.rows ∧ row.src = before.src ∧ row.lhost = before.lhost := by
  rw [finishPlan] at answer
  split at answer
  · obtain rfl := Option.some.inj answer
    exact ⟨row, listed, rfl, rfl⟩
  · split at answer
    · obtain rfl := Option.some.inj answer
      obtain ⟨entry, before, same⟩ := List.mem_map.mp listed
      obtain ⟨rfl, rfl⟩ := Prod.mk.inj same
      refine ⟨entry.2, before, ?_, ?_⟩
      · rw [Row.converted]
        split <;> rfl
      · rw [Row.converted]
        split <;> rfl
    · cases answer

/-- `classify` keeps the memory of every request; it adds to the pending steps only. -/
theorem memory_classify (planner : Planner κ) (seq : ℕ) (rid : κ) (preLen : ℕ) :
    memory (planner.classify engine seq rid preLen).1 = memory planner := by
  rw [Planner.classify]
  cases here : planner.states rid with
  | none => rfl
  | some st =>
    dsimp only
    split
    · exact memory_put_same here rfl rfl
    · split
      · exact memory_put_same here rfl rfl
      · exact memory_put_same here rfl rfl

/-- `observe` keeps everything tracked unless it starts an index over under a shadow. -/
theorem observe_tracks {planner : Planner κ} (tracks : Tracks engine planner) (seq : ℕ) (rid : κ)
    (kSched accepted : ℕ) (tokensAfter : List ℤ)
    (harmless : ∀ st cur, planner.states rid = some st → st.cur = some cur → cur.seq = seq →
      rewritten st.idx tokensAfter → st.lastShadow = none) :
    Tracks engine (planner.observe engine seq rid kSched accepted tokensAfter).1 := by
  rw [Planner.observe]
  cases here : planner.states rid with
  | none => exact tracks
  | some st =>
    dsimp only
    cases current : st.cur with
    | none => exact tracks
    | some cur =>
      dsimp only
      split
      next => exact tracks
      next this =>
        have before := tracks rid st.idx st.lastShadow (memory_of_state here)
        obtain ⟨indexed, _⟩ := sync_spec engine.cfg.settings st.idx tokensAfter
          engine.cfg.ingestBudget before.indexed
        have after : Tracked engine.cfg
            (sync engine.cfg.settings st.idx tokensAfter engine.cfg.ingestBudget).1
            st.lastShadow := by
          refine ⟨indexed, fun shadow remembered => ?_⟩
          rcases sync_tokens tokensAfter engine.cfg.ingestBudget before.indexed with
            ⟨_, more, grown⟩ | ⟨other, _⟩
          · rw [grown]
            exact (before.sound shadow remembered).append more
          · rw [harmless st cur here current (not_not.mp this) other] at remembered
            cases remembered
        split
        · exact tracks.put rid _ after
        · generalize added : noteStep engine.cfg
            { st with
              cur := none
              idx := (sync engine.cfg.settings st.idx tokensAfter engine.cfg.ingestBudget).1 }
            cur kSched accepted = next
          have kept := resolve_keeps engine false next.pending next
            ⟨planner.acctOk, planner.acctMismatch⟩
          have settled : Tracked engine.cfg
              (LookupPlanner.resolve engine false next.pending next
                ⟨planner.acctOk, planner.acctMismatch⟩).1.idx
              (LookupPlanner.resolve engine false next.pending next
                ⟨planner.acctOk, planner.acctMismatch⟩).1.lastShadow := by
            rw [kept.1, kept.2, ← added]
            exact after
          exact (tracks.put rid _ settled).congr rfl

/-- Finishing a request keeps everything tracked that is still there. -/
theorem finish_tracks {planner : Planner κ} (tracks : Tracks engine planner) (rid : κ) :
    Tracks engine (planner.finish engine rid).1 := by
  rw [Planner.finish]
  cases here : planner.states rid with
  | none => exact tracks.evict rid
  | some st =>
    have resolved : Tracks engine (planner.resolve engine rid st true).1 :=
      tracks.congr (memory_resolve engine true here rfl rfl)
    dsimp only
    split
    next planner' _ done => exact Tracks.evict (by rw [done] at resolved; exact resolved) rid
    next planner' done => rw [done] at resolved; exact resolved

/-- The runs of a planner in which every call meets a condition. -/
def calls (engine : Engine) (allowed : Planner κ → Call κ → Prop) : System (Planner κ) (Call κ) where
  initial := engine.start
  step planner call := planner.after engine call
  allowed := allowed

/-- No call starts an index over under a remembered shadow; a plan may when it takes in the whole
new list and refuses the shadow. -/
def Safe (engine : Engine) (planner : Planner κ) : Call κ → Prop
  | .plan seq entries nBatch => SafeEntries engine ⟨seq, nBatch, entries.length⟩
      ⟨planner, engine.cfg.ingestBudget, [], []⟩ entries
  | .observe seq rid _ _ tokensAfter => ∀ st cur, planner.states rid = some st →
      st.cur = some cur → cur.seq = seq → rewritten st.idx tokensAfter → st.lastShadow = none
  | _ => True

/-- Every call that is safe keeps everything tracked. -/
theorem after_tracks {planner : Planner κ} (tracks : Tracks engine planner) (call : Call κ)
    (safe : Safe engine planner call) : Tracks engine (planner.after engine call) := by
  cases call with
  | plan seq entries nBatch =>
    exact (planLoop_tracks _ entries _ tracks safe).congr (memory_finishPlan seq entries nBatch _)
  | classify seq rid preLen => exact tracks.congr (memory_classify planner seq rid preLen)
  | observe seq rid kSched accepted tokensAfter =>
    exact observe_tracks tracks seq rid kSched accepted tokensAfter safe
  | finish rid => exact finish_tracks tracks rid
  | evict rid => exact tracks.evict rid
  | price k drafted ms => exact tracks

/-- In every run of safe calls what is remembered is tracked. -/
theorem reachable_tracks {planner : Planner κ}
    (reachable : Reachable (calls engine (Safe engine)) planner) : Tracks engine planner := by
  apply reachable.invariant
  · intro rid idx last here
    exact absurd here (Option.some_ne_none _).symm
  · intro planner call tracks safe
    exact after_tracks tracks call safe

/-- In every run whose calls are safe, every remembered shadow is one of the indexed tokens, and
outside the alternating modes so is every row of a safe plan, up to the last indexed token. -/
theorem shadows_sound {planner : Planner κ}
    (reachable : Reachable (calls engine (Safe engine)) planner) :
    (∀ rid st shadow, planner.states rid = some st → st.lastShadow = some shadow →
      Sound st.idx.tokens shadow) ∧
    ∀ seq entries nBatch out, engine.cfg.force.alternating = false →
      (entries.map PlanEntry.rid).Nodup → Safe engine planner (.plan seq entries nBatch) →
      (planner.plan engine seq entries nBatch).2 = some out →
      ∀ rid row, (rid, row) ∈ out.rows → ∃ st shadow,
        (planner.plan engine seq entries nBatch).1.states rid = some st ∧
        st.lastShadow = some shadow ∧ Sound st.idx.tokens shadow ∧
        row.src = shadow.src ∧ row.lhost = shadow.lhost ∧ row.lhost = st.idx.tokens.length := by
  have tracks := reachable_tracks reachable
  constructor
  · intro rid st shadow here remembered
    exact (tracks rid _ _ (memory_of_state here)).sound shadow remembered
  · intro seq entries nBatch out plain distinct safe answer rid row listed
    have looped := planLoop_rows plain _ entries _ tracks safe distinct
      (fun e _ none => List.not_mem_nil none) (fun _ _ none => absurd none List.not_mem_nil)
    have kept := after_tracks tracks (.plan seq entries nBatch) safe
    obtain ⟨before, there, src, lhost⟩ := rows_finishPlan answer listed
    obtain ⟨idx, shadow, memorised, sameSrc, sameHost, length⟩ := looped rid before there
    rw [← memory_finishPlan seq entries nBatch] at memorised
    obtain ⟨st, here, same⟩ := Option.map_eq_some_iff.mp memorised
    obtain ⟨rfl, last⟩ := Prod.mk.inj same
    exact ⟨st, shadow, here, last, (kept rid _ _ (memory_of_state here)).sound shadow last,
      src.trans sameSrc, lhost.trans sameHost, lhost.trans length⟩

end Calls

section Runs

/-- A planner whose every match becomes an override row of three tokens. -/
def copying : Engine where
  cfg :=
    { mode := .on, nMin := 2, nMax := 4, minAgree := 2, maxAgree := 64, maxBatch := 1
      skip := false, skipStreak := true, periodic := true, maxDelta := 64, margin := 0, alpha := 0
      minObs := 2, force := .override, hotTokens := 4096, bulkMin := 2048, ingestBudget := 32768
      numpy := false, sizes := by decide, window := by decide, limits := by decide }
  engineK := 3
  familyTable := [3]
  cost :=
    { points := [(3, 36)], increasing := List.pairwise_singleton _ _, nonempty := by decide
      draft := 3, learn := false, alpha := 0, minSamples := 8, learned := [], seen := [] }

/-- One request with these committed tokens. -/
def decoding (tokens : List ℤ) : List (PlanEntry ℕ) := [⟨0, tokens, true, 3, false⟩]

/-- The planner after a first plan of tokens that repeat. -/
def copied : Planner ℕ :=
  (calls copying (Safe copying)).run copying.start [.plan 1 (decoding [1, 2, 3, 1, 2]) 1]

/-- A plan of a request without a remembered shadow is safe. -/
theorem copied_reachable : Reachable (calls copying (Safe copying)) copied := by
  have fresh : Safe copying copying.start (.plan 1 (decoding [1, 2, 3, 1, 2]) 1) := by
    refine ⟨?_, trivial⟩
    intro _ _ none
    cases none
  exact Reachable.initial.run [Call.plan 1 (decoding [1, 2, 3, 1, 2]) 1] ⟨fresh, trivial⟩

/-- The copy went on: the row of the next plan is a shadow of the longer list. -/
theorem shadows_sound_copied :
    (copied.plan copying 2 (decoding [1, 2, 3, 1, 2, 3]) 1).2.map StepPlan.rows =
        some [(0, ⟨.override, 3, 6, 3⟩)] ∧
      ∃ st shadow, (copied.plan copying 2 (decoding [1, 2, 3, 1, 2, 3]) 1).1.states 0 = some st ∧
        st.lastShadow = some shadow ∧ Sound st.idx.tokens shadow ∧ 3 = shadow.src ∧
        6 = shadow.lhost := by
  have rows : (copied.plan copying 2 (decoding [1, 2, 3, 1, 2, 3]) 1).2.map StepPlan.rows =
      some [(0, ⟨.override, 3, 6, 3⟩)] := by decide +kernel
  have grows : ¬ rewritten (copied.state copying 0).idx [1, 2, 3, 1, 2, 3] := by decide +kernel
  have safe : Safe copying copied (.plan 2 (decoding [1, 2, 3, 1, 2, 3]) 1) :=
    ⟨fun other => absurd other grows, trivial⟩
  obtain ⟨out, answer, listed⟩ := Option.map_eq_some_iff.mp rows
  have row : ((0, ⟨.override, 3, 6, 3⟩) : ℕ × Row) ∈ out.rows := by
    rw [listed]
    exact List.mem_singleton_self _
  obtain ⟨st, shadow, here, last, sound, src, lhost, _⟩ :=
    (shadows_sound copied_reachable).2 2 (decoding [1, 2, 3, 1, 2, 3]) 1 out rfl
      (List.nodup_singleton 0) safe answer 0 _ row
  exact ⟨rows, st, shadow, here, last, sound, src, lhost⟩

/-- A plan of a rewritten history of the same length keeps the shadow of the old one and hands it
out, although the new tokens do not agree there. -/
theorem stale_shadow_followed :
    (copied.plan copying 2 (decoding [9, 8, 7, 6, 5]) 1).2.map StepPlan.rows =
        some [(0, ⟨.override, 2, 5, 3⟩)] ∧
      ∃ st shadow, (copied.plan copying 2 (decoding [9, 8, 7, 6, 5]) 1).1.states 0 = some st ∧
        st.lastShadow = some shadow ∧ ¬ Sound st.idx.tokens shadow := by
  refine ⟨by decide +kernel, ?_⟩
  have held : (memory (copied.plan copying 2 (decoding [9, 8, 7, 6, 5]) 1).1 0).map
      (fun held => (held.1.tokens, held.2)) =
      some ([9, 8, 7, 6, 5], some ⟨2, 5, 0, 2, 2⟩) := by decide +kernel
  obtain ⟨⟨idx, last⟩, memorised, both⟩ := Option.map_eq_some_iff.mp held
  obtain ⟨st, here, same⟩ := Option.map_eq_some_iff.mp memorised
  obtain ⟨rfl, rfl⟩ := Prod.mk.inj same
  obtain ⟨tokens, remembered⟩ := Prod.mk.inj both
  refine ⟨st, _, here, remembered, fun sound => ?_⟩
  have agrees := sound.agrees
  dsimp only at tokens
  rw [tokens] at agrees
  exact absurd agrees (by decide)

end Runs

end GlmSpark.LookupShadow
