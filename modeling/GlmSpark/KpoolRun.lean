import GlmSpark.KpoolPrefill
import GlmSpark.Runs

/-!
# The pooled indexer cache over whole runs

Requests are admitted, with pools of an earlier request's tokens where the prefix cache
has them, get further slots, run in batches and are released. A decode row brings a token
and drafts; drafts may be taken back. Blocks and slots come from an allocator that hands
out only what nobody holds.

In every reachable state every complete pool of every request is compressed from the
request's own tokens, whatever was drafted and taken back before and however the programs
of the launches were interleaved.
-/

namespace GlmSpark.KpoolTail

open Launch Program Ragged Runs

variable {V : Type}

section Model

/-- What a request holds: a tail block while it runs, pool slots, and the tokens it stored. Tokens
up to `committed` are not taken back. -/
structure Holder (V : Type) where
  block : Option ℕ
  locs : List ℕ
  entries : List V
  committed : ℕ

/-- The pool cache of all requests: the memory of ring and pool cells, and who holds which part of
it. -/
structure State (V : Type) where
  memory : Cell → V
  holders : ℕ → Option (Holder V)

/-- What happens to the requests: one is admitted with the leading pools of a donor, gets further
slots, is released down to its leading pools, takes part in a batch, or has drafts taken back. -/
inductive Event (V : Type)
  | enter (id block donor pools : ℕ) (fresh : List ℕ)
  | extend (id : ℕ) (fresh : List ℕ)
  | release (id pools : ℕ)
  | write (decode prefill : List (ℕ × List V)) (slotIn : List ℤ) (final : Cell → V)
  | reject (id count : ℕ)

/-- The leading pools of a request's tokens, without a block. -/
def Holder.leading (kpool pools : ℕ) (holder : Holder V) : Holder V :=
  ⟨none, holder.locs.take pools, holder.entries.take (pools * kpool), pools * kpool⟩

/-- A request's row of a batch. -/
def State.row (state : State V) (request : ℕ × List V) : Row V :=
  match state.holders request.1 with
  | some holder => ⟨holder.block.getD 0, holder.locs, holder.entries, request.2⟩
  | none => ⟨0, [], [], request.2⟩

/-- The batch of a step: the rows of its requests, each with what it stored before. -/
def State.batch (state : State V) (decode prefill : List (ℕ × List V)) (slotIn : List ℤ) : Batch V :=
  ⟨decode.map state.row, prefill.map state.row, slotIn⟩

/-- A request after a batch: of a decode row only the first token is not taken back. -/
def Holder.wrote (decode prefill : List (ℕ × List V)) (id : ℕ) (holder : Holder V) : Holder V :=
  match decode.lookup id with
  | some tokens =>
    { holder with entries := holder.entries ++ tokens, committed := holder.entries.length + 1 }
  | none =>
    match prefill.lookup id with
    | some tokens =>
      { holder with
        entries := holder.entries ++ tokens, committed := holder.entries.length + tokens.length }
    | none => holder

/-- What a request that holds nothing has. -/
def Holder.nothing : Holder V := ⟨none, [], [], 0⟩

/-- What an event does. A batch leaves the memory its event carries, and its tokens are added to
what the requests stored. -/
def step (kpool : ℕ) (state : State V) : Event V → State V
  | .enter id block donor pools fresh =>
    let cached := ((state.holders donor).getD Holder.nothing).leading kpool pools
    { state with
      holders := Function.update state.holders id (some
        { cached with block := some block, locs := cached.locs ++ fresh }) }
  | .extend id fresh =>
    { state with
      holders := Function.update state.holders id ((state.holders id).map fun holder =>
        { holder with locs := holder.locs ++ fresh }) }
  | .release id pools =>
    { state with
      holders := Function.update state.holders id ((state.holders id).map (Holder.leading kpool pools)) }
  | .write decode prefill _ final =>
    { memory := final
      holders := fun id => (state.holders id).map (Holder.wrote decode prefill id) }
  | .reject id count =>
    { state with
      holders := Function.update state.holders id ((state.holders id).map fun holder =>
        { holder with entries := holder.entries.take count }) }

variable [Inhabited V]

/-- Slots nobody holds, no two alike, as the block allocator hands out. -/
def State.Fresh (state : State V) (fresh : List ℕ) : Prop :=
  fresh.Nodup ∧ ∀ id holder, state.holders id = some holder → ∀ loc ∈ fresh, loc ∉ holder.locs

/-- A request that runs and whose slots cover its tokens and the new ones. -/
def State.Ready (kpool : ℕ) (state : State V) (request : ℕ × List V) (holder : Holder V) : Prop :=
  state.holders request.1 = some holder ∧ holder.block.isSome ∧
    (holder.entries.length + request.2.length) / kpool ≤ holder.locs.length

/-- What the scheduler, the prefix cache and the allocator promise, and what a batch leaves. -/
def Allowed (compress : List V → V) (kpool numSpec ring : ℕ) (state : State V) : Event V → Prop
  | .enter id block donor pools fresh =>
    (∀ holder, state.holders id = some holder → holder.block = none) ∧
    (∀ other holder, state.holders other = some holder → holder.block ≠ some block) ∧
    (pools = 0 ∨
      ∃ holder, state.holders donor = some holder ∧ pools ≤ holder.committed / kpool) ∧
    state.Fresh fresh
  | .extend _ fresh => state.Fresh fresh
  | .release id pools =>
    ∀ holder, state.holders id = some holder → pools ≤ holder.committed / kpool
  | .write decode prefill slotIn final =>
    ((decode ++ prefill).map Prod.fst).Nodup ∧
    (∀ request ∈ decode, ∃ holder, state.Ready kpool request holder ∧
      request.2 ≠ [] ∧ request.2.length ≤ numSpec + 1) ∧
    (∀ request ∈ prefill, ∃ holder, state.Ready kpool request holder ∧
      holder.entries.length % kpool = 0) ∧
    (state.batch decode prefill slotIn).Mapped ∧
    (state.batch decode prefill slotIn).Writes compress kpool ring state.memory final
  | .reject id count => ∀ holder, state.holders id = some holder → holder.committed ≤ count

/-- The cache over a memory that holds anything. -/
def cache (compress : List V → V) (kpool numSpec ring : ℕ) (blank : Cell → V) :
    System (State V) (Event V) :=
  ⟨⟨blank, fun _ => none⟩, step kpool, Allowed compress kpool numSpec ring⟩

end Model

section Invariant

/-- One request touches nothing of another one's. -/
structure Holder.Apart (kpool : ℕ) (one other : Holder V) : Prop where
  blocks : ∀ block, one.block = some block → other.block ≠ some block
  pools : ∀ j loc, one.committed / kpool ≤ j → one.locs[j]? = some loc → loc ∉ other.locs

/-- A request's pools are compressed, and its ring has the tokens of its open pool, whatever is
taken back. -/
structure Holder.Ok (compress : List V → V) (kpool numSpec ring : ℕ) (memory : Cell → V)
    (holder : Holder V) : Prop where
  counted : holder.committed ≤ holder.entries.length
  covered : holder.entries.length / kpool ≤ holder.locs.length
  own : Own holder.locs (holder.committed / kpool)
  pools : Compressed compress kpool memory holder.locs holder.entries
  tail : ∀ block, holder.block = some block → ∃ low high,
    low ≤ holder.committed / kpool * kpool ∧ high ≤ holder.committed + numSpec ∧
      CircularBuffer.Holds ring (fun phys => memory (.tail block phys)) holder.entries low high

/-- All requests are stored and touch nothing of each other's. -/
structure Inv (compress : List V → V) (kpool numSpec ring : ℕ) (state : State V) : Prop where
  ok : ∀ id holder, state.holders id = some holder →
    holder.Ok compress kpool numSpec ring state.memory
  apart : ∀ one other holder holder', one ≠ other → state.holders one = some holder →
    state.holders other = some holder' → holder.Apart kpool holder'

variable {compress : List V → V} {kpool numSpec ring : ℕ} {state : State V} {holder : Holder V}
  {id : ℕ}

/-- When one request changes by itself the invariant is kept, if what it then holds is sound and
apart from what the others hold. -/
theorem Inv.update (inv : Inv compress kpool numSpec ring state) (id : ℕ) {holder : Holder V}
    (ok : holder.Ok compress kpool numSpec ring state.memory)
    (apart : ∀ other holder', other ≠ id → state.holders other = some holder' →
      holder.Apart kpool holder' ∧ holder'.Apart kpool holder) :
    Inv compress kpool numSpec ring
      { state with holders := Function.update state.holders id (some holder) } := by
  constructor
  · intro other holder' held
    dsimp only at held
    rw [Function.update_apply] at held
    split at held
    · cases held
      exact ok
    · exact inv.ok other holder' held
  · intro one other first second different held held'
    dsimp only at held held'
    rw [Function.update_apply] at held held'
    split at held <;> split at held'
    next here there => exact absurd (here.trans there.symm) different
    next here there =>
      cases held
      exact (apart other second there held').1
    next here there =>
      cases held'
      exact (apart one first here held).2
    next => exact inv.apart one other first second different held held'

/-- The leading pools of a request stay compressed. -/
theorem Holder.Ok.leading {memory : Cell → V} (positive : 0 < kpool)
    (ok : holder.Ok compress kpool numSpec ring memory) {pools : ℕ}
    (stored : pools ≤ holder.committed / kpool) :
    (holder.leading kpool pools).Ok compress kpool numSpec ring memory := by
  have inside : pools * kpool ≤ holder.entries.length :=
    ((Nat.mul_le_mul_right kpool stored).trans (Nat.div_mul_le_self _ _)).trans ok.counted
  have length : (holder.entries.take (pools * kpool)).length = pools * kpool :=
    List.length_take_of_le inside
  have room : pools ≤ holder.locs.length :=
    (stored.trans (Nat.div_le_div_right ok.counted)).trans ok.covered
  have floor : pools * kpool / kpool = pools := Nat.mul_div_cancel _ positive
  refine ⟨length.ge, ?_, fun j k loc above listed => ?_, fun j loc complete listed => ?_,
    fun block held => ?_⟩
  · change (holder.entries.take (pools * kpool)).length / kpool ≤ (holder.locs.take pools).length
    rw [length, floor, List.length_take_of_le room]
  · change (holder.locs.take pools)[j]? = some loc at listed
    change pools * kpool / kpool ≤ j at above
    rw [List.getElem?_take, if_neg (by omega)] at listed
    cases listed
  · change j < (holder.entries.take (pools * kpool)).length / kpool at complete
    change (holder.locs.take pools)[j]? = some loc at listed
    rw [length, floor] at complete
    rw [List.getElem?_take, if_pos complete] at listed
    change memory (.pool loc) = compress (chunk kpool (holder.entries.take (pools * kpool)) j)
    rw [chunk_take _ (Nat.mul_le_mul_right kpool complete)]
    exact ok.pools j loc (by have := Nat.div_le_div_right (c := kpool) ok.counted; omega) listed
  · cases held

/-- A request gets slots that it did not hold. -/
theorem Holder.Ok.extend {memory : Cell → V} (ok : holder.Ok compress kpool numSpec ring memory)
    {fresh : List ℕ} (distinct : fresh.Nodup) (new : ∀ loc ∈ fresh, loc ∉ holder.locs) :
    ({ holder with locs := holder.locs ++ fresh } : Holder V).Ok compress kpool numSpec ring memory := by
  refine ⟨ok.counted, ?_, fun j k loc above listed listed' => ?_, fun j loc complete listed => ?_, ok.tail⟩
  · rw [List.length_append]
    exact ok.covered.trans (Nat.le_add_right _ _)
  · dsimp only at listed listed'
    rw [List.getElem?_append] at listed listed'
    split at listed <;> split at listed'
    next => exact ok.own j k loc above listed listed'
    next => exact absurd (List.mem_of_getElem? listed) (new loc (List.mem_of_getElem? listed'))
    next => exact absurd (List.mem_of_getElem? listed') (new loc (List.mem_of_getElem? listed))
    next =>
      have same := (List.getElem?_inj (List.getElem?_eq_some_iff.mp listed).1 distinct).mp
        (listed.trans listed'.symm)
      omega
  · dsimp only at complete listed ⊢
    rw [List.getElem?_append_left (Nat.lt_of_lt_of_le complete ok.covered)] at listed
    exact ok.pools j loc complete listed

/-- A request whose tokens are whole pools starts with any tail block. -/
theorem Holder.Ok.start {memory : Cell → V} (ok : holder.Ok compress kpool numSpec ring memory)
    (whole : holder.entries.length = holder.committed) (aligned : holder.committed % kpool = 0)
    (block : ℕ) :
    ({ holder with block := some block } : Holder V).Ok compress kpool numSpec ring memory := by
  refine ⟨ok.counted, ok.covered, ok.own, ok.pools, fun _ _ => ⟨holder.committed, 0, ?_, Nat.zero_le _, ?_⟩⟩
  · exact (Nat.div_mul_cancel (Nat.dvd_of_mod_eq_zero aligned)).ge
  · exact CircularBuffer.holds_empty whole.le

/-- Taking drafts back keeps a request sound: the pools of the tokens that are left stay compressed,
and the ring still holds the open pool. -/
theorem Holder.Ok.reject {memory : Cell → V} (ok : holder.Ok compress kpool numSpec ring memory) {count : ℕ}
    (kept : holder.committed ≤ count) :
    ({ holder with entries := holder.entries.take count } : Holder V).Ok compress kpool numSpec ring
      memory := by
  have shorter : (holder.entries.take count).length ≤ holder.entries.length := List.length_take_le' _ _
  refine ⟨?_, ?_, ok.own, fun j loc complete listed => ?_, fun block held => ?_⟩
  · rw [List.length_take]
    exact Nat.le_min.mpr ⟨kept, ok.counted⟩
  · exact (Nat.div_le_div_right shorter).trans ok.covered
  · have inside : (j + 1) * kpool ≤ (holder.entries.take count).length :=
      (Nat.mul_le_mul_right kpool complete).trans (Nat.div_mul_le_self _ _)
    rw [List.length_take] at inside
    dsimp only
    rw [chunk_take _ (inside.trans (Nat.min_le_left _ _))]
    exact ok.pools j loc (complete.trans_le (Nat.div_le_div_right shorter)) listed
  · obtain ⟨low, high, lower, upper, holds⟩ := ok.tail block held
    exact ⟨low, high, lower, upper, holds.truncate count⟩

/-- A request that nothing is held for. -/
theorem Holder.Ok.nothing (memory : Cell → V) :
    (Holder.nothing : Holder V).Ok compress kpool numSpec ring memory := by
  refine ⟨Nat.le_refl _, (Nat.div_le_self _ _), fun j k loc _ listed => ?_, fun j loc complete => ?_,
    fun block held => ?_⟩
  · cases listed
  · rw [Holder.nothing, List.length_nil, Nat.zero_div] at complete
    cases complete
  · cases held

section Apart

variable {one other : Holder V}

/-- What holds nothing of its own is apart from everything. -/
theorem Holder.Apart.of_leading (kpool pools : ℕ) (positive : 0 < kpool) (one other : Holder V) :
    (one.leading kpool pools).Apart kpool other := by
  refine ⟨fun block held => ?_, fun j loc above listed => ?_⟩
  · cases held
  · change pools * kpool / kpool ≤ j at above
    change (one.locs.take pools)[j]? = some loc at listed
    rw [Nat.mul_div_cancel _ positive] at above
    rw [List.getElem?_take, if_neg (by omega)] at listed
    cases listed

/-- A request is apart from a part of what it is apart from. -/
theorem Holder.Apart.leading (apart : one.Apart kpool other) (pools : ℕ) :
    one.Apart kpool (other.leading kpool pools) :=
  ⟨fun _ _ => Option.some_ne_none _ |>.symm,
    fun j loc above listed taken => apart.pools j loc above listed (List.mem_of_mem_take taken)⟩

/-- A request is apart from the pools another one shares of it. -/
theorem Holder.Apart.of_own (own : Own one.locs (one.committed / kpool)) {pools : ℕ}
    (stored : pools ≤ one.committed / kpool) : one.Apart kpool (one.leading kpool pools) := by
  refine ⟨fun _ _ => Option.some_ne_none _ |>.symm, fun j loc above listed taken => ?_⟩
  obtain ⟨k, found⟩ := List.mem_iff_getElem?.mp taken
  rw [Holder.leading, List.getElem?_take] at found
  split at found
  next inside =>
    have same := own j k loc above listed found
    omega
  next => cases found

/-- Slots that the other does not hold keep a request apart from it. -/
theorem Holder.Apart.extend (apart : one.Apart kpool other) {fresh : List ℕ}
    (new : ∀ loc ∈ fresh, loc ∉ other.locs) :
    ({ one with locs := one.locs ++ fresh } : Holder V).Apart kpool other := by
  refine ⟨apart.blocks, fun j loc above listed => ?_⟩
  dsimp only at listed
  rw [List.getElem?_append] at listed
  split at listed
  next => exact apart.pools j loc above listed
  next => exact new loc (List.mem_of_getElem? listed)

/-- A request stays apart from one that gets slots it does not hold. -/
theorem Holder.Apart.extended (apart : one.Apart kpool other) {fresh : List ℕ}
    (new : ∀ loc ∈ fresh, loc ∉ one.locs) :
    one.Apart kpool { other with locs := other.locs ++ fresh } := by
  refine ⟨apart.blocks, fun j loc above listed held => ?_⟩
  rcases List.mem_append.mp held with before | added
  · exact apart.pools j loc above listed before
  · exact new loc added (List.mem_of_getElem? listed)

/-- A request starts with a block that the other does not hold. -/
theorem Holder.Apart.start (apart : one.Apart kpool other) {block : ℕ}
    (free : other.block ≠ some block) :
    ({ one with block := some block } : Holder V).Apart kpool other :=
  ⟨fun _ same => by rw [← Option.some.inj same]; exact free, apart.pools⟩

/-- A request stays apart from one that starts with a block it does not hold. -/
theorem Holder.Apart.started (apart : one.Apart kpool other) {block : ℕ}
    (free : one.block ≠ some block) : one.Apart kpool { other with block := some block } :=
  ⟨fun _ same other => free (same.trans other.symm), apart.pools⟩

end Apart

variable [Inhabited V]

/-- Admitting a request keeps the invariant. The pools it takes over from a donor are complete and
shared, and its tail block and new slots are nobody's. -/
theorem Inv.enter (positive : 0 < kpool) (inv : Inv compress kpool numSpec ring state)
    {id block donor pools : ℕ} {fresh : List ℕ}
    (sent : Allowed compress kpool numSpec ring state (.enter id block donor pools fresh)) :
    Inv compress kpool numSpec ring (step kpool state (.enter id block donor pools fresh)) := by
  obtain ⟨_, unused, hit, distinct, new⟩ := sent
  obtain ⟨source, given⟩ : ∃ source, (state.holders donor).getD Holder.nothing = source := ⟨_, rfl⟩
  -- the donor is a request, or nothing is taken of nothing
  have origin : state.holders donor = some source ∨ source = Holder.nothing ∧ pools = 0 := by
    cases found : state.holders donor with
    | none =>
      rw [found] at given hit
      exact Or.inr ⟨given.symm, hit.resolve_right fun held => by obtain ⟨_, held, _⟩ := held; cases held⟩
    | some holder =>
      rw [found] at given
      exact Or.inl (congrArg some given)
  have ok : source.Ok compress kpool numSpec ring state.memory := by
    rcases origin with held | ⟨rfl, _⟩
    · exact inv.ok donor source held
    · exact Holder.Ok.nothing _
  have stored : pools ≤ source.committed / kpool := by
    rcases hit with rfl | ⟨holder, found, stored⟩
    · exact Nat.zero_le _
    · rw [found] at given
      exact given ▸ stored
  have apart : ∀ other holder, state.holders other = some holder →
      holder.Apart kpool (source.leading kpool pools) := by
    intro other holder held
    rcases origin with held' | ⟨rfl, rfl⟩
    · by_cases same : other = donor
      · rw [same, held'] at held
        cases held
        exact Holder.Apart.of_own ok.own stored
      · exact (inv.apart other donor holder source same held held').leading pools
    · exact ⟨fun _ _ => Option.some_ne_none _ |>.symm, fun j loc _ _ taken => by cases taken⟩
  have new' : ∀ loc ∈ fresh, loc ∉ (source.leading kpool pools).locs := by
    intro loc added taken
    rcases origin with held | ⟨rfl, rfl⟩
    · exact new donor source held loc added (List.mem_of_mem_take taken)
    · cases taken
  have whole := ok.leading positive stored
  rw [step, given]
  have length : (source.leading kpool pools).entries.length = (source.leading kpool pools).committed := by
    refine List.length_take_of_le (Nat.le_trans ?_ ok.counted)
    exact (Nat.mul_le_mul_right kpool stored).trans (Nat.div_mul_le_self _ _)
  refine inv.update id ((whole.extend distinct new').start length (Nat.mul_mod_left _ _) block)
    fun other holder _ held => ⟨?_, ?_⟩
  · exact ((Holder.Apart.of_leading kpool pools positive source holder).extend
      (new other holder held)).start (unused other holder held)
  · exact ((apart other holder held).extended (new other holder held)).started
      (unused other holder held)

/-- Further slots keep the invariant, since nobody holds them. -/
theorem Inv.extend (inv : Inv compress kpool numSpec ring state) {id : ℕ} {fresh : List ℕ}
    (sent : Allowed compress kpool numSpec ring state (.extend id fresh)) :
    Inv compress kpool numSpec ring (step kpool state (.extend id fresh)) := by
  obtain ⟨distinct, new⟩ := sent
  rw [step]
  cases held : state.holders id with
  | none =>
    rw [Option.map_none, ← held, Function.update_eq_self]
    exact inv
  | some holder =>
    refine inv.update id ((inv.ok id holder held).extend distinct (new id holder held))
      fun other holder' different held' => ⟨?_, ?_⟩
    · exact (inv.apart id other holder holder' (Ne.symm different) held held').extend
        (new other holder' held')
    · exact (inv.apart other id holder' holder different held' held).extended (new other holder' held')

/-- A request stops, and some of its pools stay cached. -/
theorem Inv.release (positive : 0 < kpool) (inv : Inv compress kpool numSpec ring state)
    {id pools : ℕ} (sent : Allowed compress kpool numSpec ring state (.release id pools)) :
    Inv compress kpool numSpec ring (step kpool state (.release id pools)) := by
  rw [step]
  cases held : state.holders id with
  | none =>
    rw [Option.map_none, ← held, Function.update_eq_self]
    exact inv
  | some holder =>
    refine inv.update id ((inv.ok id holder held).leading positive (sent holder held))
      fun other holder' different held' => ⟨?_, ?_⟩
    · exact Holder.Apart.of_leading kpool pools positive holder holder'
    · exact (inv.apart other id holder' holder different held' held).leading pools

/-- Drafts of a request are taken back. -/
theorem Inv.reject (inv : Inv compress kpool numSpec ring state) {id count : ℕ}
    (sent : Allowed compress kpool numSpec ring state (.reject id count)) :
    Inv compress kpool numSpec ring (step kpool state (.reject id count)) := by
  rw [step]
  cases held : state.holders id with
  | none =>
    rw [Option.map_none, ← held, Function.update_eq_self]
    exact inv
  | some holder =>
    refine inv.update id ((inv.ok id holder held).reject (sent holder held))
      fun other holder' different held' => ⟨?_, ?_⟩
    · obtain ⟨blocks, pools⟩ := inv.apart id other holder holder' (Ne.symm different) held held'
      exact ⟨blocks, pools⟩
    · obtain ⟨blocks, pools⟩ := inv.apart other id holder' holder different held' held
      exact ⟨blocks, pools⟩

section Write

variable {decode prefill : List (ℕ × List V)} {slotIn : List ℤ} {final : Cell → V}

omit [Inhabited V] in
/-- The row of a running request is what the request holds, with the tokens of the step behind it.
-/
theorem State.Ready.row {request : ℕ × List V} (ready : state.Ready kpool request holder) :
    ∃ block, holder.block = some block ∧
      state.row request = ⟨block, holder.locs, holder.entries, request.2⟩ := by
  obtain ⟨held, running, _⟩ := ready
  obtain ⟨block, some⟩ := Option.isSome_iff_exists.mp running
  refine ⟨block, some, ?_⟩
  rw [State.row, held]
  dsimp only
  rw [some, Option.getD_some]

/-- Every row of an allowed batch is a running request's. -/
theorem Allowed.ready (sent : Allowed compress kpool numSpec ring state (.write decode prefill slotIn final))
    {request : ℕ × List V} (listed : request ∈ decode ++ prefill) :
    ∃ holder, state.Ready kpool request holder := by
  rcases List.mem_append.mp listed with early | late
  · obtain ⟨holder, ready, _⟩ := sent.2.1 request early
    exact ⟨holder, ready⟩
  · obtain ⟨holder, ready, _⟩ := sent.2.2.1 request late
    exact ⟨holder, ready⟩

omit [Inhabited V] in
/-- The rows of a batch are those of its requests. -/
theorem State.rows_batch : (state.batch decode prefill slotIn).rows = (decode ++ prefill).map state.row :=
  List.map_append.symm

omit [Inhabited V] in
/-- What a row writes, its request may. -/
theorem State.Ready.owns (inv : Inv compress kpool numSpec ring state) {request : ℕ × List V}
    (ready : state.Ready kpool request holder) {loc : ℕ}
    (owned : (state.row request).Owns kpool (.pool loc)) :
    ∃ j, holder.committed / kpool ≤ j ∧ holder.locs[j]? = some loc := by
  obtain ⟨block, _, row⟩ := ready.row
  rw [row] at owned
  obtain ⟨j, above, listed⟩ := owned
  exact ⟨j, (Nat.div_le_div_right (inv.ok _ _ ready.1).counted).trans above, listed⟩

omit [Inhabited V] in
/-- A row touches nothing of another request's. -/
theorem State.Ready.outside (inv : Inv compress kpool numSpec ring state) {request : ℕ × List V}
    {other : Holder V} (ready : state.Ready kpool request holder) (different : request.1 ≠ id)
    (held : state.holders id = some other) :
    (∀ block phys, other.block = some block → ¬ (state.row request).Owns kpool (.tail block phys)) ∧
      ∀ loc ∈ other.locs, ¬ (state.row request).Owns kpool (.pool loc) := by
  have apart := inv.apart request.1 id holder other different ready.1 held
  constructor
  · intro block phys running owned
    obtain ⟨block', running', row⟩ := ready.row
    rw [row] at owned
    obtain rfl : block = block' := owned
    exact apart.blocks block running' running
  · intro loc listed owned
    obtain ⟨j, above, stored⟩ := ready.owns inv owned
    exact apart.pools j loc above stored listed

/-- The rows of an allowed batch touch nothing of each other's. -/
theorem Inv.separate (inv : Inv compress kpool numSpec ring state)
    (sent : Allowed compress kpool numSpec ring state (.write decode prefill slotIn final)) :
    Separate kpool (state.batch decode prefill slotIn).rows := by
  rw [State.rows_batch]
  constructor
  · rw [List.pairwise_map]
    refine (List.pairwise_map.mp sent.1).imp_of_mem fun {one other} listed listed' different => ?_
    obtain ⟨holder, ready⟩ := sent.ready listed
    obtain ⟨holder', ready'⟩ := sent.ready listed'
    obtain ⟨block, running, row⟩ := ready.row
    obtain ⟨block', running', row'⟩ := ready'.row
    obtain ⟨_, pools⟩ := ready.outside inv different ready'.1
    obtain ⟨_, pools'⟩ := ready'.outside inv (Ne.symm different) ready.1
    refine ⟨?_, fun loc owned => ?_, fun loc owned => ?_⟩
    · rw [row, row']
      intro same
      obtain rfl : block = block' := same
      exact (inv.apart one.1 other.1 holder holder' different ready.1 ready'.1).blocks block running running'
    · rw [row']
      exact fun covered => pools loc covered owned
    · rw [row]
      exact fun covered => pools' loc covered owned
  · intro row member
    obtain ⟨request, listed, rfl⟩ := List.mem_map.mp member
    obtain ⟨holder, ready⟩ := sent.ready listed
    have ok := inv.ok _ _ ready.1
    obtain ⟨block, _, row⟩ := ready.row
    rw [row]
    exact ok.own.mono (Nat.div_le_div_right ok.counted)

/-- A decode row after its batch: its new tokens are stored, and the first of them is not taken back
any more. -/
theorem Inv.wrote_decode (positive : 0 < kpool) (fits : kpool ≤ ring)
    (room : kpool + numSpec ≤ ring + 1)
    (inv : Inv compress kpool numSpec ring state)
    (sent : Allowed compress kpool numSpec ring state (.write decode prefill slotIn final))
    {tokens : List V} (listed : (id, tokens) ∈ decode) (held : state.holders id = some holder) :
    ({ holder with
      entries := holder.entries ++ tokens, committed := holder.entries.length + 1 } : Holder V).Ok
        compress kpool numSpec ring final := by
  have separate := inv.separate sent
  obtain ⟨_, decodes, _, mapped, writes⟩ := sent
  obtain ⟨holder', ready, nonempty, few⟩ := decodes _ listed
  obtain rfl : holder = holder' := Option.some.inj (held.symm.trans ready.1)
  have ok := inv.ok id holder held
  obtain ⟨block, running, row⟩ := ready.row
  obtain ⟨low, high, lower, upper, holds⟩ := ok.tail block running
  have some := List.length_pos_iff.mpr nonempty
  have grown : holder.committed / kpool * kpool ≤ holder.entries.length / kpool * kpool :=
    Nat.mul_le_mul_right kpool (Nat.div_le_div_right ok.counted)
  have before : Stored compress kpool ring state.memory block holder.locs holder.entries low high :=
    ⟨ok.pools, holds⟩
  have left := @Batch.writes_decode _ _ _ _ _ _ _ _ _ low high positive fits room mapped separate writes
    (state.row (id, tokens)) (List.mem_map_of_mem listed)
  rw [row] at left
  have after := left before (lower.trans grown) (upper.trans (Nat.add_le_add_right ok.counted _))
  refine ⟨?_, ?_, ok.own.mono ?_, after.pools, fun block' running' => ?_⟩
  · rw [List.length_append]
    exact Nat.add_le_add_left some _
  · rw [List.length_append]
    exact ready.2.2
  · exact Nat.div_le_div_right (by have := ok.counted; dsimp only; omega)
  · obtain rfl : block = block' := Option.some.inj (running.symm.trans running')
    have more : holder.entries.length / kpool * kpool ≤ (holder.entries.length + 1) / kpool * kpool :=
      Nat.mul_le_mul_right kpool (Nat.div_le_div_right (Nat.le_succ _))
    refine ⟨low, _, (lower.trans grown).trans more, ?_, after.tail⟩
    have := ok.counted
    dsimp only at few ⊢
    omega

/-- The tokens a prefill row seeds reach back to the start of its open pool. -/
theorem seeded_low {past : ℕ} (positive : 0 < kpool) (aligned : past % kpool = 0) (count : ℕ) :
    past + count - min count kpool ≤ (past + count) / kpool * kpool := by
  have split := Nat.div_add_mod' (past + count) kpool
  have inside := Nat.mod_lt (past + count) positive
  rcases Nat.lt_or_ge count kpool with short | long
  · have start := Nat.div_mul_cancel (Nat.dvd_of_mod_eq_zero aligned)
    have grown : past / kpool * kpool ≤ (past + count) / kpool * kpool :=
      Nat.mul_le_mul_right kpool (Nat.div_le_div_right (Nat.le_add_right _ _))
    omega
  · omega

/-- A prefill row after its batch: its new tokens are stored and none is taken back, because it
starts at a pool. -/
theorem Inv.wrote_prefill (positive : 0 < kpool) (fits : kpool ≤ ring)
    (inv : Inv compress kpool numSpec ring state)
    (sent : Allowed compress kpool numSpec ring state (.write decode prefill slotIn final))
    {tokens : List V} (listed : (id, tokens) ∈ prefill) (held : state.holders id = some holder) :
    ({ holder with
      entries := holder.entries ++ tokens,
      committed := holder.entries.length + tokens.length } : Holder V).Ok
        compress kpool numSpec ring final := by
  have separate := inv.separate sent
  obtain ⟨_, _, prefills, mapped, writes⟩ := sent
  obtain ⟨holder', ready, aligned⟩ := prefills _ listed
  obtain rfl : holder = holder' := Option.some.inj (held.symm.trans ready.1)
  have ok := inv.ok id holder held
  obtain ⟨block, running, row⟩ := ready.row
  have left := @Batch.writes_prefill _ _ _ _ _ _ _ _ positive fits mapped separate writes
    (state.row (id, tokens)) (List.mem_map_of_mem listed)
  rw [row] at left
  have after := left aligned ok.pools
  refine ⟨?_, ?_, ok.own.mono ?_, after.pools, fun block' running' => ?_⟩
  · rw [List.length_append]
  · rw [List.length_append]
    exact ready.2.2
  · exact Nat.div_le_div_right (ok.counted.trans (Nat.le_add_right _ _))
  · obtain rfl : block = block' := Option.some.inj (running.symm.trans running')
    refine ⟨_, _, ?_, Nat.le_add_right _ _, after.tail⟩
    exact seeded_low positive aligned tokens.length

/-- A request that is not in the batch. -/
theorem Inv.wrote_none (positive : 0 < kpool) (fits : kpool ≤ ring)
    (inv : Inv compress kpool numSpec ring state)
    (sent : Allowed compress kpool numSpec ring state (.write decode prefill slotIn final))
    (absent : ∀ request ∈ decode ++ prefill, request.1 ≠ id) (held : state.holders id = some holder) :
    holder.Ok compress kpool numSpec ring final := by
  have ok := inv.ok id holder held
  have untouched : ∀ cell, (∀ request ∈ decode ++ prefill, ¬ (state.row request).Owns kpool cell) →
      final cell = state.memory cell := by
    intro cell outside
    refine Batch.writes_frame (by omega) sent.2.2.2.1 (inv.separate sent) sent.2.2.2.2 cell
      fun row member => ?_
    rw [State.rows_batch] at member
    obtain ⟨request, listed, rfl⟩ := List.mem_map.mp member
    exact outside request listed
  have apart : ∀ request ∈ decode ++ prefill,
      (∀ block phys, holder.block = some block → ¬ (state.row request).Owns kpool (.tail block phys)) ∧
        ∀ loc ∈ holder.locs, ¬ (state.row request).Owns kpool (.pool loc) := by
    intro request listed
    obtain ⟨_, ready⟩ := sent.ready listed
    exact ready.outside inv (absent request listed) held
  refine ⟨ok.counted, ok.covered, ok.own, ok.pools.congr fun loc listed => ?_, fun block running => ?_⟩
  · exact untouched _ fun request member => (apart request member).2 loc listed
  · obtain ⟨low, high, lower, upper, holds⟩ := ok.tail block running
    refine ⟨low, high, lower, upper, ?_⟩
    rw [show (fun phys => final (.tail block phys)) = fun phys => state.memory (.tail block phys) from
      funext fun phys => untouched _ fun request member => (apart request member).1 block phys running]
    exact holds

omit [Inhabited V] in
/-- A row that is found under an id is a row of the batch. -/
theorem mem_of_lookup {requests : List (ℕ × List V)} {tokens : List V}
    (found : requests.lookup id = some tokens) : (id, tokens) ∈ requests := by
  obtain ⟨before, after, rfl, _⟩ := List.lookup_eq_some_iff.mp found
  exact List.mem_append_right _ List.mem_cons_self

omit [Inhabited V] in
/-- A batch changes neither blocks nor slots, and takes nothing back. -/
theorem wrote_kept (counted : holder.committed ≤ holder.entries.length)
    (decode prefill : List (ℕ × List V)) (id : ℕ) :
    (holder.wrote decode prefill id).block = holder.block ∧
      (holder.wrote decode prefill id).locs = holder.locs ∧
      holder.committed ≤ (holder.wrote decode prefill id).committed := by
  rw [Holder.wrote]
  split
  · exact ⟨rfl, rfl, counted.trans (Nat.le_succ _)⟩
  · split
    · exact ⟨rfl, rfl, counted.trans (Nat.le_add_right _ _)⟩
    · exact ⟨rfl, rfl, Nat.le_refl _⟩

/-- A batch keeps the invariant: its rows store their tokens, and no launch touches what another
request holds. -/
theorem Inv.write (positive : 0 < kpool) (fits : kpool ≤ ring)
    (room : kpool + numSpec ≤ ring + 1)
    (inv : Inv compress kpool numSpec ring state)
    (sent : Allowed compress kpool numSpec ring state (.write decode prefill slotIn final)) :
    Inv compress kpool numSpec ring (step kpool state (.write decode prefill slotIn final)) := by
  have before : ∀ id after, (step kpool state (.write decode prefill slotIn final)).holders id = some after →
      ∃ holder, state.holders id = some holder ∧ holder.wrote decode prefill id = after :=
    fun id after held => Option.map_eq_some_iff.mp held
  constructor
  · intro id after wrote
    obtain ⟨holder, held, rfl⟩ := before id after wrote
    rw [Holder.wrote]
    cases found : decode.lookup id with
    | some tokens => exact inv.wrote_decode positive fits room sent (mem_of_lookup found) held
    | none =>
      dsimp only
      cases found' : prefill.lookup id with
      | some tokens => exact inv.wrote_prefill positive fits sent (mem_of_lookup found') held
      | none =>
        refine inv.wrote_none positive fits sent (fun request listed same => ?_) held
        rcases List.mem_append.mp listed with early | late
        · have differs := List.lookup_eq_none_iff.mp found request early
          rw [same, bne_self_eq_false] at differs
          cases differs
        · have differs := List.lookup_eq_none_iff.mp found' request late
          rw [same, bne_self_eq_false] at differs
          cases differs
  · intro one other after after' different wrote wrote'
    obtain ⟨holder, held, rfl⟩ := before one after wrote
    obtain ⟨holder', held', rfl⟩ := before other after' wrote'
    have apart := inv.apart one other holder holder' different held held'
    obtain ⟨kept, same, floor⟩ := wrote_kept (inv.ok one holder held).counted decode prefill one
    obtain ⟨kept', same', _⟩ := wrote_kept (inv.ok other holder' held').counted decode prefill other
    refine ⟨fun block running => ?_, fun j loc above listed => ?_⟩
    · rw [kept] at running
      rw [kept']
      exact apart.blocks block running
    · rw [same] at listed
      rw [same']
      exact apart.pools j loc ((Nat.div_le_div_right floor).trans above) listed

end Write

/-- The invariant holds in every reachable state. -/
theorem inv_of_reachable {compress : List V → V} {kpool numSpec ring : ℕ} {blank : Cell → V}
    (positive : 0 < kpool) (fits : kpool ≤ ring)
    (room : kpool + numSpec ≤ ring + 1) {state : State V}
    (reachable : Reachable (cache compress kpool numSpec ring blank) state) :
    Inv compress kpool numSpec ring state := by
  have start : Inv compress kpool numSpec ring ⟨blank, fun _ => none⟩ :=
    ⟨fun _ _ held => (by cases held), fun _ _ _ _ _ held => (by cases held)⟩
  refine reachable.invariant start fun state event inv sent => ?_
  cases event with
  | enter id block donor pools fresh => exact inv.enter positive sent
  | extend id fresh => exact inv.extend sent
  | release id pools => exact inv.release positive sent
  | write decode prefill slotIn final => exact inv.write positive fits room sent
  | reject id count => exact inv.reject sent

/-- Every pool that some leading part of a request's tokens completes is in its slot, compressed
from these tokens. -/
def State.Sound (compress : List V → V) (kpool : ℕ) (state : State V) : Prop :=
  ∀ id holder, state.holders id = some holder →
    ∀ count j, count ≤ holder.entries.length → j < count / kpool →
      ∃ loc, holder.locs[j]? = some loc ∧
        state.memory (.pool loc) = compress (chunk kpool (holder.entries.take count) j)

omit [Inhabited V] in
/-- The invariant implies what is wanted of the cache: every complete pool of every request is
compressed in its slot. -/
theorem Inv.sound (inv : Inv compress kpool numSpec ring state) : state.Sound compress kpool := by
  intro id holder held count j stored complete
  have ok := inv.ok id holder held
  have inside : j < holder.entries.length / kpool := complete.trans_le (Nat.div_le_div_right stored)
  refine ⟨_, List.getElem?_eq_getElem (inside.trans_le ok.covered), ?_⟩
  rw [chunk_take _ ((Nat.mul_le_mul_right kpool complete).trans (Nat.div_mul_le_self _ _))]
  exact ok.pools j _ inside (List.getElem?_eq_getElem _)

end Invariant

end GlmSpark.KpoolTail
