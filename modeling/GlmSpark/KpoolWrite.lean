import GlmSpark.CircularBuffer
import GlmSpark.KpoolBatch

/-!
# What the decode launch leaves in memory

A decode row's program touches its own ring and the pools its block table has from the
first incomplete one on. It leaves every pool that its tokens complete compressed from
the ring, and its tokens in the ring. Drafts that are taken back later leave a mark that
matters only a whole turn of the ring ahead.
-/

namespace GlmSpark.KpoolTail

open Launch Program Ragged

variable {V : Type} {compress : List V → V} {kpool ring : ℕ} {memory : Cell → V}

section Turn

/-- A token ends its pool exactly when its position is the last one of the pool. The kernels test
the one, the slots are made by the other. -/
theorem ends_pool (positive : 0 < kpool) (position : ℕ) :
    (position + 1) % kpool = 0 ↔ position % kpool = kpool - 1 := by
  have below := Nat.mod_lt position positive
  have within : (position + 1) % kpool = (position % kpool + 1) % kpool :=
    (Nat.mod_add_mod position kpool 1).symm
  rw [within]
  rcases Nat.lt_or_ge (position % kpool + 1) kpool with inner | last
  · rw [Nat.mod_eq_of_lt inner]
    omega
  · rw [show position % kpool + 1 = kpool by omega, Nat.mod_self]
    omega

/-- Only the last token of a pool that the block table covers has a slot. -/
theorem poolSlot_cases (kpool : ℕ) (locs : List ℕ) (position : ℕ) :
    (∃ loc, (position + 1) % kpool = 0 ∧ locs[position / kpool]? = some loc ∧
      poolSlot kpool locs position = loc) ∨
    poolSlot kpool locs position = -1 ∧
      ¬ ((position + 1) % kpool = 0 ∧ ∃ loc, locs[position / kpool]? = some loc) := by
  rw [poolSlot]
  split
  next ends =>
    cases covered : locs[position / kpool]? with
    | none => exact Or.inr ⟨rfl, fun found => by obtain ⟨_, _, some⟩ := found; cases some⟩
    | some loc => exact Or.inl ⟨loc, ends, rfl, rfl⟩
  next inner => exact Or.inr ⟨rfl, fun found => inner found.1⟩

/-- What a completing token compresses: the ring's tokens of its pool and itself. -/
def Row.window (kpool ring : ℕ) (row : Row V) (entry : V) (position : ℕ) (memory : Cell → V) :
    List V :=
  (List.range kpool).map fun i =>
    if i = position % kpool then entry
    else memory (.tail row.block ((position - position % kpool + i) % ring))

/-- The memory after the turn of one token. -/
def Row.turned (compress : List V → V) (kpool ring : ℕ) (row : Row V) (entry : V) (position : ℕ)
    (memory : Cell → V) : Cell → V :=
  let slot := poolSlot kpool row.locs position
  let completed := if 0 ≤ slot then
    Function.update memory (.pool slot.toNat) (compress (row.window kpool ring entry position memory))
    else memory
  Function.update completed (.tail row.block (position % ring)) entry

/-- A turn stores the token at its position modulo the ring. -/
theorem Row.turned_tail (row : Row V) (entry : V) (position : ℕ) (memory : Cell → V) :
    (fun phys => row.turned compress kpool ring entry position memory (.tail row.block phys)) =
      Function.update (fun phys => memory (.tail row.block phys)) (position % ring) entry := by
  funext phys
  rw [turned]
  by_cases here : phys = position % ring
  · rw [here, Function.update_self, Function.update_self]
  · rw [Function.update_of_ne here, Function.update_of_ne fun same => here (by cases same; rfl)]
    split
    · rw [Function.update_of_ne fun same => by cases same]
    · rfl

/-- A turn writes a pool's entry when it completes the pool. -/
theorem Row.turned_pool (row : Row V) (entry : V) (position : ℕ) (memory : Cell → V) (loc : ℕ) :
    row.turned compress kpool ring entry position memory (.pool loc) =
      if (position + 1) % kpool = 0 ∧ row.locs[position / kpool]? = some loc then
        compress (row.window kpool ring entry position memory)
      else memory (.pool loc) := by
  rw [turned, Function.update_of_ne fun same => by cases same]
  rcases poolSlot_cases kpool row.locs position with ⟨slot, ends, covered, given⟩ | ⟨missing, never⟩
  · rw [given, if_pos (Int.natCast_nonneg slot), Int.toNat_natCast, covered]
    by_cases same : loc = slot
    · rw [same, Function.update_self, if_pos ⟨ends, rfl⟩]
    · rw [Function.update_of_ne fun equal => same (Cell.pool.inj equal),
        if_neg fun both => same (Option.some.inj both.2).symm]
  · rw [missing, if_neg (of_decide_eq_true rfl),
      if_neg fun both => never ⟨both.1, loc, both.2⟩]

end Turn

section Alone

variable [Inhabited V]

/-- A single store updates its own cell. -/
@[simp] theorem run_put (target : Cell) (value : V) (memory : Cell → V) :
    (run (put target value) memory).2 = Function.update memory target value := by
  funext cell
  change (if cell = target then some value else none).getD (memory cell) = _
  rw [Function.update_apply]
  split <;> rfl

/-- The kernel divides a ring slot by the ring's length and finds the row's tail block. -/
theorem ringBlock_record (around : 0 < ring) (block position : ℕ) :
    (max ((block * ring + position % ring : ℕ) : ℤ) 0 / (ring : ℤ)).toNat = block := by
  rw [max_eq_left (Int.natCast_nonneg _), ← Int.natCast_ediv, Int.toNat_natCast, Nat.add_comm,
    Nat.add_mul_div_right _ _ around, Nat.div_eq_of_lt (Nat.mod_lt _ around), Nat.zero_add]

/-- Clamping the position of a real token at zero changes nothing. -/
theorem safePos_record (position : ℕ) : (max (position : ℤ) 0).toNat = position := by
  rw [max_eq_left (Int.natCast_nonneg _), Int.toNat_natCast]

/-- What the decode kernel does for one token. -/
theorem run_decodeTurn (positive : 0 < kpool) (around : 0 < ring) (row : Row V) (entry : V)
    (position : ℕ) (memory : Cell → V) :
    (run (decodeTurn compress kpool ring (row.record kpool ring entry position)) memory).2 =
      row.turned compress kpool ring entry position memory := by
  have stash : 0 ≤ (position : ℤ) ∧ 0 ≤ ((row.block * ring + position % ring : ℕ) : ℤ) :=
    ⟨Int.natCast_nonneg _, Int.natCast_nonneg _⟩
  rw [decodeTurn, Row.record, Row.turned]
  dsimp only
  rw [ringBlock_record around, safePos_record, if_pos stash]
  rcases poolSlot_cases kpool row.locs position with ⟨loc, ends, _, given⟩ | ⟨missing, _⟩
  · have here : 0 ≤ poolSlot kpool row.locs position := by
      rw [given]
      exact Int.natCast_nonneg loc
    rw [if_pos ⟨here, stash.1, (ends_pool positive position).mp ends⟩, if_pos here]
    change (run (put _ _ >>= fun _ => put _ _) memory).2 = _
    rw [run_bind, run_put, run_put]
    refine congrArg (fun words => Function.update (Function.update memory _ (compress words)) _ entry)
      (List.map_congr_left fun i listed => ?_)
    split
    · rfl
    · rw [visible, if_pos]
      rw [List.any_eq_true]
      exact ⟨i, listed, decide_eq_true rfl⟩
  · have absent : ¬ 0 ≤ poolSlot kpool row.locs position := by
      rw [missing]
      exact of_decide_eq_true rfl
    rw [if_neg fun both => absent both.1, if_neg absent, run_put]

end Alone

section Stored

/-- Every complete pool of a request is compressed in its slot. -/
def Compressed (compress : List V → V) (kpool : ℕ) (memory : Cell → V) (locs : List ℕ)
    (entries : List V) : Prop :=
  ∀ j loc, j < entries.length / kpool → locs[j]? = some loc →
    memory (.pool loc) = compress (chunk kpool entries j)

/-- The memory has every complete pool of a request compressed, and in its ring the tokens from
`low` on that no position below `high` has overwritten. -/
structure Stored (compress : List V → V) (kpool ring : ℕ) (memory : Cell → V) (block : ℕ)
    (locs : List ℕ) (entries : List V) (low high : ℕ) : Prop where
  pools : Compressed compress kpool memory locs entries
  tail : CircularBuffer.Holds ring (fun phys => memory (.tail block phys)) entries low high

variable {other : Cell → V} {block : ℕ} {locs : List ℕ} {entries : List V}

/-- Only the slots of the block table count. -/
theorem Compressed.congr (compressed : Compressed compress kpool memory locs entries)
    (pools : ∀ loc ∈ locs, other (.pool loc) = memory (.pool loc)) :
    Compressed compress kpool other locs entries := by
  intro j loc complete listed
  rw [pools loc (List.mem_of_getElem? listed)]
  exact compressed j loc complete listed

/-- Only the request's ring and the slots of its block table count. -/
theorem Stored.congr {low high : ℕ} (stored : Stored compress kpool ring memory block locs entries low high)
    (tail : ∀ phys, other (.tail block phys) = memory (.tail block phys))
    (pools : ∀ loc ∈ locs, other (.pool loc) = memory (.pool loc)) :
    Stored compress kpool ring other block locs entries low high := by
  refine ⟨stored.pools.congr pools, ?_⟩
  rw [funext tail]
  exact stored.tail

/-- From one pool on the slots of a block table are its own. -/
def Own (locs : List ℕ) (floor : ℕ) : Prop :=
  ∀ j k loc, floor ≤ j → locs[j]? = some loc → locs[k]? = some loc → j = k

variable {row : Row V} {seen : List V} {numSpec low high : ℕ}

/-- A completing token finds its pool in the ring. -/
theorem Stored.window (room : kpool + numSpec ≤ ring + 1) (entry : V)
    (stored : Stored compress kpool ring memory row.block row.locs seen low high)
    (lower : low ≤ seen.length / kpool * kpool) (upper : high ≤ seen.length + numSpec)
    (last : seen.length % kpool = kpool - 1) :
    row.window kpool ring entry seen.length memory =
      chunk kpool (seen ++ [entry]) (seen.length / kpool) := by
  have split := Nat.div_add_mod seen.length kpool
  have start : seen.length / kpool * kpool = seen.length - seen.length % kpool := by
    rw [Nat.mul_comm]
    omega
  rw [Row.window]
  refine (chunk_eq_map fun i inside => ?_).symm
  rw [start]
  by_cases current : i = seen.length % kpool
  · rw [if_pos current, current, Nat.sub_add_cancel (Nat.mod_le _ _), List.getElem?_concat_length]
  · have before : seen.length - seen.length % kpool + i < seen.length := by omega
    rw [if_neg current, List.getElem?_append_left before, List.getElem?_eq_getElem before]
    refine congrArg some (stored.tail _ _ (by omega) (by omega) ?_).symm
    rw [List.getElem?_eq_getElem before]

/-- One token of a decode row is stored: the pool it ends is compressed from the ring and itself,
then its own key takes its place in the ring. -/
theorem Stored.turn (positive : 0 < kpool) (room : kpool + numSpec ≤ ring + 1) (entry : V)
    (stored : Stored compress kpool ring memory row.block row.locs seen low high)
    (own : Own row.locs (seen.length / kpool))
    (lower : low ≤ seen.length / kpool * kpool) (upper : high ≤ seen.length + numSpec) :
    Stored compress kpool ring (row.turned compress kpool ring entry seen.length memory) row.block
      row.locs (seen ++ [entry]) low (max high (seen.length + 1)) := by
  constructor
  · intro j loc complete listed
    rw [List.length_append, List.length_singleton] at complete
    rw [Row.turned_pool]
    have older : j < seen.length / kpool →
        compress (chunk kpool (seen ++ [entry]) j) = memory (.pool loc) := by
      intro before
      rw [stored.pools j loc before listed, chunk_append]
      exact (Nat.mul_le_mul_right kpool before).trans (Nat.div_mul_le_self _ _)
    split
    next here =>
      obtain rfl := own _ j loc (Nat.le_refl _) here.2 listed
      rw [stored.window room entry lower upper ((ends_pool positive _).mp here.1)]
    next elsewhere =>
      refine (older ?_).symm
      rw [Nat.succ_div] at complete
      split at complete
      next ends =>
        by_contra after
        obtain rfl : j = seen.length / kpool := by omega
        exact elsewhere ⟨Nat.mod_eq_zero_of_dvd ends, listed⟩
      next => exact complete
  · rw [Row.turned_tail]
    exact stored.tail.push entry

/-- The slots of later pools are the table's own as well. -/
theorem Own.mono {locs : List ℕ} {floor later : ℕ} (own : Own locs floor) (after : floor ≤ later) :
    Own locs later :=
  fun j k loc above => own j k loc (after.trans above)

variable [Inhabited V]

/-- A run of tokens leaves every pool they complete and all of them in the ring. -/
theorem Stored.turns (positive : 0 < kpool) (fits : kpool ≤ ring)
    (room : kpool + numSpec ≤ ring + 1) (tokens : List V)
    (stored : Stored compress kpool ring memory row.block row.locs seen low high)
    (own : Own row.locs (seen.length / kpool)) (lower : low ≤ seen.length / kpool * kpool)
    (upper : high ≤ seen.length + numSpec) {done : ℕ} (counted : seen.length = row.past.length + done) :
    Stored compress kpool ring
      (run (decodeTurns compress kpool ring ((tokens.zipIdx done).map fun (entry, t) =>
        row.record kpool ring entry (row.past.length + t))) memory).2
      row.block row.locs (seen ++ tokens) low (max high (seen.length + tokens.length)) := by
  induction tokens generalizing memory seen high done with
  | nil =>
    rw [List.append_nil, List.length_nil, Nat.add_zero]
    exact ⟨stored.pools, stored.tail.weaken (Nat.le_refl _) (Nat.le_max_left _ _)⟩
  | cons entry rest ih =>
    have turn := stored.turn positive room entry own lower upper
    have step : (seen ++ [entry]).length = seen.length + 1 := by
      rw [List.length_append, List.length_singleton]
    have grown : seen.length / kpool ≤ (seen ++ [entry]).length / kpool := by
      rw [step]
      exact Nat.div_le_div_right (Nat.le_succ _)
    rw [List.zipIdx_cons, List.map_cons, decodeTurns, run_bind]
    dsimp only
    rw [← counted, run_decodeTurn positive (by omega)]
    have later := @ih _ _ _ turn (own.mono grown) (lower.trans (Nat.mul_le_mul_right _ grown))
      (by omega) (done + 1) (by omega)
    rw [step, List.append_assoc, List.singleton_append] at later
    rw [List.length_cons, Nat.add_comm rest.length, ← Nat.add_assoc]
    rw [Nat.max_assoc, Nat.max_eq_right (Nat.le_add_right _ _)] at later
    exact later

end Stored

section Bounds

/-- The cells a row's programs write: its ring, and its pools from the first incomplete one on. -/
def Row.Owns (kpool : ℕ) (row : Row V) : Cell → Prop
  | .tail block _ => block = row.block
  | .pool loc => ∃ j, row.past.length / kpool ≤ j ∧ row.locs[j]? = some loc

/-- The cells a decode row's program reads. -/
def Row.InRing (row : Row V) (cell : Cell) : Prop := ∃ phys, cell = .tail row.block phys

/-- A store to an allowed cell stays within the allowed cells, and reads nothing. -/
theorem within_put {reads writes : Cell → Prop} {target : Cell} (value : V)
    (allowed : writes target) : Within reads writes (put target value) := by
  refine ⟨fun cell stored => ?_, trivial⟩
  by_cases here : cell = target
  · rw [here]
    exact allowed
  · dsimp only at stored
    rw [if_neg here] at stored
    cases stored

/-- The turn of a row's token stays within the row. -/
theorem within_decodeTurn (around : 0 < ring) (row : Row V) (entry : V) {position : ℕ}
    (later : row.past.length ≤ position) :
    Within row.InRing (row.Owns kpool)
      (decodeTurn compress kpool ring (row.record kpool ring entry position)) := by
  have stash : Within row.InRing (row.Owns kpool) (if 0 ≤ (position : ℤ) ∧
      0 ≤ ((row.block * ring + position % ring : ℕ) : ℤ) then
        put (.tail row.block (position % ring)) entry else pure () : Kernel V Unit) := by
    split
    · exact within_put entry rfl
    · trivial
  rw [decodeTurn, Row.record]
  dsimp only
  rw [ringBlock_record around, safePos_record]
  split
  next complete =>
    refine Within.bind ⟨fun cell read => ?_, fun words => within_put _ ?_⟩ fun _ => stash
    · obtain ⟨i, _, here⟩ := List.any_eq_true.mp read
      exact ⟨_, of_decide_eq_true here⟩
    · rcases poolSlot_cases kpool row.locs position with ⟨loc, _, covered, given⟩ | ⟨missing, _⟩
      · rw [given, Int.toNat_natCast]
        exact ⟨_, Nat.div_le_div_right later, covered⟩
      · rw [missing] at complete
        exact absurd complete.1 (of_decide_eq_true rfl)
  next => exact stash

/-- Turns that stay within bounds do so together. -/
theorem within_decodeTurns {reads writes : Cell → Prop} {tokens : List (Token V)}
    (within : ∀ token ∈ tokens, Within reads writes (decodeTurn compress kpool ring token)) :
    Within reads writes (decodeTurns compress kpool ring tokens) := by
  induction tokens with
  | nil => trivial
  | cons token rest ih =>
    exact Within.bind (within token List.mem_cons_self) fun _ =>
      ih fun later listed => within later (List.mem_cons_of_mem _ listed)

variable [Inhabited V]

/-- A pad of the grid reads and writes nothing. -/
theorem decodeTurn_pad : decodeTurn compress kpool ring pad = (pure () : Kernel V Unit) := by
  rfl

/-- Pads behind a row's tokens do nothing. -/
theorem run_decodeTurns_pads (tokens : List (Token V)) (count : ℕ) (memory : Cell → V) :
    (run (decodeTurns compress kpool ring (tokens ++ List.replicate count pad)) memory).2 =
      (run (decodeTurns compress kpool ring tokens) memory).2 := by
  induction tokens generalizing memory with
  | nil =>
    rw [List.nil_append]
    induction count with
    | zero => rfl
    | succ count ih =>
      rw [List.replicate_succ]
      change (run (decodeTurn compress kpool ring pad >>= fun _ => _) memory).2 = _
      rw [run_bind, decodeTurn_pad, run_pure]
      exact ih
  | cons token rest ih => rw [List.cons_append, decodeTurns, decodeTurns, run_bind, run_bind, ih]

end Bounds

section Rows

/-- Two rows touch nothing of each other's. -/
structure Row.Apart (kpool : ℕ) (one other : Row V) : Prop where
  blocks : one.block ≠ other.block
  pools : ∀ loc, one.Owns kpool (.pool loc) → loc ∉ other.locs
  pools' : ∀ loc, other.Owns kpool (.pool loc) → loc ∉ one.locs

/-- That two rows touch nothing of each other's does not depend on their order. -/
theorem Row.Apart.symm {one other : Row V} (apart : Row.Apart kpool one other) :
    Row.Apart kpool other one :=
  ⟨apart.blocks.symm, apart.pools', apart.pools⟩

/-- A row reads and writes nothing that another one writes. -/
theorem Row.Apart.cell {one other : Row V} (apart : Row.Apart kpool one other) {cell : Cell}
    (touched : one.InRing cell ∨ one.Owns kpool cell) : ¬ other.Owns kpool cell := by
  intro owned
  cases cell with
  | tail block phys =>
    rcases touched with ⟨_, here⟩ | here
    · cases here
      exact apart.blocks owned
    · exact apart.blocks (here.symm.trans owned)
  | pool loc =>
    rcases touched with ⟨_, here⟩ | here
    · cases here
    · obtain ⟨j, _, listed⟩ := owned
      exact apart.pools loc here (List.mem_of_getElem? listed)

/-- The rows of a batch touch nothing of each other's, and no slot of theirs serves two pools. -/
structure Separate (kpool : ℕ) (rows : List (Row V)) : Prop where
  apart : rows.Pairwise (Row.Apart kpool)
  own : ∀ row ∈ rows, Own row.locs (row.past.length / kpool)

/-- Any two rows of a batch, at different places, touch nothing of each other's. -/
theorem Separate.at {rows : List (Row V)} (separate : Separate kpool rows) {one other : ℕ}
    (inside : one < rows.length) (inside' : other < rows.length) (different : one ≠ other) :
    Row.Apart kpool rows[one] rows[other] := by
  have pairs := List.pairwise_iff_getElem.mp separate.apart
  rcases Nat.lt_or_gt_of_ne different with before | after
  · exact pairs one other inside inside' before
  · exact (pairs other one inside' inside after).symm

/-- Rows of a batch are one or apart. -/
theorem Separate.of_mem {rows : List (Row V)} (separate : Separate kpool rows) {one other : Row V}
    (listed : one ∈ rows) (listed' : other ∈ rows) : one = other ∨ Row.Apart kpool one other := by
  obtain ⟨i, inside, rfl⟩ := List.getElem_of_mem listed
  obtain ⟨j, inside', rfl⟩ := List.getElem_of_mem listed'
  by_cases same : i = j
  · subst same
    exact Or.inl rfl
  · exact Or.inr (separate.at inside inside' same)

/-- No row writes a pool that was complete before. -/
theorem Separate.older {rows : List (Row V)} (separate : Separate kpool rows) {row : Row V}
    (listed : row ∈ rows) {j loc : ℕ} (complete : j < row.past.length / kpool)
    (covered : row.locs[j]? = some loc) {other : Row V} (listed' : other ∈ rows) :
    ¬ other.Owns kpool (.pool loc) := by
  intro owned
  rcases separate.of_mem listed listed' with rfl | apart
  · obtain ⟨k, above, stored⟩ := owned
    have same := separate.own row listed k j loc above stored covered
    omega
  · exact apart.pools' loc owned (List.mem_of_getElem? covered)

end Rows

section Decode

variable [Inhabited V] {batch : Batch V}

/-- The grid is as wide as the longest row. -/
theorem groupWidth_eq (numTokens : ℕ) (decodeLens : List ℕ) (some : 0 < decodeLens.length) :
    groupWidth numTokens decodeLens = decodeLens.max?.getD 0 := by
  rw [groupWidth]
  split
  next uniform => rw [uniform.2, Nat.mul_div_cancel_left _ some]
  next => rfl

/-- The program of a decode row runs its tokens and pads. -/
theorem Batch.update_eq (compress : List V → V) (kpool ring : ℕ) (mapped : batch.Mapped)
    (req : Fin batch.decode.length) :
    ∃ count, batch.update compress kpool ring req = decodeTurns compress kpool ring
      (batch.decode[req.val].records kpool ring ++ List.replicate count pad) := by
  have lens : batch.decodeLens = (batch.decode.map (Row.records kpool ring)).map List.length := by
    rw [decodeLens, List.map_map]
    exact List.map_congr_left fun row _ => (row.length_records kpool ring).symm
  have width := groupWidth_eq ((batch.decode.map (Row.records kpool ring)).flatten.length)
    batch.decodeLens (by rw [decodeLens, List.length_map]; exact Nat.zero_lt_of_lt req.isLt)
  have fits : (batch.decode[req.val].records kpool ring).length ≤ batch.decodeLens.max?.getD 0 := by
    have listed : (batch.decode[req.val].records kpool ring).length ∈ batch.decodeLens := by
      rw [lens]
      exact List.mem_map_of_mem (List.mem_map_of_mem (List.getElem_mem req.isLt))
    obtain ⟨most, most'⟩ := Option.isSome_iff_exists.mp
      (List.isSome_max?_of_ne_nil (List.ne_nil_of_mem listed))
    rw [most', Option.getD_some]
    exact (List.max?_eq_some_iff.mp most').2 _ listed
  refine ⟨batch.decodeLens.max?.getD 0 - (batch.decode[req.val].records kpool ring).length, ?_⟩
  rw [update, take_tokens kpool ring mapped, width]
  refine congrArg (decodeTurns compress kpool ring) (List.ext_getElem? fun t => ?_)
  rw [List.getElem?_map]
  by_cases inner : t < batch.decodeLens.max?.getD 0
  · have grouped := groupTokens_rows (batch.decode.map (Row.records kpool ring)) pad req.val
      (lens ▸ inner)
    rw [← lens, List.getElem?_map, List.getElem?_eq_getElem req.isLt, Option.map_some,
      Option.bind_some] at grouped
    rw [List.getElem?_range inner, Option.map_some, grouped, List.getElem?_append]
    split
    next own => rw [List.getElem?_eq_getElem own, Option.getD_some]
    next behind =>
      rw [List.getElem?_eq_none (Nat.le_of_not_lt behind), Option.getD_none,
        List.getElem?_replicate_of_lt (by omega)]
  · rw [List.getElem?_eq_none (by simpa using inner), Option.map_none, List.getElem?_eq_none]
    rw [List.length_append, List.length_replicate]
    omega

/-- The program of a decode row stays within the row. -/
theorem Batch.within_update (around : 0 < ring) (mapped : batch.Mapped)
    (req : Fin batch.decode.length) :
    Within batch.decode[req.val].InRing (batch.decode[req.val].Owns kpool)
      (batch.update compress kpool ring req) := by
  obtain ⟨count, turns⟩ := batch.update_eq compress kpool ring mapped req
  rw [turns]
  refine within_decodeTurns fun token listed => ?_
  rcases List.mem_append.mp listed with real | filled
  · obtain ⟨⟨entry, t⟩, _, rfl⟩ := List.mem_map.mp real
    exact within_decodeTurn around _ entry (Nat.le_add_right _ _)
  · rw [(List.mem_replicate.mp filled).2, decodeTurn_pad]
    trivial

/-- The decode launch touches the cells of its rows only. -/
theorem Batch.update_frame (around : 0 < ring) (mapped : batch.Mapped) {final : Cell → V}
    (launch : Launches (batch.update compress kpool ring) memory final) (cell : Cell)
    (outside : ∀ row ∈ batch.decode, ¬ row.Owns kpool cell) : final cell = memory cell := by
  exact launches_outside (batch.within_update around mapped) launch cell
    fun req => outside _ (List.getElem_mem req.isLt)

/-- However the requests are interleaved, what no other row writes ends as a row's turns alone leave
it. -/
theorem Batch.update_alone (around : 0 < ring) (mapped : batch.Mapped)
    (separate : Separate kpool batch.decode) {final : Cell → V}
    (launch : Launches (batch.update compress kpool ring) memory final) {req : ℕ}
    (inside : req < batch.decode.length) (cell : Cell)
    (others : ∀ (other : ℕ) (inside : other < batch.decode.length), other ≠ req →
      ¬ batch.decode[other].Owns kpool cell) :
    final cell =
      (run (decodeTurns compress kpool ring (batch.decode[req].records kpool ring)) memory).2 cell := by
  obtain ⟨count, turns⟩ := batch.update_eq compress kpool ring mapped ⟨req, inside⟩
  have alone : final cell = (run (batch.update compress kpool ring ⟨req, inside⟩) memory).2 cell := by
    refine launches_inside (batch.within_update around mapped) (fun one other different cell =>
      (separate.at one.isLt other.isLt fun same => different (Fin.ext same)).cell) launch _ cell ?_
    exact fun other different => others other other.isLt fun same => different (Fin.ext same)
  rw [alone, turns, run_decodeTurns_pads]

/-- However the requests are interleaved, the decode launch leaves every row's tokens stored. -/
theorem Batch.update_stored {numSpec low high : ℕ} (positive : 0 < kpool)
    (fits : kpool ≤ ring) (room : kpool + numSpec ≤ ring + 1) (mapped : batch.Mapped)
    (separate : Separate kpool batch.decode)
    {final : Cell → V} (launch : Launches (batch.update compress kpool ring) memory final)
    {row : Row V} (listed : row ∈ batch.decode)
    (stored : Stored compress kpool ring memory row.block row.locs row.past low high)
    (lower : low ≤ row.past.length / kpool * kpool) (upper : high ≤ row.past.length + numSpec) :
    Stored compress kpool ring final row.block row.locs (row.past ++ row.tokens) low
      (max high (row.past.length + row.tokens.length)) := by
  obtain ⟨req, inside, rfl⟩ := List.getElem_of_mem listed
  have apart := fun (other : ℕ) (inside' : other < batch.decode.length) (different : other ≠ req) =>
    separate.at inside' inside different
  have alone := Batch.update_alone (by omega) mapped separate launch inside
  have left := stored.turns positive fits room batch.decode[req].tokens (separate.own _ listed) lower
    upper (Nat.add_zero _).symm
  refine Stored.congr left (fun phys => alone _ ?_) fun loc covered => alone _ ?_
  · exact fun other inside' different owned => (apart other inside' different).blocks owned.symm
  · exact fun other inside' different owned => (apart other inside' different).pools loc owned covered

end Decode

end GlmSpark.KpoolTail
