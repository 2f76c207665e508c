import GlmSpark.KpoolWrite

/-!
# What the prefill launches leave in memory

A prefill row that starts at a pool leaves every pool that ends in the batch compressed
from the batch, and its last tokens in its ring. Tokens of other rows are never among a
pool's tokens, and the token a pool ahead tells whose last tokens are whose.
-/

namespace GlmSpark.KpoolTail

open Launch Program Ragged

variable {V : Type} {compress : List V → V} {kpool ring : ℕ} {memory : Cell → V}

section Prefill

variable {rows : List (Row V)} {member t : ℕ}

/-- What the flat records hold of a row's token. -/
theorem records_at (kpool ring : ℕ) (inside : member < rows.length)
    (owned : t < rows[member].tokens.length) :
    (rows.map (Row.records kpool ring)).flatten[offset (rows.map Row.tokens) member + t]? =
      some (rows[member].record kpool ring rows[member].tokens[t] (rows[member].past.length + t)) := by
  rw [flat_getElem? _ _ (fun row => row.length_records kpool ring) inside owned,
    Row.records_getElem? owned]

/-- Every flat record is a row's token. -/
theorem records_owner (kpool ring : ℕ) {flat : ℕ}
    (bounded : flat < (rows.map (Row.records kpool ring)).flatten.length) :
    ∃ (member t : ℕ) (inside : member < rows.length) (owned : t < rows[member].tokens.length),
      flat = offset (rows.map Row.tokens) member + t ∧
      (rows.map (Row.records kpool ring)).flatten[flat]? =
        some (rows[member].record kpool ring rows[member].tokens[t] (rows[member].past.length + t)) := by
  rw [flat_length _ _ fun row => row.length_records kpool ring] at bounded
  obtain ⟨member, t, inside, owned, rfl⟩ := flat_owner rows bounded
  exact ⟨member, t, inside, owned, rfl, records_at kpool ring inside owned⟩

/-- What the slots of the rows' tokens are. -/
theorem slots_at {flat : ℕ} {slot : ℤ} (given : (((rows.map (Row.records kpool ring)).flatten).map
    Token.slot).getD flat (-1) = slot) (real : 0 ≤ slot) :
    ∃ (member t loc : ℕ) (inside : member < rows.length), t < rows[member].tokens.length ∧
      flat = offset (rows.map Row.tokens) member + t ∧
      (rows[member].past.length + t + 1) % kpool = 0 ∧
      rows[member].locs[(rows[member].past.length + t) / kpool]? = some loc ∧ slot = loc := by
  have bounded : flat < (rows.map (Row.records kpool ring)).flatten.length := by
    by_contra outside
    rw [List.getD_eq_getElem?_getD, List.getElem?_eq_none (by rw [List.length_map]; omega),
      Option.getD_none] at given
    omega
  obtain ⟨member, t, inside, owned, rfl, record⟩ := records_owner kpool ring bounded
  rw [List.getD_eq_getElem?_getD, List.getElem?_map, record, Option.map_some, Option.getD_some,
    Row.record] at given
  dsimp only at given
  rcases poolSlot_cases kpool rows[member].locs (rows[member].past.length + t) with
    ⟨loc, ends, covered, same⟩ | ⟨missing, _⟩
  · exact ⟨member, t, loc, inside, owned, rfl, ends, covered, given.symm.trans same⟩
  · omega

/-- A pool has one last token, so two tokens that complete the same pool are the same. -/
theorem pool_end_unique {one other : ℕ} (ends : (one + 1) % kpool = 0) (ends' : (other + 1) % kpool = 0)
    (same : one / kpool = other / kpool) : one = other := by
  have positive : 0 < kpool := by
    refine Nat.pos_of_ne_zero fun none => ?_
    rw [none, Nat.mod_zero] at ends
    omega
  rw [← Nat.div_add_mod one kpool, ← Nat.div_add_mod other kpool, same,
    (ends_pool positive one).mp ends, (ends_pool positive other).mp ends']

/-- Tokens with one slot are one token. -/
theorem slots_unique (separate : Separate kpool rows) {one other : ℕ}
    (real : 0 ≤ (((rows.map (Row.records kpool ring)).flatten).map Token.slot).getD one (-1))
    (same : (((rows.map (Row.records kpool ring)).flatten).map Token.slot).getD one (-1) =
      (((rows.map (Row.records kpool ring)).flatten).map Token.slot).getD other (-1)) :
    one = other := by
  obtain ⟨m, t, loc, inside, owned, rfl, ends, covered, slot⟩ := slots_at rfl real
  obtain ⟨m', t', loc', inside', owned', rfl, ends', covered', slot'⟩ := slots_at same.symm real
  obtain rfl : loc = loc' := Int.natCast_inj.mp (slot.symm.trans slot')
  have floor : rows[m].past.length / kpool ≤ (rows[m].past.length + t) / kpool :=
    Nat.div_le_div_right (Nat.le_add_right _ _)
  by_cases member : m = m'
  · subst member
    have pool := separate.own _ (List.getElem_mem inside) _ _ loc floor covered covered'
    have position := pool_end_unique ends ends' pool
    omega
  · exact absurd (List.mem_of_getElem? covered')
      ((separate.at inside inside' member).pools loc ⟨_, floor, covered⟩)

variable [Inhabited V]

/-- A token's insert program writes the token's slot. -/
theorem within_compressInsert (entries : List V) (slots : List ℤ) (pos : Fin slots.length) :
    Within (fun _ => False)
      (fun cell => 0 ≤ slots.getD pos (-1) ∧ cell = .pool (slots.getD pos (-1)).toNat)
      (compressInsert compress kpool entries slots pos) := by
  rw [compressInsert]
  split
  · trivial
  · rw [insertProgram]
    split
    next valid => exact within_put _ ⟨valid.1, rfl⟩
    next => trivial

variable {entries : List V} {slots : List ℤ} {final : Cell → V}

/-- The insert launch touches the pools of its rows only. -/
theorem insert_frame (mapped : slots = ((rows.map (Row.records kpool ring)).flatten).map Token.slot)
    (launch : Launches (compressInsert compress kpool entries slots) memory final) (cell : Cell)
    (outside : ∀ row ∈ rows, ¬ row.Owns kpool cell) : final cell = memory cell := by
  refine launches_outside (within_compressInsert entries slots) launch cell fun pos written => ?_
  obtain ⟨real, rfl⟩ := written
  subst mapped
  obtain ⟨m, t, loc, inside, _, _, _, covered, slot⟩ := slots_at rfl real
  refine outside _ (List.getElem_mem inside) ⟨_, Nat.div_le_div_right (Nat.le_add_right _ t), ?_⟩
  rw [slot, Int.toNat_natCast]
  exact covered

/-- A token with a slot of its own leaves there what it compresses. -/
theorem insert_slot (unique : ∀ one other, 0 ≤ slots.getD one (-1) →
      slots.getD one (-1) = slots.getD other (-1) → one = other)
    (launch : Launches (compressInsert compress kpool entries slots) memory final) {pos loc : ℕ}
    (inside : pos < slots.length) (enough : kpool ≤ pos + 1) (slot : slots.getD pos (-1) = loc) :
    final (.pool loc) = compress
      ((List.range kpool).map fun off => entries.getD (pos - (kpool - 1) + off) default) := by
  have real : 0 ≤ slots.getD pos (-1) := by
    rw [slot]
    exact Int.natCast_nonneg loc
  have apart : ∀ one other : Fin slots.length, one ≠ other → 0 ≤ slots.getD one (-1) →
      0 ≤ slots.getD other (-1) →
      Cell.pool (slots.getD one (-1)).toNat ≠ .pool (slots.getD other (-1)).toNat := by
    intro one other different real real' same
    have equal := Cell.pool.inj same
    exact different (Fin.ext (unique one other real (by omega)))
  have alone : final (.pool loc) =
      (run (compressInsert compress kpool entries slots ⟨pos, inside⟩) memory).2 (.pool loc) := by
    refine launches_inside (within_compressInsert entries slots)
      (fun one other different cell touched wrote => ?_) launch _ _
      (fun other different wrote => ?_)
    · obtain ⟨real', rfl⟩ := touched.resolve_left id
      exact apart one other different real' wrote.1 wrote.2
    · refine apart ⟨pos, inside⟩ other (Ne.symm different) real wrote.1 ?_
      rw [← wrote.2, slot, Int.toNat_natCast]
  rw [alone, compressInsert, if_neg (by omega), insertProgram]
  dsimp only
  rw [if_pos ⟨real, by omega⟩, run_put, slot, Int.toNat_natCast, Function.update_self]

/-- A pool that ends in the batch is compressed from the batch. -/
theorem insert_pool (positive : 0 < kpool) (separate : Separate kpool rows)
    (keys : entries = ((rows.map (Row.records kpool ring)).flatten).map Token.entry)
    (mapped : slots = ((rows.map (Row.records kpool ring)).flatten).map Token.slot)
    (launch : Launches (compressInsert compress kpool entries slots) memory final)
    (inside : member < rows.length) (aligned : rows[member].past.length % kpool = 0) {j loc : ℕ}
    (floor : rows[member].past.length / kpool ≤ j)
    (complete : j < (rows[member].past ++ rows[member].tokens).length / kpool)
    (covered : rows[member].locs[j]? = some loc) :
    final (.pool loc) = compress (chunk kpool (rows[member].past ++ rows[member].tokens) j) := by
  have start : rows[member].past.length ≤ j * kpool := by
    have whole := Nat.div_mul_cancel (Nat.dvd_of_mod_eq_zero aligned)
    exact whole.symm.trans_le (Nat.mul_le_mul_right kpool floor)
  have stop := (Nat.le_div_iff_mul_le positive).mp complete
  rw [Nat.succ_mul, List.length_append] at stop
  -- the pool's last token is token `t` of the row
  obtain ⟨t, last⟩ : ∃ t, rows[member].past.length + t + 1 = j * kpool + kpool :=
    ⟨j * kpool + kpool - 1 - rows[member].past.length, by omega⟩
  have ends : (rows[member].past.length + t + 1) % kpool = 0 := by
    rw [last, ← Nat.succ_mul, Nat.mul_mod_left]
  have pool : (rows[member].past.length + t) / kpool = j := by
    rw [show rows[member].past.length + t = j * kpool + (kpool - 1) by omega, Nat.mul_comm,
      Nat.mul_add_div positive, Nat.div_eq_of_lt (by omega), Nat.add_zero]
  have owned : t < rows[member].tokens.length := by omega
  have stored := fun (i : ℕ) (within : i ≤ t) =>
    records_at kpool ring inside (show i < rows[member].tokens.length by omega)
  have bounded := flat_lt inside owned
  rw [← flat_length rows (Row.records kpool ring) fun row => row.length_records kpool ring] at bounded
  have slot : slots.getD (offset (rows.map Row.tokens) member + t) (-1) = loc := by
    rw [mapped, List.getD_eq_getElem?_getD, List.getElem?_map, stored t (Nat.le_refl _),
      Option.map_some, Option.getD_some, Row.record, poolSlot, if_pos ends, pool, covered]
    rfl
  have inside' : offset (rows.map Row.tokens) member + t < slots.length := by
    rw [mapped, List.length_map]
    exact bounded
  have unique : ∀ one other, 0 ≤ slots.getD one (-1) →
      slots.getD one (-1) = slots.getD other (-1) → one = other := by
    rw [mapped]
    exact fun one other => slots_unique separate
  rw [insert_slot unique launch inside' (by omega) slot]
  refine congrArg compress (chunk_eq_map fun i within => ?_).symm
  have shifted : j * kpool + i = rows[member].past.length + (t + i + 1 - kpool) := by omega
  rw [shifted, List.getElem?_append_right (Nat.le_add_right _ _), Nat.add_sub_cancel_left,
    show offset (rows.map Row.tokens) member + t - (kpool - 1) + i =
      offset (rows.map Row.tokens) member + (t + i + 1 - kpool) by omega,
    keys, List.getD_eq_getElem?_getD, List.getElem?_map, stored _ (by omega), Option.map_some,
    Option.getD_some, List.getElem?_eq_getElem (by omega)]
  rfl

end Prefill

section Seed

variable {rows : List (Row V)} {member t : ℕ} {entries : List V} {tslots : List ℤ}
  {final : Cell → V}

/-- A ring slot names its block and its place there. -/
theorem ringSlot_div_mod (around : 0 < ring) (block position : ℕ) :
    ((block * ring + position % ring : ℕ) : ℤ) / ring = block ∧
      ((block * ring + position % ring : ℕ) : ℤ) % ring = (position % ring : ℕ) := by
  have below := Nat.mod_lt position around
  constructor
  · rw [← Int.natCast_ediv, Nat.add_comm, Nat.add_mul_div_right _ _ around, Nat.div_eq_of_lt below,
      Nat.zero_add]
  · rw [← Int.natCast_emod, Nat.add_comm, Nat.add_mul_mod_self_right, Nat.mod_mod]

/-- The ring slot of a row's token. -/
theorem tslots_at (mapped : tslots = ((rows.map (Row.records kpool ring)).flatten).map Token.tailSlot)
    (inside : member < rows.length) (owned : t < rows[member].tokens.length) :
    offset (rows.map Row.tokens) member + t < tslots.length ∧
    tslots.getD (offset (rows.map Row.tokens) member + t) (-1) =
      ((rows[member].block * ring + (rows[member].past.length + t) % ring : ℕ) : ℤ) := by
  have bounded := flat_lt inside owned
  rw [← flat_length rows (Row.records kpool ring) fun row => row.length_records kpool ring] at bounded
  rw [mapped, List.length_map]
  refine ⟨bounded, ?_⟩
  rw [List.getD_eq_getElem?_getD, List.getElem?_map, records_at kpool ring inside owned,
    Option.map_some, Option.getD_some, Row.record]

variable [Inhabited V]

/-- The seed program of a row's token: the token a pool ahead is the row's as well or tells that
this one is among the last. -/
theorem tailSeed_eq (around : 0 < ring) (separate : Separate kpool rows)
    (keys : entries = ((rows.map (Row.records kpool ring)).flatten).map Token.entry)
    (mapped : tslots = ((rows.map (Row.records kpool ring)).flatten).map Token.tailSlot)
    (inside : member < rows.length) (owned : t < rows[member].tokens.length)
    (bounded : offset (rows.map Row.tokens) member + t < tslots.length) :
    tailSeed kpool ring entries tslots ⟨_, bounded⟩ =
      if t + kpool < rows[member].tokens.length then pure ()
      else put (.tail rows[member].block ((rows[member].past.length + t) % ring))
        rows[member].tokens[t] := by
  obtain ⟨_, slot⟩ := tslots_at mapped inside owned
  obtain ⟨block, phys⟩ := ringSlot_div_mod around rows[member].block (rows[member].past.length + t)
  have entry : entries.getD (offset (rows.map Row.tokens) member + t) default =
      rows[member].tokens[t] := by
    rw [keys, List.getD_eq_getElem?_getD, List.getElem?_map, records_at kpool ring inside owned,
      Option.map_some, Option.getD_some, Row.record]
  rw [tailSeed]
  dsimp only
  rw [slot, block, phys, entry, if_neg (by omega), Int.toNat_natCast, Int.toNat_natCast]
  by_cases inner : t + kpool < rows[member].tokens.length
  · obtain ⟨bounded', ahead⟩ := tslots_at mapped inside inner
    rw [← Nat.add_assoc] at bounded' ahead
    rw [if_pos bounded', ahead, (ringSlot_div_mod around _ _).1,
      if_pos ⟨Int.natCast_nonneg _, rfl⟩, if_pos inner]
  · rw [if_neg inner, if_neg]
    rintro ⟨real, same⟩
    split at real
    next bounded' =>
      rw [if_pos bounded'] at same
      rw [mapped, List.length_map] at bounded'
      obtain ⟨m, t', inside', owned', index, _⟩ := records_owner kpool ring bounded'
      rw [index, (tslots_at mapped inside' owned').2, (ringSlot_div_mod around _ _).1] at same
      by_cases row : m = member
      · subst row
        omega
      · exact (separate.at inside' inside row).blocks (Int.natCast_inj.mp same)
    next => omega

/-- A row's seed programs write its ring. -/
theorem within_tailSeed (around : 0 < ring) (separate : Separate kpool rows)
    (keys : entries = ((rows.map (Row.records kpool ring)).flatten).map Token.entry)
    (mapped : tslots = ((rows.map (Row.records kpool ring)).flatten).map Token.tailSlot)
    (i : Fin tslots.length) :
    Within (fun _ => False) (fun cell => ∃ (member t : ℕ) (inside : member < rows.length),
        t < rows[member].tokens.length ∧ rows[member].tokens.length ≤ t + kpool ∧
        i.val = offset (rows.map Row.tokens) member + t ∧
        cell = .tail rows[member].block ((rows[member].past.length + t) % ring))
      (tailSeed kpool ring entries tslots i) := by
  obtain ⟨flat, bounded⟩ := i
  have bounded' := bounded
  rw [mapped, List.length_map] at bounded'
  obtain ⟨member, t, inside, owned, rfl, _⟩ := records_owner kpool ring bounded'
  rw [tailSeed_eq around separate keys mapped inside owned]
  split
  next => trivial
  next last => exact within_put _ ⟨member, t, inside, owned, by omega, rfl, rfl⟩

/-- The seed launch touches the rings of its rows only. -/
theorem seed_frame (around : 0 < ring) (separate : Separate kpool rows)
    (keys : entries = ((rows.map (Row.records kpool ring)).flatten).map Token.entry)
    (mapped : tslots = ((rows.map (Row.records kpool ring)).flatten).map Token.tailSlot)
    (launch : Launches (tailSeed kpool ring entries tslots) memory final) (cell : Cell)
    (outside : ∀ row ∈ rows, ¬ row.Owns kpool cell) : final cell = memory cell := by
  refine launches_outside (within_tailSeed around separate keys mapped) launch cell fun i wrote => ?_
  obtain ⟨member, t, inside, _, _, _, rfl⟩ := wrote
  exact outside _ (List.getElem_mem inside) rfl

/-- The seed launch writes the tail ring and no pool, so the compressed pools of the launch before
it stay. -/
theorem seed_pool (around : 0 < ring) (separate : Separate kpool rows)
    (keys : entries = ((rows.map (Row.records kpool ring)).flatten).map Token.entry)
    (mapped : tslots = ((rows.map (Row.records kpool ring)).flatten).map Token.tailSlot)
    (launch : Launches (tailSeed kpool ring entries tslots) memory final) (loc : ℕ) :
    final (.pool loc) = memory (.pool loc) := by
  refine launches_outside (within_tailSeed around separate keys mapped) launch _ fun i wrote => ?_
  obtain ⟨_, _, _, _, _, _, same⟩ := wrote
  cases same

/-- The last tokens of every row are in its ring. -/
theorem seed_token (fits : kpool ≤ ring) (around : 0 < ring) (separate : Separate kpool rows)
    (keys : entries = ((rows.map (Row.records kpool ring)).flatten).map Token.entry)
    (mapped : tslots = ((rows.map (Row.records kpool ring)).flatten).map Token.tailSlot)
    (launch : Launches (tailSeed kpool ring entries tslots) memory final)
    (inside : member < rows.length) (owned : t < rows[member].tokens.length)
    (last : rows[member].tokens.length ≤ t + kpool) :
    final (.tail rows[member].block ((rows[member].past.length + t) % ring)) =
      rows[member].tokens[t] := by
  obtain ⟨bounded, _⟩ := tslots_at mapped inside owned
  -- two tokens that reach one cell are of one row and less than a pool apart
  have one : ∀ (m m' t t' : ℕ) (inside : m < rows.length) (inside' : m' < rows.length),
      t < rows[m].tokens.length → rows[m].tokens.length ≤ t + kpool →
      t' < rows[m'].tokens.length → rows[m'].tokens.length ≤ t' + kpool →
      Cell.tail rows[m].block ((rows[m].past.length + t) % ring) =
        .tail rows[m'].block ((rows[m'].past.length + t') % ring) →
      offset (rows.map Row.tokens) m + t = offset (rows.map Row.tokens) m' + t' := by
    intro m m' t t' inside inside' owned last owned' last' same
    obtain ⟨blocks, places⟩ := Cell.tail.inj same
    by_cases row : m = m'
    · subst row
      rcases Nat.lt_trichotomy t t' with before | rfl | after
      · exact absurd places (CircularBuffer.cells_ne (by omega) (by omega))
      · rfl
      · exact absurd places.symm (CircularBuffer.cells_ne (by omega) (by omega))
    · exact absurd blocks (separate.at inside inside' row).blocks
  have alone : final (.tail rows[member].block ((rows[member].past.length + t) % ring)) =
      (run (tailSeed kpool ring entries tslots ⟨_, bounded⟩) memory).2
        (.tail rows[member].block ((rows[member].past.length + t) % ring)) := by
    refine launches_inside (within_tailSeed around separate keys mapped)
      (fun i i' different cell touched wrote => ?_) launch _ _ fun other different wrote => ?_
    · obtain ⟨m, t, inside, owned, last, index, rfl⟩ := touched.resolve_left id
      obtain ⟨m', t', inside', owned', last', index', same⟩ := wrote
      have flat := one m m' t t' inside inside' owned last owned' last' same
      exact different (Fin.ext (by omega))
    · obtain ⟨m', t', inside', owned', last', index', same⟩ := wrote
      have flat := one member m' t t' inside inside' owned last owned' last' same
      exact different (Fin.ext (by rw [index']; exact flat.symm))
  rw [alone, tailSeed_eq around separate keys mapped inside owned, if_neg (by omega), run_put,
    Function.update_self]

end Seed

section Batch

/-- The rows of one kind touch nothing of each other's. -/
theorem Separate.of_append {one other : List (Row V)} (separate : Separate kpool (one ++ other)) :
    Separate kpool one ∧ Separate kpool other := by
  obtain ⟨first, second, _⟩ := List.pairwise_append.mp separate.apart
  exact ⟨⟨first, fun row listed => separate.own row (List.mem_append_left _ listed)⟩,
    ⟨second, fun row listed => separate.own row (List.mem_append_right _ listed)⟩⟩

/-- Rows of different kinds touch nothing of each other's. -/
theorem Separate.across {one other : List (Row V)} (separate : Separate kpool (one ++ other))
    {row row' : Row V} (listed : row ∈ one) (listed' : row' ∈ other) : Row.Apart kpool row row' :=
  (List.pairwise_append.mp separate.apart).2.2 row listed row' listed'

variable [Inhabited V] {batch : Batch V} {final : Cell → V}

/-- Some interleavings of the three launches, one launch after the other, leave this memory. -/
def Batch.Writes (compress : List V → V) (kpool ring : ℕ) (batch : Batch V)
    (memory final : Cell → V) : Prop :=
  ∃ inserted seeded, Launches (batch.insert compress kpool) memory inserted ∧
    Launches (batch.seed kpool ring) inserted seeded ∧
    Launches (batch.update compress kpool ring) seeded final

/-- The batch touches the cells of its rows only. -/
theorem Batch.writes_frame (around : 0 < ring) (mapped : batch.Mapped)
    (separate : Separate kpool batch.rows) (writes : batch.Writes compress kpool ring memory final)
    (cell : Cell) (outside : ∀ row ∈ batch.rows, ¬ row.Owns kpool cell) : final cell = memory cell := by
  obtain ⟨inserted, seeded, insert, seed, update⟩ := writes
  obtain ⟨keys, slots, tslots⟩ := arrays_eq kpool ring mapped
  have prefill := fun row listed => outside row (List.mem_append_right _ listed)
  rw [update_frame around mapped update cell fun row listed => outside row (List.mem_append_left _ listed),
    seed_frame around separate.of_append.2 (drop_eq keys) (drop_eq tslots) seed cell prefill,
    insert_frame (drop_eq slots) insert cell prefill]

/-- A batch leaves the tokens of its decode rows stored. -/
theorem Batch.writes_decode {numSpec low high : ℕ} (positive : 0 < kpool)
    (fits : kpool ≤ ring) (room : kpool + numSpec ≤ ring + 1) (mapped : batch.Mapped)
    (separate : Separate kpool batch.rows)
    (writes : batch.Writes compress kpool ring memory final) {row : Row V}
    (listed : row ∈ batch.decode)
    (stored : Stored compress kpool ring memory row.block row.locs row.past low high)
    (lower : low ≤ row.past.length / kpool * kpool) (upper : high ≤ row.past.length + numSpec) :
    Stored compress kpool ring final row.block row.locs (row.past ++ row.tokens) low
      (max high (row.past.length + row.tokens.length)) := by
  obtain ⟨inserted, seeded, insert, seed, update⟩ := writes
  obtain ⟨keys, slots, tslots⟩ := arrays_eq kpool ring mapped
  have untouched : ∀ cell, (∀ row ∈ batch.prefill, ¬ row.Owns kpool cell) →
      seeded cell = memory cell := by
    intro cell outside
    rw [seed_frame (by omega) separate.of_append.2 (drop_eq keys) (drop_eq tslots) seed cell outside,
      insert_frame (drop_eq slots) insert cell outside]
  refine update_stored positive fits room mapped separate.of_append.1 update listed (stored.congr
    (fun phys => ?_) fun loc covered => ?_) lower upper
  · exact untouched _ fun other listed' owned => (separate.across listed listed').blocks owned
  · exact untouched _ fun other listed' owned =>
      (separate.across listed listed').pools' loc owned covered

/-- A batch leaves the tokens of its prefill rows stored when they start at a pool. -/
theorem Batch.writes_prefill (positive : 0 < kpool) (fits : kpool ≤ ring) (mapped : batch.Mapped)
    (separate : Separate kpool batch.rows) (writes : batch.Writes compress kpool ring memory final)
    {row : Row V} (listed : row ∈ batch.prefill) (aligned : row.past.length % kpool = 0)
    (stored : Compressed compress kpool memory row.locs row.past) :
    Stored compress kpool ring final row.block row.locs (row.past ++ row.tokens)
      (row.past.length + row.tokens.length - min row.tokens.length kpool)
      (row.past.length + row.tokens.length) := by
  obtain ⟨inserted, seeded, insert, seed, update⟩ := writes
  obtain ⟨keys, slots, tslots⟩ := arrays_eq kpool ring mapped
  have separate' := separate.of_append.2
  obtain ⟨member, inside, rfl⟩ := List.getElem_of_mem listed
  have untouched : ∀ cell, (∀ row ∈ batch.decode, ¬ row.Owns kpool cell) →
      final cell = seeded cell := update_frame (by omega) mapped update
  refine Stored.congr ⟨?_, ?_⟩ (fun phys => untouched _ fun other listed' owned =>
    (separate.across listed' listed).blocks owned.symm) fun loc covered => untouched _
      fun other listed' owned => (separate.across listed' listed).pools loc owned covered
  · intro j loc complete covered
    rw [seed_pool (by omega) separate' (drop_eq keys) (drop_eq tslots) seed]
    rcases Nat.lt_or_ge j (batch.prefill[member].past.length / kpool) with before | floor
    · have whole : (j + 1) * kpool ≤ batch.prefill[member].past.length :=
        (Nat.mul_le_mul_right kpool before).trans (Nat.div_mul_le_self _ _)
      rw [insert_frame (drop_eq slots) insert _ fun other => separate'.older listed before covered,
        stored j loc before covered, chunk_append _ whole]
    · exact insert_pool positive separate' (drop_eq keys) (drop_eq slots) insert inside aligned floor
        complete covered
  · refine CircularBuffer.holds_filled fun position value after found => ?_
    have bounded := (List.getElem?_eq_some_iff.mp found).1
    rw [List.length_append] at bounded
    obtain ⟨t, rfl⟩ : ∃ t, position = batch.prefill[member].past.length + t :=
      ⟨position - batch.prefill[member].past.length, by omega⟩
    rw [List.getElem?_append_right (Nat.le_add_right _ _), Nat.add_sub_cancel_left,
      List.getElem?_eq_getElem (by omega)] at found
    rw [seed_token fits (by omega) separate' (drop_eq keys) (drop_eq tslots) seed inside
      (show t < _ by omega) (by omega)]
    exact Option.some.inj found

end Batch

end GlmSpark.KpoolTail
