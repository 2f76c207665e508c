import GlmSpark.KpoolSlots

/-!
# One batch through the write path

The rows of a batch are the requests it runs: decode rows first, their tokens grouped by
request for the decode kernel, prefill rows behind, compressed and seeded from flat
slices. The arrays are those the step's metadata holds; what a token is handed by them is
its own key, position, pool slot and ring slot.
-/

namespace GlmSpark.KpoolTail

open Blocks Launch Program Ragged

variable {V : Type}

section Arrays

/-- A row of a batch: the request's tail block, the pool slots of its block table, the tokens
stored before and the tokens of this step. -/
structure Row (V : Type) where
  block : ℕ
  locs : List ℕ
  past : List V
  tokens : List V

/-- The pool-granular slot mapping that `get_compressed_slot_mapping`, which is not part of the
repository, hands to the kernels: the slot of its pool on the pool's last token, `-1` on every other,
as the comments of the kernels say. -/
def poolSlot (kpool : ℕ) (locs : List ℕ) (position : ℕ) : ℤ :=
  if (position + 1) % kpool = 0 then (locs[position / kpool]?).elim (-1) Int.ofNat else -1

/-- The positions of the tokens of a row. -/
def Row.positions (row : Row V) : List ℕ := List.range' row.past.length row.tokens.length

/-- The rows of a step and the token-granular slots the builder wrote for the tail group. -/
structure Batch (V : Type) where
  decode : List (Row V)
  prefill : List (Row V)
  slotIn : List ℤ

namespace Batch

/-- Decode tokens are batched first, prefill tokens follow. -/
def rows (batch : Batch V) : List (Row V) := batch.decode ++ batch.prefill

/-- `k` and `gate_score`: what the tokens of the step bring to the cache, row after row. -/
def keys (batch : Batch V) : List V := (batch.rows.map Row.tokens).flatten

/-- `positions`: the absolute positions of the tokens, row after row. -/
def positions (batch : Batch V) : List ℤ := ((batch.rows.map Row.positions).flatten).map Int.ofNat

/-- `slot_mapping` of the pool group: one pool slot or `-1` a token, row after row. -/
def slotMapping (kpool : ℕ) (batch : Batch V) : List ℤ :=
  (batch.rows.map fun row => row.positions.map (poolSlot kpool row.locs)).flatten

/-- The slot mapping of the tail group. -/
def tailSlots (ring : ℕ) (batch : Batch V) : List ℤ :=
  tailSlotMapping batch.slotIn (fun req => (batch.rows[req]?).elim 0 Row.block)
    (offsets (batch.rows.map Row.tokens)) (fun i => batch.positions.getD i 0) batch.keys.length
    batch.rows.length ring

/-- `decode_lens`: how many tokens each decode row has in this step. -/
def decodeLens (batch : Batch V) : List ℕ := batch.decode.map fun row => row.tokens.length

/-- `num_decode_tokens`: where the prefill slice of the flat arrays begins. -/
def numDecodeTokens (batch : Batch V) : ℕ := batch.decodeLens.sum

variable [Inhabited V]

/-- What the arrays hold of every token. -/
def tokens (kpool ring : ℕ) (batch : Batch V) : List (Token V) :=
  (List.range batch.keys.length).map fun i =>
    ⟨(batch.tailSlots ring).getD i (-1), batch.keys.getD i default,
      (batch.slotMapping kpool).getD i (-1), batch.positions.getD i 0⟩

end Batch

/-- What fills the grid behind a short row. -/
def pad [Inhabited V] : Token V := ⟨-1, default, -1, -1⟩

/-- The number of columns of the grid. -/
def groupWidth (numTokens : ℕ) (decodeLens : List ℕ) : ℕ :=
  let maxLen := decodeLens.max?.getD 0
  let minLen := decodeLens.min?.getD 0
  if minLen = maxLen ∧ numTokens = decodeLens.length * maxLen then numTokens / decodeLens.length
  else maxLen

variable [Inhabited V] (compress : List V → V) (kpool ring : ℕ) (batch : Batch V)

/-- The launch of `_kpool_compress_insert` over the prefill slice. -/
def Batch.insert :
    Fin ((batch.slotMapping kpool).drop batch.numDecodeTokens).length → Kernel V Unit :=
  compressInsert compress kpool (batch.keys.drop batch.numDecodeTokens)
    ((batch.slotMapping kpool).drop batch.numDecodeTokens)

/-- The launch of `kpool_seed_tail_cache` over the prefill slice. -/
def Batch.seed : Fin ((batch.tailSlots ring).drop batch.numDecodeTokens).length → Kernel V Unit :=
  tailSeed kpool ring (batch.keys.drop batch.numDecodeTokens)
    ((batch.tailSlots ring).drop batch.numDecodeTokens)

/-- The launch of `kpool_decode_update_and_maybe_write_cache_batched` over the grid. -/
def Batch.update (req : Fin batch.decode.length) : Kernel V Unit :=
  let tokens := (batch.tokens kpool ring).take batch.numDecodeTokens
  decodeTurns compress kpool ring
    ((List.range (groupWidth tokens.length batch.decodeLens)).map
      (groupTokens tokens pad batch.decodeLens req))

end Arrays

section Records

/-- What the kernels are handed of one token of a row: its ring slot, its key, its pool slot and its
position. -/
def Row.record (kpool ring : ℕ) (row : Row V) (entry : V) (position : ℕ) : Token V :=
  ⟨(row.block * ring + position % ring : ℕ), entry, poolSlot kpool row.locs position, position⟩

/-- What the kernels are handed of all tokens of a row, in order. -/
def Row.records (kpool ring : ℕ) (row : Row V) : List (Token V) :=
  row.tokens.zipIdx.map fun (entry, t) => row.record kpool ring entry (row.past.length + t)

/-- A row has one record for each of its tokens. -/
@[simp] theorem Row.length_records (kpool ring : ℕ) (row : Row V) :
    (row.records kpool ring).length = row.tokens.length := by
  rw [records, List.length_map, List.length_zipIdx]

/-- A row has one position for each of its tokens. -/
@[simp] theorem Row.length_positions (row : Row V) : row.positions.length = row.tokens.length := by
  rw [positions, List.length_range']

/-- The record of a row's token: its entry, at the position behind everything stored before. -/
theorem Row.records_getElem? {kpool ring : ℕ} {row : Row V} {t : ℕ} (inside : t < row.tokens.length) :
    (row.records kpool ring)[t]? =
      some (row.record kpool ring row.tokens[t] (row.past.length + t)) := by
  rw [records, List.getElem?_map, List.getElem?_zipIdx, List.getElem?_eq_getElem inside]
  simp

/-- Where the arrays hold what belongs to one token of a row. -/
theorem flat_getElem? {β : Type} (rows : List (Row V)) (part : Row V → List β)
    (lengths : ∀ row, (part row).length = row.tokens.length) {member t : ℕ}
    (inside : member < rows.length) (owned : t < rows[member].tokens.length) :
    (rows.map part).flatten[offset (rows.map Row.tokens) member + t]? =
      (part rows[member])[t]? := by
  have same : (rows.map part).map List.length = (rows.map Row.tokens).map List.length := by
    rw [List.map_map, List.map_map]
    exact List.map_congr_left fun row _ => lengths row
  have inside' : member < (rows.map part).length := by simpa using inside
  have owned' : t < (rows.map part)[member].length := by
    rw [List.getElem_map, lengths]
    exact owned
  rw [← offset_of_lengths _ _ same, flatten_getElem? _ member t inside' owned',
    ← List.getElem?_eq_getElem owned', List.getElem_map]

/-- The arrays have one entry for every token. -/
theorem flat_length {β : Type} (rows : List (Row V)) (part : Row V → List β)
    (lengths : ∀ row, (part row).length = row.tokens.length) :
    (rows.map part).flatten.length = (rows.map Row.tokens).flatten.length := by
  rw [List.length_flatten, List.length_flatten, List.map_map, List.map_map]
  exact congrArg List.sum (List.map_congr_left fun row _ => lengths row)

/-- A token of a row is a token of the batch. -/
theorem flat_lt {rows : List (Row V)} {member t : ℕ} (inside : member < rows.length)
    (owned : t < rows[member].tokens.length) :
    offset (rows.map Row.tokens) member + t < (rows.map Row.tokens).flatten.length :=
  row_before_end _ member t (by simpa using inside) (by simpa using owned)

/-- Every entry of the arrays belongs to a token of some row. -/
theorem flat_owner (rows : List (Row V)) {flat : ℕ}
    (bounded : flat < (rows.map Row.tokens).flatten.length) :
    ∃ (member t : ℕ) (inside : member < rows.length), t < rows[member].tokens.length ∧
      flat = offset (rows.map Row.tokens) member + t := by
  obtain ⟨member, t, inside, owned, rfl⟩ := owner_exists _ flat bounded
  rw [List.getElem_map] at owned
  exact ⟨member, t, by simpa using inside, owned, rfl⟩

/-- The builder wrote one slot for every token, and no pad among them. The tokens that pad a captured
graph are left out: their slots stay `-1`, and the kernels write nothing for such a token. -/
def Batch.Mapped (batch : Batch V) : Prop :=
  batch.slotIn.length = batch.keys.length ∧ ∀ slot ∈ batch.slotIn, 0 ≤ slot

variable {batch : Batch V} {member t : ℕ}

/-- Where the flat array holds the position of a row's token: behind everything the request stored
before. -/
theorem Batch.positions_getElem? (inside : member < batch.rows.length)
    (owned : t < batch.rows[member].tokens.length) :
    batch.positions[offset (batch.rows.map Row.tokens) member + t]? =
      some ((batch.rows[member].past.length + t : ℕ) : ℤ) := by
  rw [positions, List.getElem?_map, flat_getElem? _ _ Row.length_positions inside owned,
    Row.positions, List.getElem?_range' owned, Option.map_some, Nat.one_mul]
  rfl

/-- The ring slot of a row's token. -/
theorem Batch.tailSlots_getElem? (mapped : batch.Mapped) (ring : ℕ)
    (inside : member < batch.rows.length) (owned : t < batch.rows[member].tokens.length) :
    (batch.tailSlots ring)[offset (batch.rows.map Row.tokens) member + t]? =
      some ((batch.rows[member].block * ring + (batch.rows[member].past.length + t) % ring : ℕ) : ℤ) := by
  have inside' : member < (batch.rows.map Row.tokens).length := by simpa using inside
  have owned' : t < (batch.rows.map Row.tokens)[member].length := by simpa using owned
  have bounded : _ < batch.keys.length := flat_lt inside owned
  have real : 0 ≤ batch.slotIn.getD (offset (batch.rows.map Row.tokens) member + t) (-1) := by
    have stored : offset (batch.rows.map Row.tokens) member + t < batch.slotIn.length := by
      rw [mapped.1]
      exact bounded
    rw [List.getD_eq_getElem?_getD, List.getElem?_eq_getElem stored, Option.getD_some]
    exact mapped.2 _ (List.getElem_mem stored)
  have some : batch.rows.length ≠ 0 := by omega
  have own := @tailSlotKernel_own _ _ batch.slotIn (fun req => (batch.rows[req]?).elim 0 Row.block)
    (fun i => batch.positions.getD i 0) batch.keys.length ring member t inside' owned'
    (Nat.le_refl _) real
  rw [List.length_map] at own
  rw [tailSlots, KpoolTail.tailSlotMapping, if_neg some, List.getElem?_map,
    List.getElem?_range (by rw [mapped.1]; exact bounded), Option.map_some, own,
    List.getElem?_eq_getElem inside, List.getD_eq_getElem?_getD,
    positions_getElem? inside owned]
  simp

/-- The pool slot of a row's token. -/
theorem Batch.slotMapping_getElem? (kpool : ℕ) (inside : member < batch.rows.length)
    (owned : t < batch.rows[member].tokens.length) :
    (batch.slotMapping kpool)[offset (batch.rows.map Row.tokens) member + t]? =
      some (poolSlot kpool batch.rows[member].locs (batch.rows[member].past.length + t)) := by
  rw [slotMapping, flat_getElem? _ _ (fun row => by simp) inside owned, List.getElem?_map,
    Row.positions, List.getElem?_range' owned, Option.map_some, Nat.one_mul]

/-- Where the flat array holds the key of a row's token. -/
theorem Batch.keys_getElem? (inside : member < batch.rows.length)
    (owned : t < batch.rows[member].tokens.length) :
    batch.keys[offset (batch.rows.map Row.tokens) member + t]? =
      some batch.rows[member].tokens[t] := by
  rw [keys, flat_getElem? _ _ (fun _ => rfl) inside owned, List.getElem?_eq_getElem owned]

/-- An array that holds one field of every token's record is that field of the records. -/
theorem Batch.array_eq {β : Type} (kpool ring : ℕ) {array : List β} {field : Token V → β}
    (length : array.length = batch.keys.length)
    (entries : ∀ (member t : ℕ) (inside : member < batch.rows.length)
      (owned : t < batch.rows[member].tokens.length),
      array[offset (batch.rows.map Row.tokens) member + t]? =
        some (field (batch.rows[member].record kpool ring batch.rows[member].tokens[t]
          (batch.rows[member].past.length + t)))) :
    array = ((batch.rows.map (Row.records kpool ring)).flatten).map field := by
  have lengths : ∀ row : Row V, (row.records kpool ring).length = row.tokens.length :=
    fun row => row.length_records kpool ring
  apply List.ext_getElem?
  intro flat
  by_cases bounded : flat < batch.keys.length
  · obtain ⟨member, t, inside, owned, rfl⟩ := flat_owner batch.rows bounded
    rw [entries member t inside owned, List.getElem?_map, flat_getElem? _ _ lengths inside owned,
      Row.records_getElem? owned, Option.map_some]
  · have short : batch.keys.length ≤ flat := Nat.le_of_not_lt bounded
    rw [List.getElem?_eq_none (by rw [length]; exact short),
      List.getElem?_eq_none (by rw [List.length_map, flat_length _ _ lengths]; exact short)]

/-- The key, the pool slot and the ring slot of every token. -/
theorem Batch.arrays_eq (kpool ring : ℕ) (mapped : batch.Mapped) :
    batch.keys = ((batch.rows.map (Row.records kpool ring)).flatten).map Token.entry ∧
    batch.slotMapping kpool = ((batch.rows.map (Row.records kpool ring)).flatten).map Token.slot ∧
    batch.tailSlots ring = ((batch.rows.map (Row.records kpool ring)).flatten).map Token.tailSlot := by
  refine ⟨array_eq kpool ring rfl fun _ _ => keys_getElem?,
    array_eq kpool ring ?_ fun _ _ => slotMapping_getElem? kpool,
    array_eq kpool ring ?_ fun _ _ => tailSlots_getElem? mapped ring⟩
  · exact flat_length _ _ fun row => by simp
  · rw [tailSlots, KpoolTail.tailSlotMapping]
    split
    · exact mapped.1
    · rw [List.length_map, List.length_range, mapped.1]

/-- The records of the decode rows come first. -/
theorem Batch.length_decode (kpool ring : ℕ) (batch : Batch V) :
    ((batch.decode.map (Row.records kpool ring)).flatten).length = batch.numDecodeTokens := by
  rw [flat_length _ _ fun row => row.length_records kpool ring, List.length_flatten, List.map_map]
  rfl

/-- Without its first decode tokens an array holds the fields of the prefill rows alone, since
decode rows come first. -/
theorem Batch.drop_eq {β : Type} {kpool ring : ℕ} {array : List β} {field : Token V → β}
    (whole : array = ((batch.rows.map (Row.records kpool ring)).flatten).map field) :
    array.drop batch.numDecodeTokens =
      ((batch.prefill.map (Row.records kpool ring)).flatten).map field := by
  rw [whole, rows, List.map_append, List.flatten_append, List.map_append]
  exact List.drop_left' (by rw [List.length_map, length_decode])

variable [Inhabited V]

/-- Every token is handed what its row has for it. -/
theorem Batch.tokens_eq (kpool ring : ℕ) (mapped : batch.Mapped) :
    batch.tokens kpool ring = (batch.rows.map (Row.records kpool ring)).flatten := by
  rw [← List.map_id (batch.rows.map (Row.records kpool ring)).flatten]
  refine array_eq kpool ring (by rw [tokens, List.length_map, List.length_range])
    fun member t inside owned => ?_
  have bounded : _ < batch.keys.length := flat_lt inside owned
  rw [tokens, List.getElem?_map, List.getElem?_range bounded, Option.map_some, Row.record, id]
  simp only [List.getD_eq_getElem?_getD, tailSlots_getElem? mapped ring inside owned,
    keys_getElem? inside owned, slotMapping_getElem? kpool inside owned,
    positions_getElem? inside owned, Option.getD_some]

/-- The tokens the decode kernel is handed. -/
theorem Batch.take_tokens (kpool ring : ℕ) (mapped : batch.Mapped) :
    (batch.tokens kpool ring).take batch.numDecodeTokens =
      (batch.decode.map (Row.records kpool ring)).flatten := by
  rw [tokens_eq kpool ring mapped, rows, List.map_append, List.flatten_append]
  exact List.take_left' (length_decode kpool ring batch)

end Records

end GlmSpark.KpoolTail
