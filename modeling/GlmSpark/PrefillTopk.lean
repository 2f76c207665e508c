import GlmSpark.KpoolTopk
import GlmSpark.PrefillReads

/-!
# What a prefill token attends to

For every row the loop over the chunks scores, pools are selected, expanded to tokens and
written to `topk_indices_buffer`, whose rows are blank before. A chunk without keys is not in
the loop, so its tokens keep blank rows, their open pools too. Every other token lists its own
context as the fused kernel makes it; where the selection has room for all of its pools it
lists every token once, as the short-prefill path does.

Which pools are selected is up to a kernel elsewhere; it is a function of the token and of the
keys it is given.
-/

namespace GlmSpark.PrefillReads

open KpoolTail Launch PrefillChunks Program Ragged Runs

variable {V : Type}

section Model

/-- The position of a request's new token. -/
def Reader.position (reader : Reader V) (t : ℕ) : ℤ :=
  (reader.holder.entries.length - reader.query + t : ℕ)

/-- The positions of a step's tokens. -/
def positions (readers : List (Reader V)) : List ℤ :=
  (readers.map fun reader => (List.range reader.query).map reader.position).flatten

/-- One row of the loop's write to `topk_indices_buffer`: the leading columns of the token's row. -/
def writeRow (pick : ℕ → List V → List ℤ) (kpool : ℕ) (positions : List ℤ) (buffer : ℕ → List ℤ)
    (row : ℕ × List V) : ℕ → List ℤ :=
  let expanded := expandRow (pick row.1 row.2) (positions.getD row.1 0 + 1) kpool
  Function.update buffer row.1 (expanded ++ (buffer row.1).drop expanded.length)

/-- `topk_indices_buffer` after the loop: blank, then the row of every token that was scored. -/
def prefillTopk (pick : ℕ → List V → List ℤ) (kpool width : ℕ) (positions : List ℤ)
    (rows : List (ℕ × List V)) : ℕ → List ℤ :=
  rows.foldl (writeRow pick kpool positions) fun _ => List.replicate width (-1)

/-- `topk_indices_buffer` after the loop of a step, given the metadata of its chunks. -/
def stepTopk (gather : Gather V) (memory : Cell → V) (pick : ℕ → List V → List ℤ)
    (kpool workspaceSize maxLogitsBytes width : ℕ) (decodes prefills : List (Reader V))
    (bounds : ChunkSpec → MetaCell → ℕ) (workspace : ℕ → V) : ℕ → List ℤ :=
  prefillTopk pick kpool width (positions (decodes ++ prefills))
    ((stepChunks kpool workspaceSize maxLogitsBytes decodes prefills).foldl
      (turn gather memory kpool ((decodes ++ prefills).map Reader.request) bounds) ⟨workspace, []⟩).rows

/-- The token is in a chunk with keys. -/
def Scored (kpool workspaceSize maxLogitsBytes : ℕ) (decodes prefills : List (Reader V)) (token : ℕ) :
    Prop :=
  token ∈ servedTokens kpool ((decodes ++ prefills).map Reader.request)
    (stepChunks kpool workspaceSize maxLogitsBytes decodes prefills)

/-- The first new token of a prefill request. -/
def firstToken (decodes prefills : List (Reader V)) (b : ℕ) : ℕ :=
  (decodes.map Reader.query).sum + ((prefills.take b).map Reader.query).sum

end Model

section Buffer

variable {pick : ℕ → List V → List ℤ} {kpool : ℕ} {places : List ℤ} {rows : List (ℕ × List V)}
  {token : ℕ}

/-- A row that no chunk writes keeps what the buffer held. -/
theorem writeRows_absent (buffer : ℕ → List ℤ) (absent : token ∉ rows.map Prod.fst) :
    rows.foldl (writeRow pick kpool places) buffer token = buffer token := by
  induction rows generalizing buffer with
  | nil => rfl
  | cons row rest ih =>
    rw [List.map_cons, List.mem_cons, not_or] at absent
    rw [List.foldl_cons, ih _ absent.2, writeRow, Function.update_of_ne absent.1]

/-- A row that is written once has what was written. -/
theorem writeRows_listed (buffer : ℕ → List ℤ) (once : (rows.map Prod.fst).Nodup) {keys : List V}
    (listed : (token, keys) ∈ rows) :
    ∃ behind, rows.foldl (writeRow pick kpool places) buffer token =
      expandRow (pick token keys) (places.getD token 0 + 1) kpool ++ (buffer token).drop behind := by
  induction rows generalizing buffer with
  | nil => cases listed
  | cons row rest ih =>
    rw [List.map_cons, List.nodup_cons] at once
    rw [List.foldl_cons]
    rcases List.mem_cons.mp listed with rfl | later
    · refine ⟨(expandRow (pick token keys) (places.getD token 0 + 1) kpool).length, ?_⟩
      rw [writeRows_absent _ once.1, writeRow, Function.update_self]
    · have other : token ≠ row.1 := fun same =>
        once.1 (same ▸ List.mem_map_of_mem later)
      obtain ⟨behind, written⟩ := ih (writeRow pick kpool places buffer row) once.2 later
      refine ⟨behind, written.trans ?_⟩
      rw [writeRow, Function.update_of_ne other]

end Buffer

section Places

variable {β : Type} {decodes prefills : List (Reader V)} {b t : ℕ}

/-- The first new token of a prefill request stands behind all decode tokens and those of the
prefill requests before it. -/
theorem firstToken_eq (kpool : ℕ) (decodes prefills : List (Reader V)) (b : ℕ) :
    firstToken decodes prefills b =
      queryStartLoc kpool ((decodes ++ prefills).map Reader.request) (decodes.length + b) := by
  rw [queryStartLoc, ← List.map_take, ← List.map_take, List.take_length_add_append]
  simp [firstToken, queries, Function.comp_def, Request.lens, Reader.request]

/-- A table of all tokens has a prefill request's entries at its place. -/
theorem entry_at (entry : Reader V → ℕ → β) (inside : b < prefills.length)
    (owned : t < prefills[b].query) :
    ((decodes ++ prefills).map fun reader => (List.range reader.query).map (entry reader)).flatten[
      firstToken decodes prefills b + t]? = some (entry prefills[b] t) := by
  have among : decodes.length + b < (decodes ++ prefills).length := by
    rw [List.length_append]
    exact Nat.add_lt_add_left inside _
  have own : (decodes ++ prefills)[decodes.length + b] = prefills[b] := by simp
  rw [firstToken_eq 1, entry_of_reader entry among (own ▸ owned), own]

/-- A prefill request's new tokens are prefill tokens. -/
theorem firstToken_listed (inside : b < prefills.length) (owned : t < prefills[b].query) :
    firstToken decodes prefills b + t ∈ prefillTokens decodes prefills := by
  have total : (prefills.map Reader.query).sum =
      ((prefills.take b).map Reader.query).sum + ((prefills.drop b).map Reader.query).sum := by
    rw [← List.sum_append, ← List.map_append, List.take_append_drop]
  rw [List.drop_eq_getElem_cons inside, List.map_cons, List.sum_cons] at total
  exact List.mem_range'.mpr ⟨((prefills.take b).map Reader.query).sum + t, by omega, by
    rw [firstToken, Nat.one_mul, Nat.add_assoc]⟩

end Places

section Rows

variable {compress : List V → V} {kpool workspaceSize maxLogitsBytes : ℕ} {state : State V}
  {gather : Gather V} {seen : Cell → V} {decodes prefills : List (Reader V)}
  {bounds : ChunkSpec → MetaCell → ℕ} {b t : ℕ}

/-- The row of a token that is scored: the expansion of what was selected among its pools, then
blanks. -/
theorem row_of_scored (sound : state.Sound compress kpool)
    (held : ∀ reader ∈ decodes ++ prefills, ∃ id, state.holders id = some reader.holder)
    (sees : Sees seen state prefills)
    (built : Built kpool ((decodes ++ prefills).map Reader.request)
      (stepChunks kpool workspaceSize maxLogitsBytes decodes prefills) bounds)
    (pick : ℕ → List V → List ℤ) (width : ℕ) (workspace : ℕ → V)
    (inside : b < prefills.length) (owned : t < prefills[b].query)
    (scored : Scored kpool workspaceSize maxLogitsBytes decodes prefills
      (firstToken decodes prefills b + t)) :
    ∃ behind, stepTopk gather seen pick kpool workspaceSize maxLogitsBytes width decodes prefills
        bounds workspace (firstToken decodes prefills b + t) =
      expandRow (pick (firstToken decodes prefills b + t) (prefills[b].pools compress kpool t))
        (prefills[b].position t + 1) kpool ++ (List.replicate width (-1)).drop behind := by
  have own : (tokenPools compress kpool (decodes ++ prefills)).getD
      (firstToken decodes prefills b + t) [] = prefills[b].pools compress kpool t := by
    rw [List.getD_eq_getElem?_getD, tokenPools, entry_at _ inside owned, Option.getD_some]
  have place : (positions (decodes ++ prefills)).getD (firstToken decodes prefills b + t) 0 =
      prefills[b].position t := by
    rw [List.getD_eq_getElem?_getD, positions, entry_at _ inside owned, Option.getD_some]
  have once : (servedTokens kpool ((decodes ++ prefills).map Reader.request)
      (stepChunks kpool workspaceSize maxLogitsBytes decodes prefills)).Nodup := by
    refine (servedTokens_sublist _ _).nodup ?_
    rw [stepChunks_tokens]
    exact List.nodup_range'
  rw [stepTopk, stepChunks_rows sound held sees built, List.nil_append, ← place, ← own]
  refine writeRows_listed _ ?_ (List.mem_map.mpr ⟨_, scored, rfl⟩)
  rw [List.map_map]
  exact once.map fun _ _ same => same

/-- The row of any other token is blank, and its request is shorter than a pool. -/
theorem row_of_left_out (positive : 0 < kpool) (sound : state.Sound compress kpool)
    (held : ∀ reader ∈ decodes ++ prefills, ∃ id, state.holders id = some reader.holder)
    (sees : Sees seen state prefills)
    (built : Built kpool ((decodes ++ prefills).map Reader.request)
      (stepChunks kpool workspaceSize maxLogitsBytes decodes prefills) bounds)
    (pick : ℕ → List V → List ℤ) (width : ℕ) (workspace : ℕ → V)
    (inside : b < prefills.length) (owned : t < prefills[b].query)
    (left_out : ¬ Scored kpool workspaceSize maxLogitsBytes decodes prefills
      (firstToken decodes prefills b + t)) :
    stepTopk gather seen pick kpool workspaceSize maxLogitsBytes width decodes prefills bounds
        workspace (firstToken decodes prefills b + t) = List.replicate width (-1) ∧
      prefills[b].holder.entries.length < kpool := by
  constructor
  · rw [stepTopk, stepChunks_rows sound held sees built, List.nil_append]
    refine writeRows_absent _ fun listed => left_out ?_
    rw [List.map_map] at listed
    obtain ⟨token, scored, rfl⟩ := List.mem_map.mp listed
    exact scored
  · obtain ⟨c, row, member, among, place, small⟩ :=
      owner_of_left_out (firstToken_listed inside owned) left_out
    have own := @entry_at _ _ decodes _ _ _ (fun reader _ => reader.holder.entries.length) inside owned
    rw [place, entry_of_reader _ member among] at own
    rw [Option.some.inj own] at small
    exact (Nat.div_eq_zero_iff_lt positive).mp small

/-- Blanks are no tokens, so they do not count where a token is counted. -/
theorem count_blanks (row : List ℤ) (width behind : ℕ) {token : ℤ} (real : 0 ≤ token) :
    (row ++ (List.replicate width (-1)).drop behind).count token = row.count token := by
  have absent : token ∉ (List.replicate width (-1 : ℤ)).drop behind := fun listed => by
    have blank := List.eq_of_mem_replicate (List.mem_of_mem_drop listed)
    omega
  rw [List.count_append, List.count_eq_zero_of_not_mem absent, Nat.add_zero]

end Rows

section Steps

variable [Inhabited V] {compress : List V → V} {kpool numSpec workspaceSize maxLogitsBytes : ℕ}
  {blank : Cell → V} {state : State V} {gather : Gather V} {seen : Cell → V}
  {decodes prefills : List (Reader V)} {bounds : ChunkSpec → MetaCell → ℕ} {b t : ℕ}

/-- What a prefill token attends to, in every reachable state of the pool cache. In a chunk with keys it
is the token's own context and nothing else: a complete pool as often as it was selected among the
request's own pools, every token of the open pool once. In a chunk without keys it is nothing, and the
request is shorter than a pool. -/
theorem stepTopk_tokens (positive : 0 < kpool)
    (reachable : Reachable (cache compress kpool numSpec (tailRing kpool numSpec) blank) state)
    (held : ∀ reader ∈ decodes ++ prefills, ∃ id, state.holders id = some reader.holder)
    (sees : Sees seen state prefills)
    (built : Built kpool ((decodes ++ prefills).map Reader.request)
      (stepChunks kpool workspaceSize maxLogitsBytes decodes prefills) bounds)
    (pick : ℕ → List V → List ℤ) (width : ℕ) (workspace : ℕ → V)
    (inside : b < prefills.length) (owned : t < prefills[b].query)
    (fits : prefills[b].position t + 1 < 2 ^ 31) :
    ∃ row, stepTopk gather seen pick kpool workspaceSize maxLogitsBytes width decodes prefills
        bounds workspace (firstToken decodes prefills b + t) = row ∧
      (Scored kpool workspaceSize maxLogitsBytes decodes prefills
          (firstToken decodes prefills b + t) →
        (∀ token ∈ row, -1 ≤ token ∧ token ≤ prefills[b].position t) ∧
        ∀ token, 0 ≤ token → row.count token =
          if token / kpool < (prefills[b].position t + 1) / kpool then
            (pick (firstToken decodes prefills b + t)
              (prefills[b].pools compress kpool t)).count (token / kpool)
          else if token ≤ prefills[b].position t then 1 else 0) ∧
      (¬ Scored kpool workspaceSize maxLogitsBytes decodes prefills
          (firstToken decodes prefills b + t) →
        row = List.replicate width (-1) ∧ prefills[b].holder.entries.length < kpool) := by
  have room := le_tailRing positive numSpec
  have sound : state.Sound compress kpool :=
    (inv_of_reachable positive (by omega) (by omega) reachable).sound
  have real : 0 ≤ prefills[b].position t := Int.natCast_nonneg _
  refine ⟨_, rfl, fun scored => ?_,
    row_of_left_out positive sound held sees built pick width workspace inside owned⟩
  obtain ⟨behind, row⟩ :=
    row_of_scored sound held sees built pick width workspace inside owned scored
  obtain ⟨bounded, counts⟩ := expandRow_tokens (pick (firstToken decodes prefills b + t)
    (prefills[b].pools compress kpool t)) positive real fits
  rw [row]
  refine ⟨fun token listed => ?_, fun token nonnegative => ?_⟩
  · rcases List.mem_append.mp listed with own | behind
    · exact bounded token own
    · have blank := List.eq_of_mem_replicate (List.mem_of_mem_drop behind)
      omega
  · rw [count_blanks _ _ _ nonnegative, counts token nonnegative]

/-- The second token of a prompt, when every pool is selected. -/
theorem stepTopk_tokens_prompt : ∃ memory : Cell → ℕ, ∃ bounds : ChunkSpec → MetaCell → ℕ,
    Reachable (cache List.sum 2 2 (tailRing 2 2) fun _ => 0) (alone (tailRing 2 2) memory [5, 6, 9] 3) ∧
      (stepTopk .overwrite memory (fun _ keys => (List.range keys.length).map Int.ofNat) 2 8 4 8 [] [prompt] bounds
        (fun _ => 0) 2).count 1 = 1 := by
  obtain ⟨memory, prefilled⟩ := prompt_prefilled
  obtain ⟨bounds, built⟩ := exists_built 2 [prompt.request] (stepChunks 2 8 4 [] [prompt])
  obtain ⟨row, here, scored, left_out⟩ := @stepTopk_tokens _ _ _ _ _ _ _ _ _ .overwrite memory _ [prompt] _ 0 2
    Nat.zero_lt_two prefilled (prompt_held memory) (fun _ _ _ _ => rfl) built
    (fun _ keys => (List.range keys.length).map Int.ofNat) 8 (fun _ => 0) (by decide) (by decide)
    (by decide)
  refine ⟨memory, bounds, prefilled, ?_⟩
  by_cases keyed : Scored 2 8 4 [] [prompt] 2
  · exact (congrArg (List.count 1) here).trans (((scored keyed).2 1 (by decide)).trans (by decide))
  · exact absurd (left_out keyed).2 (by decide)

/-- A selection with room for all of a token's pools takes each once. Then the long path gives the token
what the short path does exactly if its chunk has a key. -/
theorem stepTopk_short_iff (positive : 0 < kpool)
    (reachable : Reachable (cache compress kpool numSpec (tailRing kpool numSpec) blank) state)
    (held : ∀ reader ∈ decodes ++ prefills, ∃ id, state.holders id = some reader.holder)
    (sees : Sees seen state prefills)
    (built : Built kpool ((decodes ++ prefills).map Reader.request)
      (stepChunks kpool workspaceSize maxLogitsBytes decodes prefills) bounds)
    {pick : ℕ → List V → List ℤ} {selectK width : ℕ}
    (every : ∀ token keys, keys.length ≤ selectK → ∀ pool : ℕ, pool < keys.length →
      (pick token keys).count (pool : ℤ) = 1)
    (workspace : ℕ → V) (inside : b < prefills.length) (owned : t < prefills[b].query)
    (fits : prefills[b].position t + 1 < 2 ^ 31) (wide : prefills[b].position t < width)
    (few : (prefills[b].position t + 1) / kpool ≤ selectK) :
    ((stepTopk gather seen pick kpool workspaceSize maxLogitsBytes width decodes prefills bounds
        workspace (firstToken decodes prefills b + t)).filter (0 ≤ ·)).Perm
      ((shortRow width (prefills[b].position t)).filter (0 ≤ ·)) ↔
    Scored kpool workspaceSize maxLogitsBytes decodes prefills (firstToken decodes prefills b + t) := by
  have room := le_tailRing positive numSpec
  have sound : state.Sound compress kpool :=
    (inv_of_reachable positive (by omega) (by omega) reachable).sound
  have real : 0 ≤ prefills[b].position t := Int.natCast_nonneg _
  have length : ((prefills[b].pools compress kpool t).length : ℤ) =
      (prefills[b].position t + 1) / kpool := by
    rw [Reader.pools, List.length_map, List.length_range, Reader.position, Int.natCast_ediv,
      Int.natCast_succ]
  constructor
  · intro alike
    by_contra left_out
    obtain ⟨row, _⟩ :=
      row_of_left_out positive sound held sees built pick width workspace inside owned left_out
    have counted := alike.count_eq 0
    rw [row, List.count_filter (by decide), List.count_filter (by decide),
      count_shortRow wide (le_refl 0), if_pos real, List.count_replicate] at counted
    cases counted
  · intro scored
    obtain ⟨behind, row⟩ :=
      row_of_scored sound held sees built pick width workspace inside owned scored
    rw [row]
    refine perm_shortRow wide fun token nonnegative => ?_
    rw [count_blanks _ _ _ nonnegative]
    refine count_expandRow_every positive real fits (fun pid low high => ?_) nonnegative
    obtain ⟨pool, rfl⟩ := Int.eq_ofNat_of_zero_le low
    exact every _ _ (by omega) pool (by omega)

/-- The second token of a prompt, which may select two pools. -/
theorem stepTopk_short_iff_prompt : ∃ memory : Cell → ℕ, ∃ bounds : ChunkSpec → MetaCell → ℕ,
    Reachable (cache List.sum 2 2 (tailRing 2 2) fun _ => 0) (alone (tailRing 2 2) memory [5, 6, 9] 3) ∧
      (((stepTopk .overwrite memory (fun _ keys => (List.range keys.length).map Int.ofNat) 2 8 4 8 [] [prompt]
          bounds (fun _ => 0) 2).filter (0 ≤ ·)).Perm ((shortRow 8 2).filter (0 ≤ ·)) ↔
        Scored 2 8 4 [] [prompt] 2) := by
  obtain ⟨memory, prefilled⟩ := prompt_prefilled
  obtain ⟨bounds, built⟩ := exists_built 2 [prompt.request] (stepChunks 2 8 4 [] [prompt])
  have every : ∀ (_ : ℕ) (keys : List ℕ), keys.length ≤ 2 → ∀ pool : ℕ, pool < keys.length →
      ((List.range keys.length).map Int.ofNat).count (pool : ℤ) = 1 := by
    intro _ keys _ pool below
    refine List.count_eq_one_of_mem (List.nodup_range.map fun _ _ same => Int.ofNat.inj same) ?_
    exact List.mem_map.mpr ⟨pool, List.mem_range.mpr below, rfl⟩
  exact ⟨memory, bounds, prefilled, @stepTopk_short_iff _ _ _ _ _ _ _ _ _ .overwrite memory _ [prompt] _ 0 2
    Nat.zero_lt_two prefilled (prompt_held memory) (fun _ _ _ _ => rfl) built
    (fun _ keys => (List.range keys.length).map Int.ofNat) 2 8 every (fun _ => 0) (by decide)
    (by decide) (by decide) (by decide) (by decide)⟩

end Steps

end GlmSpark.PrefillReads
