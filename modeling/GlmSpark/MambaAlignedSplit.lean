import GlmSpark.Blocks

/-!
# Block alignment of chunked prefill

The patched `_mamba_block_aligned_split` clips a prefill chunk. A recurrent state
is written only at chunk ends, into the slot of the block the chunk ends in, and
a later request that hits the prefix cache takes slot `i` to hold the state after
exactly `(i + 1) * block` tokens. The patch aligns to the size a state slot
covers and adds the prompt's last full block to the mandatory stops.

Everything below is about the function as edited: first what one call can
answer, then what every run of calls leaves in the slots.
-/

namespace GlmSpark.MambaAlignedSplit

open Blocks

/-- The scheduler's fields that the split reads. The state block is the Mamba
block when it is set and nonzero, else the cache block. -/
structure SplitConfig where
  blockSize : Nat
  mambaBlockSize : Option Nat
  useEagle : Bool
  maxNumScheduledTokens : Nat
  longPrefillTokenThreshold : Nat
  hashBlockSize : Nat
  mambaPartialCacheHit : Bool
deriving DecidableEq, Repr

/-- The request's fields that the split reads. -/
structure Request where
  numPromptTokens : Nat
  numTokens : Nat
  numComputedTokens : Nat
  sharedPrefixBoundary : Nat
deriving DecidableEq, Repr

/-- `mamba_block_size or block_size`. -/
def stateBlock (config : SplitConfig) : Nat :=
  match config.mambaBlockSize with
  | some (size + 1) => size + 1
  | _ => config.blockSize

/-- The most tokens one prefill chunk may take. -/
def maxPrefillTokens (config : SplitConfig) : Nat :=
  if config.longPrefillTokenThreshold > 0 then
    min config.maxNumScheduledTokens config.longPrefillTokenThreshold
  else config.maxNumScheduledTokens

/-- Where prefill ends; a resumed request replays its output tokens. -/
def prefillEnd (request : Request) : Nat :=
  max request.numPromptTokens (request.numTokens - 1)

/-- The last block-aligned position whose state can be cached. -/
def lastCachePosition (config : SplitConfig) (request : Request) : Nat :=
  let last := request.numTokens - request.numTokens % stateBlock config
  if config.useEagle then max (last - stateBlock config) 0 else last

/-- The end before the mandatory stops: aligned when the chunk does not reach the
prefill end, unless the block is too wide for one chunk. -/
def alignedEnd (config : SplitConfig) (request : Request) (start stop : Nat) : Nat :=
  if stop < prefillEnd request then
    if floorBoundary (stateBlock config) stop > start ∨
        stateBlock config ≤ maxPrefillTokens config then
      floorBoundary (stateBlock config) stop
    else stop
  else stop

/-- The mandatory stops, in the source's order; `0` stands for an absent one. -/
def stops (config : SplitConfig) (request : Request) (start stop : Nat) : List Nat :=
  let block := stateBlock config
  let tail := if config.mambaPartialCacheHit then
    request.numPromptTokens / config.hashBlockSize * config.hashBlockSize else 0
  [ if start % block ≠ 0 then (start / block + 1) * block else 0,
    lastCachePosition config request,
    request.numTokens / block * block,
    if lastCachePosition config request < tail ∧ tail < request.numPromptTokens then tail else 0,
    if start < request.sharedPrefixBoundary ∧ request.sharedPrefixBoundary < stop then
      start + (request.sharedPrefixBoundary - start) / block * block else 0 ]

/-- `_mamba_block_aligned_split` after the two edits: how many of the new tokens are scheduled, so
that a chunk ends at a block of the state. -/
def mambaBlockAlignedSplit (config : SplitConfig) (request : Request)
    (numNewTokens numNewLocalComputedTokens numExternalComputedTokens : Nat) : Nat :=
  let start := request.numComputedTokens + numNewLocalComputedTokens + numExternalComputedTokens
  if start ≥ prefillEnd request then numNewTokens
  else
    let stop := alignedEnd config request start (start + numNewTokens)
    let inside := (stops config request start stop).filter fun s => start < s ∧ s < stop
    inside.min?.getD stop - start

/-- A call of the split from `start` computed tokens. The split reads the computed,
the locally cached and the externally cached tokens in one sum only, which is the
start of the chunk. -/
def chunk (config : SplitConfig) (request : Request) (start numNewTokens : Nat) : Nat :=
  mambaBlockAlignedSplit config { request with numComputedTokens := start } numNewTokens 0 0

section Call

variable (config : SplitConfig) (request : Request)

/-- Past the prefill end the split keeps the requested size. -/
theorem chunk_past_prefill (start new : Nat) (done : prefillEnd request ≤ start) :
    chunk config request start new = new := by
  have same : prefillEnd { request with numComputedTokens := start } ≤ start := done
  simp only [chunk, mambaBlockAlignedSplit, Nat.add_zero]
  exact if_pos same

/-- What one call answers inside prefill: either nothing, or a chunk whose end is
past its start, not past the aligned end, and past no mandatory stop. -/
theorem chunk_cases (start new : Nat) (prefilling : start < prefillEnd request) :
    let stop := alignedEnd config request start (start + new)
    let n := chunk config request start new
    start + n ≤ max start stop ∧ (start < stop → start < start + n) ∧
      ∀ s ∈ stops config request start stop, start < s → s < stop → start + n ≤ s := by
  intro stop n
  have value : n = ((stops config request start stop).filter
      fun s => start < s ∧ s < stop).min?.getD stop - start := by
    have running : ¬ start ≥ prefillEnd request := by omega
    change mambaBlockAlignedSplit _ _ _ _ _ = _
    simp only [mambaBlockAlignedSplit, Nat.add_zero]
    exact if_neg running
  cases least : ((stops config request start stop).filter
      fun s => start < s ∧ s < stop).min? with
  | none =>
    rw [List.min?_eq_none_iff] at least
    rw [least, List.min?_nil, Option.getD_none] at value
    refine ⟨by omega, by omega, ?_⟩
    intro s member after before
    have dropped := List.filter_eq_nil_iff.mp least s member
    simp [after, before] at dropped
  | some first =>
    obtain ⟨member, lower⟩ := List.min?_eq_some_iff.mp least
    rw [least, Option.getD_some] at value
    have inside : start < first ∧ first < stop := by simpa using (List.mem_filter.mp member).2
    refine ⟨by omega, by omega, ?_⟩
    intro s present after before
    have bound : first ≤ s := lower s (by simp [present, after, before])
    omega

/-- The aligned end never exceeds the requested one. -/
theorem alignedEnd_le (start stop : Nat) : alignedEnd config request start stop ≤ stop := by
  unfold alignedEnd
  split
  · split
    · exact floorBoundary_le _ _
    · exact Nat.le_refl _
  · exact Nat.le_refl _

/-- A chunk never takes more than was requested. -/
theorem chunk_le (start new : Nat) : chunk config request start new ≤ new := by
  by_cases prefilling : start < prefillEnd request
  · have bound := (chunk_cases config request start new prefilling).1
    have aligned := alignedEnd_le config request start (start + new)
    omega
  · exact Nat.le_of_eq (chunk_past_prefill config request start new (by omega))

/-- A nonempty chunk runs past no mandatory stop that lies after its start. -/
theorem chunk_stops (start new s : Nat) (prefilling : start < prefillEnd request)
    (mandatory : s ∈ stops config request start (alignedEnd config request start (start + new)))
    (after : start < s) : start + chunk config request start new ≤ s := by
  obtain ⟨bound, _, respected⟩ := chunk_cases config request start new prefilling
  by_cases before : s < alignedEnd config request start (start + new)
  · exact respected s mandatory after before
  · omega

/-- A chunk that starts inside a block does not run past that block. Past the
prefill end one token at most is left, which cannot pass a boundary either. -/
theorem chunk_within_block (start new : Nat) (positive : 0 < stateBlock config)
    (remaining : start + new ≤ request.numTokens) (midBlock : start % stateBlock config ≠ 0) :
    start + chunk config request start new ≤ (start / stateBlock config + 1) * stateBlock config := by
  have next : start < (start / stateBlock config + 1) * stateBlock config := by
    have := lt_floorBoundary_add (stateBlock config) start positive
    rw [floorBoundary] at this
    rw [Nat.add_mul, Nat.one_mul]
    exact this
  by_cases prefilling : start < prefillEnd request
  · exact chunk_stops config request start new _ prefilling (by simp [stops, midBlock]) next
  · have reached : request.numTokens - 1 ≤ start := by
      have := Nat.le_max_right request.numPromptTokens (request.numTokens - 1)
      unfold prefillEnd at prefilling
      omega
    have short := chunk_le config request start new
    omega

/-- With Eagle, no chunk runs past the last block boundary
that lies strictly before the prompt's end. -/
theorem chunk_before_last_block (start new : Nat) (eagle : config.useEagle = true)
    (nonempty : 0 < request.numTokens)
    (after : start < floorBoundary (stateBlock config) (request.numTokens - 1)) :
    start + chunk config request start new ≤
      floorBoundary (stateBlock config) (request.numTokens - 1) := by
  have prefilling : start < prefillEnd request := by
    have below := floorBoundary_le (stateBlock config) (request.numTokens - 1)
    have := Nat.le_max_right request.numPromptTokens (request.numTokens - 1)
    unfold prefillEnd
    omega
  apply chunk_stops config request start new _ prefilling _ after
  rw [floor_pred _ _ nonempty]
  split
  · rename_i aligned
    have whole : request.numTokens / stateBlock config * stateBlock config = request.numTokens :=
      Nat.div_mul_cancel (Nat.dvd_of_mod_eq_zero aligned)
    simp [stops, lastCachePosition, eagle, aligned, floorBoundary, whole]
  · simp [stops, floorBoundary]

/-- A request for the smaller of the per-chunk limit and the remaining tokens is
answered with at least one token: the aligned end can fall back to the start only
when the block is wider than the limit, and then the end is not aligned. -/
theorem chunk_progress (start : Nat) (positive : 0 < stateBlock config)
    (limit : 0 < maxPrefillTokens config) (prompt : request.numPromptTokens ≤ request.numTokens)
    (unfinished : start < request.numTokens) :
    1 ≤ chunk config request start (min (maxPrefillTokens config) (request.numTokens - start)) := by
  by_cases prefilling : start < prefillEnd request
  · have advances : start < alignedEnd config request start
        (start + min (maxPrefillTokens config) (request.numTokens - start)) := by
      unfold alignedEnd
      split
      · rename_i early
        split
        · rename_i allowed
          rcases allowed with past | narrow
          · exact past
          · have whole : min (maxPrefillTokens config) (request.numTokens - start) =
                maxPrefillTokens config := by
              have : prefillEnd request ≤ request.numTokens := by
                unfold prefillEnd
                omega
              omega
            have reach := lt_floorBoundary_add (stateBlock config)
              (start + min (maxPrefillTokens config) (request.numTokens - start)) positive
            omega
        · omega
      · omega
    have grown := (chunk_cases config request start
      (min (maxPrefillTokens config) (request.numTokens - start)) prefilling).2.1 advances
    omega
  · rw [chunk_past_prefill config request start _ (by omega)]
    omega

end Call

/-- The chunk ends of a run. Each step asks for some number of tokens, of which at
most the remaining ones are requested; an empty answer skips the step. -/
def chunkEnds (config : SplitConfig) (request : Request) : Nat → List Nat → List Nat
  | _, [] => []
  | start, asked :: rest =>
    let n := chunk config request start (min asked (request.numTokens - start))
    if n = 0 then chunkEnds config request start rest
    else (start + n) :: chunkEnds config request (start + n) rest

section Run

variable (config : SplitConfig) (request : Request)

/-- A step of a run either skips or ends one chunk, past its start and inside the
request. -/
theorem chunkEnds_cons (start asked : Nat) (rest : List Nat) (inside : start ≤ request.numTokens) :
    chunkEnds config request start (asked :: rest) = chunkEnds config request start rest ∨
      ∃ new stop, start < stop ∧ stop ≤ request.numTokens ∧ start + new ≤ request.numTokens ∧
        stop = start + chunk config request start new ∧
        chunkEnds config request start (asked :: rest) =
          stop :: chunkEnds config request stop rest := by
  by_cases skipped : chunk config request start (min asked (request.numTokens - start)) = 0
  · exact Or.inl (by simp [chunkEnds, skipped])
  · have short := chunk_le config request start (min asked (request.numTokens - start))
    refine Or.inr ⟨min asked (request.numTokens - start), _, ?_, ?_, ?_, rfl, ?_⟩
    · omega
    · omega
    · omega
    · simp [chunkEnds, skipped]

/-- The first chunk end of a run is one chunk after its start. -/
theorem chunkEnds_head (start first : Nat) (asks later : List Nat)
    (inside : start ≤ request.numTokens)
    (ends : chunkEnds config request start asks = first :: later) :
    ∃ new, start < first ∧ start + new ≤ request.numTokens ∧
      first = start + chunk config request start new := by
  induction asks with
  | nil => simp [chunkEnds] at ends
  | cons asked rest ih =>
    rcases chunkEnds_cons config request start asked rest inside with skipped | taken
    · exact ih (skipped ▸ ends)
    · obtain ⟨new, stop, past, _, room, value, unfolded⟩ := taken
      obtain ⟨rfl, _⟩ := List.cons.inj (unfolded.symm.trans ends)
      exact ⟨new, past, room, value⟩

/-- The last chunk end in a state slot is the slot's own boundary. An end inside
the slot is followed by a chunk that starts inside that block and therefore ends
in it again, so it is not the last one. -/
theorem last_end_of_slot (positive : 0 < stateBlock config) (start slot : Nat) (asks : List Nat)
    (inside : start ≤ request.numTokens)
    (reached : (chunkEnds config request start asks).getLast? = some request.numTokens)
    (full : (slot + 1) * stateBlock config ≤ request.numTokens)
    (ended : ∃ stop ∈ chunkEnds config request start asks,
      slotOfEnd (stateBlock config) stop = slot) :
    ((chunkEnds config request start asks).filter
        fun stop => slotOfEnd (stateBlock config) stop == slot).getLast? =
      some ((slot + 1) * stateBlock config) := by
  induction asks generalizing start with
  | nil => simp [chunkEnds] at reached
  | cons asked rest ih =>
    rcases chunkEnds_cons config request start asked rest inside with skipped | taken
    · rw [skipped] at reached ended ⊢
      exact ih start inside reached ended
    obtain ⟨new, stop, past, bounded, _, _, unfolded⟩ := taken
    rw [unfolded] at reached ended ⊢
    have place := slotOfEnd_eq_iff (stateBlock config) stop slot positive (by omega)
    by_cases again : ∃ later ∈ chunkEnds config request stop rest,
        slotOfEnd (stateBlock config) later = slot
    · -- a later end in the slot decides
      have rest_reached : (chunkEnds config request stop rest).getLast? =
          some request.numTokens := by
        obtain ⟨later, member, _⟩ := again
        rw [List.getLast?_cons] at reached
        cases last : (chunkEnds config request stop rest).getLast? with
        | none => simp [List.getLast?_eq_none_iff.mp last] at member
        | some final => simpa [last] using reached
      have found := ih stop bounded rest_reached again
      rw [List.filter_cons]
      split
      · rw [List.getLast?_cons, found, Option.getD_some]
      · exact found
    · -- this end is the last one in the slot
      have here : slotOfEnd (stateBlock config) stop = slot := by
        obtain ⟨other, member, same⟩ := ended
        rcases List.mem_cons.mp member with rfl | later
        · exact same
        · exact absurd ⟨other, later, same⟩ again
      have alone : (chunkEnds config request stop rest).filter
          (fun later => slotOfEnd (stateBlock config) later == slot) = [] := by
        rw [List.filter_eq_nil_iff]
        intro later member same
        exact again ⟨later, member, by simpa using same⟩
      obtain ⟨above, below⟩ := place.mp here
      have atBoundary : stop = (slot + 1) * stateBlock config := by
        by_contra different
        cases continued : chunkEnds config request stop rest with
        | nil =>
          rw [continued] at reached
          simp only [List.getLast?_singleton, Option.some.injEq] at reached
          omega
        | cons next later =>
          obtain ⟨size, after, room, value⟩ :=
            chunkEnds_head config request stop next rest later bounded continued
          have midBlock := remainder_of_inside (stateBlock config) stop slot above (by omega)
          have block : stop / stateBlock config = slot :=
            (div_eq_iff _ _ _ positive).mpr ⟨by omega, by omega⟩
          have stays := chunk_within_block config request stop size positive room midBlock
          rw [block, ← value] at stays
          exact again ⟨next, by simp [continued],
            (slotOfEnd_eq_iff _ _ _ positive (by omega)).mpr ⟨by omega, stays⟩⟩
      rw [List.filter_cons, if_pos (by simpa using here), alone, List.getLast?_singleton,
        atBoundary]

/-- With Eagle, a run that starts before the last block boundary strictly inside
the request and reaches the end stops at that boundary. -/
theorem last_block_materialized (eagle : config.useEagle = true) (start : Nat) (asks : List Nat)
    (before : start < floorBoundary (stateBlock config) (request.numTokens - 1))
    (inside : start ≤ request.numTokens) (nonempty : 0 < request.numTokens)
    (reached : (chunkEnds config request start asks).getLast? = some request.numTokens) :
    floorBoundary (stateBlock config) (request.numTokens - 1) ∈
      chunkEnds config request start asks := by
  induction asks generalizing start with
  | nil => simp [chunkEnds] at reached
  | cons asked rest ih =>
    rcases chunkEnds_cons config request start asked rest inside with skipped | taken
    · rw [skipped] at reached ⊢
      exact ih start before inside reached
    obtain ⟨new, stop, past, bounded, _, value, unfolded⟩ := taken
    rw [unfolded] at reached ⊢
    have respected : stop ≤ floorBoundary (stateBlock config) (request.numTokens - 1) :=
      value ▸ chunk_before_last_block config request start new eagle nonempty before
    rcases Nat.eq_or_lt_of_le respected with same | earlier
    · simp [same]
    · have inner := floorBoundary_le (stateBlock config) (request.numTokens - 1)
      refine List.mem_cons_of_mem _ (ih stop earlier bounded ?_)
      rw [List.getLast?_cons] at reached
      cases last : (chunkEnds config request stop rest).getLast? with
      | none =>
        rw [last] at reached
        simp only [Option.getD_none, Option.some.injEq] at reached
        omega
      | some final => simpa [last] using reached

/-- Chunked prefill is aligned to the state blocks. For a request of `numTokens`
tokens, any start before its end and any requested sizes: in every run that
reaches the end, each full slot some chunk ended in was last written at exactly
its boundary; with Eagle and a fresh prompt, a run that starts before the last
block the coordinator can hit ends a chunk exactly there; and a request for the
smaller of the per-chunk limit and the remaining tokens stays within what was
requested and, where the limit is positive, always makes progress. -/
theorem prefill_block_aligned (positive : 0 < stateBlock config)
    (prompt : request.numPromptTokens ≤ request.numTokens)
    (start : Nat) (unfinished : start < request.numTokens) :
    (∀ asks, (chunkEnds config request start asks).getLast? = some request.numTokens →
      (∀ slot, (slot + 1) * stateBlock config ≤ request.numTokens →
        (∃ stop ∈ chunkEnds config request start asks,
          slotOfEnd (stateBlock config) stop = slot) →
        ((chunkEnds config request start asks).filter
            fun stop => slotOfEnd (stateBlock config) stop == slot).getLast? =
          some ((slot + 1) * stateBlock config)) ∧
      (config.useEagle = true → request.numTokens = request.numPromptTokens →
        start < (request.numTokens - 1) / stateBlock config * stateBlock config →
        (request.numTokens - 1) / stateBlock config * stateBlock config ∈
          chunkEnds config request start asks)) ∧
    ((0 < maxPrefillTokens config → 1 ≤ chunk config request start
        (min (maxPrefillTokens config) (request.numTokens - start))) ∧
      chunk config request start (min (maxPrefillTokens config) (request.numTokens - start)) ≤
        min (maxPrefillTokens config) (request.numTokens - start)) := by
  refine ⟨?_, fun limit => chunk_progress config request start positive limit prompt unfinished,
    chunk_le config request start _⟩
  intro asks reached
  refine ⟨?_, ?_⟩
  · intro slot full ended
    exact last_end_of_slot config request positive start slot asks (Nat.le_of_lt unfinished)
      reached full ended
  · intro eagle _ before
    exact last_block_materialized config request eagle start asks before
      (Nat.le_of_lt unfinished) (by omega) reached

end Run

/-- A prompt of 19 tokens in blocks of 8, cache blocks of 4 and chunks of at most
11: the chunks end at 8, 16 and 19. -/
theorem prefill_block_aligned_nineteen :
    let config : SplitConfig := ⟨4, some 8, true, 11, 0, 4, false⟩
    let request : Request := ⟨19, 19, 0, 0⟩
    chunkEnds config request 0 [11, 11, 11] = [8, 16, 19] ∧
      ((chunkEnds config request 0 [11, 11, 11]).filter
        fun stop => slotOfEnd 8 stop == 1).getLast? = some 16 ∧
      16 ∈ chunkEnds config request 0 [11, 11, 11] ∧
      1 ≤ chunk config request 0 11 := by
  have ends : chunkEnds ⟨4, some 8, true, 11, 0, 4, false⟩ ⟨19, 19, 0, 0⟩ 0 [11, 11, 11] =
      [8, 16, 19] := by decide
  obtain ⟨runs, progress, _⟩ := prefill_block_aligned ⟨4, some 8, true, 11, 0, 4, false⟩
    ⟨19, 19, 0, 0⟩ (by decide) (by decide) 0 (by decide)
  have aligned := runs [11, 11, 11] (by rw [ends]; rfl)
  exact ⟨ends, aligned.1 1 (by decide) ⟨16, by rw [ends]; decide, by decide⟩,
    aligned.2 rfl rfl (by decide), progress (by decide)⟩

end GlmSpark.MambaAlignedSplit
