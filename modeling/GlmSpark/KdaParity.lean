import GlmSpark.KdaSimulation

/-!
# Parities on recycled slots

A program derives the parity of its records from its own marker word in slot 1. Slots
come from a shared pool and are never cleared, so at first these words are anything.
From one parity a head every step keeps one parity a head, and so does every step of
one token; a full step of more tokens brings all of them to the same. Only a step that
stores records before any of that can leave two parities in one head.
-/

namespace GlmSpark.KdaParity

open Launch Program KdaStash KdaSimulation Runs

section Verify

variable {σ F : Type} [DecidableEq σ] [Field F] {shape : Shape}

/-- The memory of the device, and which sequences have had a full step of two or more tokens. -/
structure World (σ F : Type) (shape : Shape) where
  memory : Memory σ F shape
  cleared : σ → Bool

/-- A verify step: what every sequence is given, and the memory some interleaving ends with. -/
structure VerifyStep (σ F : Type) (shape : Shape) where
  requests : σ → Request F shape
  final : Memory σ F shape

/-- A sequence stores a record in slot 1. -/
def StoresRecords (request : Request F shape) : Prop :=
  1 < request.tokens.length ∧ request.fullMode = false

/-- After a verify step. -/
def next (world : World σ F shape) (event : VerifyStep σ F shape) : World σ F shape where
  memory := event.final
  cleared sequence := world.cleared sequence ||
    decide (1 < (event.requests sequence).tokens.length) && (event.requests sequence).fullMode

variable (layer : Layer F shape) (table : SlotTable σ) (start : Memory σ F shape)

/-- Some interleaving of the step's programs ends with its memory. -/
def launched (world : World σ F shape) (event : VerifyStep σ F shape) : Prop :=
  Launches (stashPrograms layer table event.requests) world.memory event.final

/-- The step stores records only for sequences whose leftover words derive one parity a head, or
which have had a full step. -/
def sound (world : World σ F shape) (event : VerifyStep σ F shape) : Prop :=
  launched layer table world event ∧ ∀ sequence, StoresRecords (event.requests sequence) →
    UniformAt table start sequence ∨ world.cleared sequence = true

/-- All runs of verify steps from any leftovers whose steps meet a condition. -/
def verifyRuns (allowed : World σ F shape → VerifyStep σ F shape → Prop) :
    System (World σ F shape) (VerifyStep σ F shape) where
  initial := ⟨start, fun _ => false⟩
  step := next
  allowed := allowed

variable {layer table start} {world : World σ F shape} {event : VerifyStep σ F shape}

/-- Sequences with uniform leftovers or a full step behind them have one parity a head. -/
def Agreed (table : SlotTable σ) (start : Memory σ F shape) (world : World σ F shape) : Prop :=
  ∀ sequence, UniformAt table start sequence ∨ world.cleared sequence = true →
    UniformAt table world.memory sequence

/-- A sound step starts from one parity a head wherever it stores records. -/
theorem settled_of_sound (agreed : Agreed table start world)
    (sent : sound layer table start world event) : Settled table event.requests world.memory :=
  fun sequence several stash => agreed sequence (sent.2 sequence ⟨several, stash⟩)

/-- A sound step keeps one parity a head. -/
theorem agreed_next (agreed : Agreed table start world)
    (sent : sound layer table start world event) : Agreed table start (next world event) := by
  have settled := settled_of_sound agreed sent
  intro sequence certain head block other
  change previousParity table event.final _ = previousParity table event.final _
  rw [settled_parity layer event.requests settled sent.1,
    settled_parity layer event.requests settled sent.1]
  by_cases full : 1 < (event.requests sequence).tokens.length ∧
      (event.requests sequence).fullMode = true
  · rw [if_pos full.1, if_pos full.2, if_pos full.1, if_pos full.2]
  · have before : UniformAt table start sequence ∨ world.cleared sequence = true := by
      refine certain.imp_right fun cleared => ?_
      have now : ¬ (decide (1 < (event.requests sequence).tokens.length) &&
          (event.requests sequence).fullMode) = true := by simpa using full
      exact ((Bool.or_eq_true _ _).mp cleared).resolve_right now
    rw [agreed sequence before head block other]

/-- In every run of sound steps the sequences that may store records have one parity a head. -/
theorem agreed_reachable
    (reachable : Reachable (verifyRuns start (sound layer table start)) world) :
    Agreed table start world := by
  apply reachable.invariant
  · intro sequence certain
    rcases certain with uniform | cleared
    · exact uniform
    · exact absurd cleared Bool.false_ne_true
  · intro world event agreed sent
    exact agreed_next agreed sent

/-- After every step of two or more tokens of every run of sound steps, all blocks of a head read
one parity from slot 1. Where they wrote records there it is the parity in every marker, and the half
of the side buffer it names holds what the first block wrote for each token of the step. -/
theorem parities_agree (layer : Layer F shape) (table : SlotTable σ) (start : Memory σ F shape)
    {world : World σ F shape} (reachable : Reachable (verifyRuns start (sound layer table start)) world)
    (event : VerifyStep σ F shape) (sent : sound layer table start world event) (sequence : σ)
    (several : 1 < (event.requests sequence).tokens.length) (head : Fin shape.HV) :
    ∃ parity, (∀ block, previousParity table event.final (sequence, head, block) = parity) ∧
      ((event.requests sequence).fullMode = false →
        (∀ block, markAt event.final (table.slot sequence 1) head block = .mark parity) ∧
        ((0 < shape.NV) → ∀ t token, 1 ≤ t → (event.requests sequence).tokens[t]? = some token →
          ∀ col, event.final (.aux (table.slot sequence t) head parity .key col) =
              .value (layer.normalise (token.k (queryHead head)) col) ∧
            event.final (.aux (table.slot sequence t) head parity .decay col) =
              .value (layer.decay token head col))) := by
  have agreed := agreed_reachable reachable
  have settled := settled_of_sound agreed sent
  cases mode : (event.requests sequence).fullMode with
  | true =>
    refine ⟨true, fun block => ?_, fun stash => nomatch stash⟩
    rw [settled_parity layer event.requests settled sent.1, if_pos several, if_pos mode]
  | false =>
    have uniform := settled sequence several mode head
    by_cases blocks : 0 < shape.NV
    · have leaves := fun block t token listed => stash_leaves layer event.requests settled sent.1
        sequence head block t token listed
      have record : ∀ t, 1 ≤ t → ¬ (t = 0 ∨ (event.requests sequence).fullMode = true) := by
        intro t later
        rw [mode]
        simp only [Bool.false_eq_true, or_false]
        omega
      have marked : ∀ block, markAt event.final (table.slot sequence 1) head block =
          .mark (!previousParity table world.memory (sequence, head, ⟨0, blocks⟩)) := by
        intro block
        rw [((leaves block 1 _ (List.getElem?_eq_getElem several)).own (record 1 le_rfl)).1,
          uniform block ⟨0, blocks⟩]
      refine ⟨!previousParity table world.memory (sequence, head, ⟨0, blocks⟩), fun block => ?_,
        fun _ => ⟨marked, fun _ t token later listed col => ?_⟩⟩
      · rw [previousParity, marked block, parityOf]
      · exact (leaves ⟨0, blocks⟩ t token listed).shared (record t later) rfl col
    · have none : ∀ block : Fin shape.NV, False := fun block => blocks (Nat.zero_lt_of_lt block.isLt)
      exact ⟨true, fun block => (none block).elim, fun _ => ⟨fun block => (none block).elim,
        fun some => absurd some blocks⟩⟩

/-- The marker a program leaves in slot 1 when it runs alone and stores records. -/
theorem run_marks (layer : Layer F shape) (table : SlotTable σ) (requests : σ → Request F shape)
    (memory : Memory σ F shape) (sequence : σ) (head : Fin shape.HV) (block : Fin shape.NV)
    (stores : StoresRecords (requests sequence)) :
    markAt (run (stashPrograms layer table requests (sequence, head, block)) memory).2
      (table.slot sequence 1) head block =
        .mark (!previousParity table memory (sequence, head, block)) := by
  have record : ¬ (1 = 0 ∨ (requests sequence).fullMode = true) := by simp [stores.2]
  exact ((run_leaves layer requests memory sequence head block 1 _
    (List.getElem?_eq_getElem stores.1)).own record).1

/-- A program leaves the markers of every other program alone. -/
theorem run_keeps (layer : Layer F shape) (table : SlotTable σ) (requests : σ → Request F shape)
    (memory : Memory σ F shape) {one : Index σ shape} (sequence : σ) (head : Fin shape.HV)
    (block : Fin shape.NV) (different : one ≠ (sequence, head, block)) :
    markAt (run (stashPrograms layer table requests one) memory).2 (table.slot sequence 1) head block =
      markAt memory (table.slot sequence 1) head block := by
  apply run_unwritten
  intro wrote
  obtain ⟨t, _, there⟩ := (stash_bounds layer table requests one memory _).2 wrote
  exact different (belongs_unique table (belongs_of_tokenCell table there)
    (Or.inl ⟨1, _, _, rfl⟩))

end Verify

section Leftovers

/-- The only head. -/
def onlyHead : Fin twoBlocks.HV := ⟨0, by decide⟩

/-- The block whose program stores the shared vectors. -/
def firstBlock : Fin twoBlocks.NV := ⟨0, by decide⟩

/-- The other block. -/
def otherBlock : Fin twoBlocks.NV := ⟨1, by decide⟩

/-- Words of other users of the pool: the first block of slot 1 ends in an old marker. -/
def leftovers : Memory Unit ℚ twoBlocks
  | .state slot _ block _ col =>
    if slot = 2 ∧ block = firstBlock ∧ col = markCol twoBlocks then .mark false else .value 0
  | _ => .value 0

/-- The program of the first block runs before that of the other one. -/
theorem launched_in_turn (requests : Unit → Request ℚ twoBlocks) (memory : Memory Unit ℚ twoBlocks) :
    Launches (stashPrograms plainLayer oneSequence requests) memory
      (run (stashPrograms plainLayer oneSequence requests ((), onlyHead, otherBlock))
        (run (stashPrograms plainLayer oneSequence requests ((), onlyHead, firstBlock))
          memory).2).2 := by
  have first := runs_out (stashPrograms plainLayer oneSequence requests) memory
    ((), onlyHead, firstBlock)
  have second := runs_out
    (Function.update (stashPrograms plainLayer oneSequence requests) ((), onlyHead, firstBlock)
      (.done ()))
    (run (stashPrograms plainLayer oneSequence requests ((), onlyHead, firstBlock)) memory).2
    ((), onlyHead, otherBlock)
  rw [Function.update_of_ne (by decide)] at second
  have ended : Function.update (Function.update (stashPrograms plainLayer oneSequence requests)
      ((), onlyHead, firstBlock) (.done ())) ((), onlyHead, otherBlock) (.done ()) =
        fun _ => .done () := by
    funext index
    have either : index = ((), onlyHead, firstBlock) ∨ index = ((), onlyHead, otherBlock) := by
      revert index
      decide
    rcases either with rfl | rfl
    · rw [Function.update_of_ne (by decide), Function.update_self]
    · rw [Function.update_self]
  rw [ended] at second
  exact first.trans second

/-- A first step of two tokens on such words leaves both parities in one head. -/
theorem leftovers_disagree : ∃ event : VerifyStep Unit ℚ twoBlocks,
    launched plainLayer oneSequence ⟨leftovers, fun _ => false⟩ event ∧
      (event.requests ()).tokens.length = 2 ∧
      markAt event.final (oneSequence.slot () 1) onlyHead firstBlock = .mark true ∧
      markAt event.final (oneSequence.slot () 1) onlyHead otherBlock = .mark false := by
  have stores : StoresRecords (equalTokens 2 1) := ⟨by decide, rfl⟩
  have marks := fun memory block => run_marks plainLayer oneSequence (fun _ => equalTokens 2 1)
    memory () onlyHead block stores
  have apart : ((), onlyHead, otherBlock) ≠ ((), onlyHead, firstBlock) := by decide
  have ended := launched_in_turn (fun _ => equalTokens 2 1) leftovers
  refine ⟨⟨fun _ => equalTokens 2 1, _⟩, ended, rfl, ?_, ?_⟩
  · exact (run_keeps plainLayer oneSequence _ _ () onlyHead firstBlock apart).trans
      (marks leftovers firstBlock)
  · refine (marks _ otherBlock).trans ?_
    have kept := run_keeps plainLayer oneSequence (fun _ => equalTokens 2 1) leftovers () onlyHead
      otherBlock apart.symm
    rw [previousParity, kept]
    rfl

/-- A full step of two tokens. -/
def fullTokens : Request ℚ twoBlocks := { equalTokens 2 1 with fullMode := true }

/-- After a full step on the same words the blocks agree on the records of the next one. -/
theorem parities_agree_cleared : ∃ (world : World Unit ℚ twoBlocks)
    (event : VerifyStep Unit ℚ twoBlocks),
    Reachable (verifyRuns leftovers (sound plainLayer oneSequence leftovers)) world ∧
      sound plainLayer oneSequence leftovers world event ∧
      event.requests () = equalTokens 2 1 ∧
      ∃ parity, ∀ block, markAt event.final (oneSequence.slot () 1) onlyHead block = .mark parity := by
  obtain ⟨first, cleared⟩ := exists_launch
    (stashPrograms plainLayer oneSequence fun _ => fullTokens) leftovers
  obtain ⟨second, stored⟩ := exists_launch
    (stashPrograms plainLayer oneSequence fun _ => equalTokens 2 1) first
  have firstSound : sound plainLayer oneSequence leftovers ⟨leftovers, fun _ => false⟩
      ⟨fun _ => fullTokens, first⟩ :=
    ⟨cleared, fun _ stores => (nomatch stores.2)⟩
  have reachable : Reachable (verifyRuns leftovers (sound plainLayer oneSequence leftovers))
      (next ⟨leftovers, fun _ => false⟩ ⟨fun _ => fullTokens, first⟩) :=
    Reachable.initial.run [VerifyStep.mk (fun _ => fullTokens) first] ⟨firstSound, trivial⟩
  have secondSound : sound plainLayer oneSequence leftovers
      (next ⟨leftovers, fun _ => false⟩ ⟨fun _ => fullTokens, first⟩)
      ⟨fun _ => equalTokens 2 1, second⟩ :=
    ⟨stored, fun _ _ => Or.inr rfl⟩
  refine ⟨_, ⟨fun _ => equalTokens 2 1, second⟩, reachable, secondSound, rfl, ?_⟩
  obtain ⟨parity, _, records⟩ := parities_agree plainLayer oneSequence leftovers reachable
    ⟨fun _ => equalTokens 2 1, second⟩ secondSound () (by decide : 1 < 2) onlyHead
  exact ⟨parity, (records rfl).1⟩

end Leftovers

end GlmSpark.KdaParity
