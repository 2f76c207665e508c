import Mathlib.Data.Fintype.Basic
import Mathlib.Logic.Function.Basic
import Mathlib.Logic.Relation

/-!
# Launches of programs over one memory

A program loads and stores regions of a shared memory and computes in between. A
launch runs many programs at once, in any interleaving of their accesses. When no
program reads or writes a cell that another one writes, running alone, every
interleaving leaves in each cell what its writer would have left there alone.

Nothing here depends on what the cells and words are.
-/

namespace GlmSpark.Launch

variable {Cell Word α β ι : Type}

/-- A program: it ends with a value, loads a region of the memory, or stores words. -/
inductive Program (Cell Word α : Type) : Type
  | done (value : α)
  | load (region : Cell → Bool) (next : (Cell → Word) → Program Cell Word α)
  | store (cells : Cell → Option Word) (next : Program Cell Word α)

namespace Program

/-- Continue with a program that depends on the value of a first one. -/
def bind : Program Cell Word α → (α → Program Cell Word β) → Program Cell Word β
  | done value, continuation => continuation value
  | load region next, continuation => load region fun memory => bind (next memory) continuation
  | store cells next, continuation => store cells (bind next continuation)

/-- Programs are sequenced at their results; loads and stores stay in order. -/
instance : Monad (Program Cell Word) where
  pure := done
  bind := bind

/-- The memory a load of a region sees; cells outside it are blank. -/
def visible [Inhabited Word] (region : Cell → Bool) (memory : Cell → Word) : Cell → Word :=
  fun cell => if region cell then memory cell else default

/-- The memory after a store: cells outside the store keep their words. -/
def written (cells : Cell → Option Word) (memory : Cell → Word) : Cell → Word :=
  fun cell => (cells cell).getD (memory cell)

section Alone

variable [Inhabited Word]

/-- Run a program alone, without other programs in between. -/
def run : Program Cell Word α → (Cell → Word) → α × (Cell → Word)
  | done value, memory => (value, memory)
  | load region next, memory => run (next (visible region memory)) memory
  | store cells next, memory => run next (written cells memory)

/-- The cells a program reads when it runs alone. -/
def Reads : Program Cell Word α → (Cell → Word) → Cell → Prop
  | done _, _, _ => False
  | load region next, memory, cell =>
    region cell = true ∨ Reads (next (visible region memory)) memory cell
  | store cells next, memory, cell => Reads next (written cells memory) cell

/-- The cells a program writes when it runs alone. -/
def Writes : Program Cell Word α → (Cell → Word) → Cell → Prop
  | done _, _, _ => False
  | load region next, memory, cell => Writes (next (visible region memory)) memory cell
  | store cells next, memory, cell =>
    (cells cell).isSome = true ∨ Writes next (written cells memory) cell

/-- A program that only returns leaves memory alone. -/
@[simp] theorem run_pure (value : α) (memory : Cell → Word) :
    run (pure value) memory = (value, memory) := rfl

/-- It reads no cell, from any memory. -/
@[simp] theorem reads_pure (value : α) (memory : Cell → Word) (cell : Cell) :
    Reads (pure value) memory cell ↔ False := Iff.rfl

/-- And it writes none. -/
@[simp] theorem writes_pure (value : α) (memory : Cell → Word) (cell : Cell) :
    Writes (pure value) memory cell ↔ False := Iff.rfl

/-- A sequence runs its second part in the memory the first one left. -/
@[simp] theorem run_bind (program : Program Cell Word α) (next : α → Program Cell Word β)
    (memory : Cell → Word) :
    run (program >>= next) memory = run (next (run program memory).1) (run program memory).2 := by
  change run (bind program next) memory = _
  induction program generalizing memory with
  | done value => rfl
  | load region _ ih => exact ih _ memory
  | store cells _ ih => exact ih _

/-- A sequence reads what its parts read. -/
theorem reads_bind (program : Program Cell Word α) (next : α → Program Cell Word β)
    (memory : Cell → Word) (cell : Cell) :
    Reads (program >>= next) memory cell ↔ Reads program memory cell ∨
      Reads (next (run program memory).1) (run program memory).2 cell := by
  change Reads (bind program next) memory cell ↔ _
  induction program generalizing memory with
  | done value => simp [bind, Reads, run]
  | load region _ ih =>
    simp only [bind, Reads, run, ih, or_assoc]
  | store cells _ ih => exact ih _

/-- A sequence writes what its parts write. -/
theorem writes_bind (program : Program Cell Word α) (next : α → Program Cell Word β)
    (memory : Cell → Word) (cell : Cell) :
    Writes (program >>= next) memory cell ↔ Writes program memory cell ∨
      Writes (next (run program memory).1) (run program memory).2 cell := by
  change Writes (bind program next) memory cell ↔ _
  induction program generalizing memory with
  | done value => simp [bind, Writes, run]
  | load region _ ih => exact ih _ memory
  | store cells _ ih =>
    simp only [bind, Writes, run, ih, or_assoc]

/-- A cell that is not written keeps its word. -/
theorem run_unwritten (program : Program Cell Word α) (memory : Cell → Word) (cell : Cell)
    (unwritten : ¬ Writes program memory cell) : (run program memory).2 cell = memory cell := by
  induction program generalizing memory with
  | done value => rfl
  | load region _ ih => exact ih _ memory unwritten
  | store cells _ ih =>
    rw [Writes, not_or] at unwritten
    rw [run, ih _ unwritten.2, written, Option.getD_eq_iff]
    exact Or.inr ⟨by simpa using unwritten.1, rfl⟩

/-- A program cannot tell memories apart that agree where it reads. -/
theorem run_congr (program : Program Cell Word α) (memory other : Cell → Word)
    (agree : ∀ cell, Reads program memory cell → memory cell = other cell) :
    (run program other).1 = (run program memory).1 ∧
      (∀ cell, Reads program other cell ↔ Reads program memory cell) ∧
      (∀ cell, Writes program other cell ↔ Writes program memory cell) ∧
      ∀ cell, Writes program memory cell →
        (run program other).2 cell = (run program memory).2 cell := by
  induction program generalizing memory other with
  | done value => exact ⟨rfl, fun _ => Iff.rfl, fun _ => Iff.rfl, fun _ never => never.elim⟩
  | load region next ih =>
    have same : visible region other = visible region memory := by
      funext cell
      rw [visible, visible]
      split
      next inside => exact (agree cell (Or.inl inside)).symm
      next => rfl
    obtain ⟨value, reads, writes, left⟩ :=
      ih (visible region memory) memory other fun cell read => agree cell (Or.inr read)
    refine ⟨?_, fun cell => ?_, fun cell => ?_, fun cell wrote => ?_⟩
    · rw [run, run, same, value]
    · rw [Reads, Reads, same, reads cell]
    · rw [Writes, Writes, same, writes cell]
    · rw [run, run, same, left cell wrote]
  | store cells next ih =>
    have still : ∀ cell, Reads next (written cells memory) cell →
        written cells memory cell = written cells other cell := by
      intro cell read
      rw [written, written, agree cell read]
    obtain ⟨value, reads, writes, left⟩ := ih (written cells memory) (written cells other) still
    refine ⟨value, reads, fun cell => or_congr Iff.rfl (writes cell), fun cell wrote => ?_⟩
    by_cases later : Writes next (written cells memory) cell
    · exact left cell later
    · have here : (cells cell).isSome = true := wrote.resolve_right later
      obtain ⟨word, stored⟩ := Option.isSome_iff_exists.mp here
      rw [run, run, run_unwritten _ _ _ later,
        run_unwritten _ _ _ fun wroteOther => later ((writes cell).mp wroteOther),
        written, written, stored, Option.getD_some, Option.getD_some]

/-- All loads and stores of a program lie in the given cells, whatever it reads. -/
def Within (reads writes : Cell → Prop) : Program Cell Word α → Prop
  | done _ => True
  | load region next =>
    (∀ cell, region cell = true → reads cell) ∧ ∀ memory, Within reads writes (next memory)
  | store cells next =>
    (∀ cell, (cells cell).isSome = true → writes cell) ∧ Within reads writes next

variable {reads writes : Cell → Prop}

omit [Inhabited Word] in
/-- A sequence stays within what its parts stay within. -/
theorem Within.bind {program : Program Cell Word α} {next : α → Program Cell Word β}
    (first : Within reads writes program) (later : ∀ value, Within reads writes (next value)) :
    Within reads writes (program >>= next) := by
  change Within reads writes (Program.bind program next)
  induction program with
  | done value => exact later value
  | load region _ ih => exact ⟨first.1, fun memory => ih memory (first.2 memory)⟩
  | store cells _ ih => exact ⟨first.1, ih first.2⟩

omit [Inhabited Word] in
/-- A program within some bounds is within larger ones. -/
theorem Within.mono {program : Program Cell Word α} {moreReads moreWrites : Cell → Prop}
    (within : Within reads writes program) (readable : ∀ cell, reads cell → moreReads cell)
    (writable : ∀ cell, writes cell → moreWrites cell) : Within moreReads moreWrites program := by
  induction program with
  | done value => trivial
  | load region _ ih =>
    exact ⟨fun cell inside => readable cell (within.1 cell inside),
      fun memory => ih memory (within.2 memory)⟩
  | store cells _ ih =>
    exact ⟨fun cell inside => writable cell (within.1 cell inside), ih within.2⟩

/-- A program reads and writes only what it stays within. -/
theorem Within.bounds {program : Program Cell Word α} (within : Within reads writes program)
    (memory : Cell → Word) (cell : Cell) :
    (Reads program memory cell → reads cell) ∧ (Writes program memory cell → writes cell) := by
  induction program generalizing memory with
  | done value => exact ⟨False.elim, False.elim⟩
  | load region next ih =>
    obtain ⟨laterReads, laterWrites⟩ := ih (visible region memory) (within.2 _) memory
    exact ⟨fun read => read.elim (within.1 cell) laterReads, laterWrites⟩
  | store cells next ih =>
    obtain ⟨laterReads, laterWrites⟩ := ih within.2 (written cells memory)
    exact ⟨laterReads, fun wrote => wrote.elim (within.1 cell) laterWrites⟩

end Alone

end Program

open Program

section Interleaving

variable [Inhabited Word] [DecidableEq ι]

/-- One access of one program of the launch. -/
inductive Step : (ι → Program Cell Word Unit) × (Cell → Word) →
    (ι → Program Cell Word Unit) × (Cell → Word) → Prop
  | load {programs : ι → Program Cell Word Unit} {memory : Cell → Word} (index : ι)
      (region : Cell → Bool) (next : (Cell → Word) → Program Cell Word Unit)
      (turn : programs index = .load region next) :
      Step (programs, memory)
        (Function.update programs index (next (visible region memory)), memory)
  | store {programs : ι → Program Cell Word Unit} {memory : Cell → Word} (index : ι)
      (cells : Cell → Option Word) (next : Program Cell Word Unit)
      (turn : programs index = .store cells next) :
      Step (programs, memory) (Function.update programs index next, written cells memory)

/-- Some interleaving of the programs ends with this memory. -/
def Launches (programs : ι → Program Cell Word Unit) (memory final : Cell → Word) : Prop :=
  Relation.ReflTransGen Step (programs, memory) (fun _ => .done (), final)

/-- No program reads or writes a cell that another program writes. -/
def RaceFree (programs : ι → Program Cell Word Unit) (memory : Cell → Word) : Prop :=
  ∀ one other, one ≠ other → ∀ cell,
    Reads (programs one) memory cell ∨ Writes (programs one) memory cell →
      ¬ Writes (programs other) memory cell

/-- What a step does to the programs: only one advances, and alone it would end in the same memory;
the others see no difference. -/
theorem step_cases {programs after : ι → Program Cell Word Unit} {memory changed : Cell → Word}
    (free : RaceFree programs memory) (step : Step (programs, memory) (after, changed)) :
    ∃ index, (run (after index) changed).2 = (run (programs index) memory).2 ∧
      (∀ cell, Reads (after index) changed cell → Reads (programs index) memory cell) ∧
      (∀ cell, Writes (after index) changed cell → Writes (programs index) memory cell) ∧
      (∀ cell, ¬ Writes (programs index) memory cell → changed cell = memory cell) ∧
      ∀ other, other ≠ index → after other = programs other ∧
        ∀ cell, Reads (programs other) memory cell → memory cell = changed cell := by
  cases step with
  | load index region next turn =>
    refine ⟨index, ?_, ?_, ?_, fun _ _ => rfl, fun other different => ⟨?_, fun _ _ => rfl⟩⟩
    · rw [Function.update_self, turn, run]
    · rw [Function.update_self, turn]
      exact fun cell read => Or.inr read
    · rw [Function.update_self, turn]
      exact fun cell wrote => wrote
    · exact Function.update_of_ne different ..
  | store index cells next turn =>
    have kept : ∀ cell, ¬ Writes (programs index) memory cell →
        written cells memory cell = memory cell := by
      intro cell unwritten
      rw [turn, Writes, not_or] at unwritten
      rw [written, Option.getD_eq_iff]
      exact Or.inr ⟨by simpa using unwritten.1, rfl⟩
    refine ⟨index, ?_, ?_, ?_, kept, fun other different => ⟨?_, fun cell read => ?_⟩⟩
    · rw [Function.update_self, turn, run]
    · rw [Function.update_self, turn]
      exact fun cell read => read
    · rw [Function.update_self, turn]
      exact fun cell wrote => Or.inr wrote
    · exact Function.update_of_ne different ..
    · exact (kept cell (free other index different cell (Or.inl read))).symm

/-- A step of one program creates no race among what is left of all of them. -/
theorem RaceFree.step {programs after : ι → Program Cell Word Unit} {memory changed : Cell → Word}
    (free : RaceFree programs memory) (step : Step (programs, memory) (after, changed)) :
    RaceFree after changed := by
  obtain ⟨index, _, reads, writes, _, others⟩ := step_cases free step
  have before : ∀ one cell, (Reads (after one) changed cell → Reads (programs one) memory cell) ∧
      (Writes (after one) changed cell → Writes (programs one) memory cell) := by
    intro one cell
    by_cases same : one = index
    · subst same
      exact ⟨reads cell, writes cell⟩
    · obtain ⟨kept, agree⟩ := others one same
      obtain ⟨_, sameReads, sameWrites, _⟩ := run_congr (programs one) memory changed agree
      rw [kept]
      exact ⟨(sameReads cell).mp, (sameWrites cell).mp⟩
  intro one other different cell touched wrote
  apply free one other different cell _ ((before other cell).2 wrote)
  exact touched.imp (before one cell).1 (before one cell).2

/-- In a launch without races a cell that at most one program writes ends as that program alone
would leave it. -/
theorem launches_alone {programs : ι → Program Cell Word Unit} {memory final : Cell → Word}
    (free : RaceFree programs memory) (launch : Launches programs memory final) (index : ι)
    (cell : Cell) (owned : ∀ other, other ≠ index → ¬ Writes (programs other) memory cell) :
    final cell = (run (programs index) memory).2 cell := by
  have general : ∀ state : (ι → Program Cell Word Unit) × (Cell → Word),
      Relation.ReflTransGen Step state (fun _ => .done (), final) → RaceFree state.1 state.2 →
        (∀ other, other ≠ index → ¬ Writes (state.1 other) state.2 cell) →
          final cell = (run (state.1 index) state.2).2 cell := by
    intro state execution
    induction execution using Relation.ReflTransGen.head_induction_on with
    | refl => exact fun _ _ => rfl
    | @head state next step _ ih =>
      obtain ⟨programs, memory⟩ := state
      obtain ⟨after, changed⟩ := next
      intro free owned
      obtain ⟨moved, result, _, writes, kept, others⟩ := step_cases free step
      have stillOwned : ∀ other, other ≠ index → ¬ Writes (after other) changed cell := by
        intro other different wrote
        apply owned other different
        by_cases same : other = moved
        · subst same
          exact writes cell wrote
        · obtain ⟨unchanged, agree⟩ := others other same
          rw [unchanged] at wrote
          exact ((run_congr _ _ _ agree).2.2.1 cell).mp wrote
      rw [ih (free.step step) stillOwned]
      dsimp only
      by_cases same : index = moved
      · subst same
        rw [result]
      · obtain ⟨unchanged, agree⟩ := others index same
        obtain ⟨_, _, sameWrites, left⟩ := run_congr (programs index) memory changed agree
        rw [unchanged]
        by_cases wrote : Writes (programs index) memory cell
        · exact left cell wrote
        · rw [run_unwritten _ _ _ wrote,
            run_unwritten _ _ _ fun wroteChanged => wrote ((sameWrites cell).mp wroteChanged)]
          exact kept cell (owned moved fun eq => same eq.symm)
  exact general (programs, memory) launch free owned

section Bounded

variable {programs : ι → Program Cell Word Unit} {reads writes : ι → Cell → Prop}
  {memory final : Cell → Word}

omit [DecidableEq ι] in
/-- Programs that stay within bounds that keep them apart do not race. -/
theorem raceFree_of_within
    (within : ∀ index, Within (reads index) (writes index) (programs index))
    (apart : ∀ one other, one ≠ other → ∀ cell, reads one cell ∨ writes one cell →
      ¬ writes other cell) : RaceFree programs memory := by
  intro one other different cell touched wrote
  have bounds := fun index => (within index).bounds memory cell
  exact apart one other different cell (touched.imp (bounds one).1 (bounds one).2)
    ((bounds other).2 wrote)

/-- A cell outside the other programs' bounds ends as one program alone would leave it. -/
theorem launches_inside
    (within : ∀ index, Within (reads index) (writes index) (programs index))
    (apart : ∀ one other, one ≠ other → ∀ cell, reads one cell ∨ writes one cell →
      ¬ writes other cell) (launch : Launches programs memory final) (index : ι) (cell : Cell)
    (others : ∀ other, other ≠ index → ¬ writes other cell) :
    final cell = (run (programs index) memory).2 cell := by
  apply launches_alone (raceFree_of_within within apart) launch
  intro other different wrote
  exact others other different (((within other).bounds memory cell).2 wrote)

omit [Inhabited Word] in
/-- When one program advances within its bound, all stay within theirs. -/
theorem within_update
    (within : ∀ index, Within (reads index) (writes index) (programs index)) (index : ι)
    {rest : Program Cell Word Unit} (bound : Within (reads index) (writes index) rest) (other : ι) :
    Within (reads other) (writes other) (Function.update programs index rest other) := by
  by_cases same : other = index
  · subst same
    rw [Function.update_self]
    exact bound
  · rw [Function.update_of_ne same]
    exact within other

/-- A cell outside every program's bound keeps its word. -/
theorem launches_outside
    (within : ∀ index, Within (reads index) (writes index) (programs index))
    (launch : Launches programs memory final) (cell : Cell)
    (outside : ∀ index, ¬ writes index cell) : final cell = memory cell := by
  have general : ∀ state : (ι → Program Cell Word Unit) × (Cell → Word),
      Relation.ReflTransGen Step state (fun _ => .done (), final) →
        (∀ index, Within (reads index) (writes index) (state.1 index)) →
          final cell = state.2 cell := by
    intro state execution
    induction execution using Relation.ReflTransGen.head_induction_on with
    | refl => exact fun _ => rfl
    | head step _ ih =>
      intro within
      cases step with
      | @load programs memory index region next turn =>
        have bound : Within (reads index) (writes index) (programs index) := within index
        rw [turn] at bound
        exact ih (within_update within index (bound.2 _))
      | @store programs memory index cells next turn =>
        have bound : Within (reads index) (writes index) (programs index) := within index
        rw [turn] at bound
        have kept : cells cell = none :=
          Option.not_isSome_iff_eq_none.mp fun stored => outside index (bound.1 cell stored)
        rw [ih (within_update within index bound.2)]
        change (cells cell).getD (memory cell) = memory cell
        rw [kept, Option.getD_none]
  exact general (programs, memory) launch within

end Bounded

/-- One program of a launch can be run to its end before any other has a turn. -/
theorem runs_out (programs : ι → Program Cell Word Unit) (memory : Cell → Word) (index : ι) :
    Relation.ReflTransGen Step (programs, memory)
      (Function.update programs index (.done ()), (run (programs index) memory).2) := by
  have general : ∀ (program : Program Cell Word Unit) (programs : ι → Program Cell Word Unit)
      (memory : Cell → Word), programs index = program →
      Relation.ReflTransGen Step (programs, memory)
        (Function.update programs index (.done ()), (run program memory).2) := by
    intro program
    induction program with
    | done value =>
      intro programs memory ended
      rw [run, ← ended, Function.update_eq_self]
    | load region next ih =>
      intro programs memory turn
      have rest := ih (visible region memory)
        (Function.update programs index (next (visible region memory))) memory
        (Function.update_self ..)
      rw [Function.update_idem] at rest
      exact rest.head (Step.load index region next turn)
    | store cells next ih =>
      intro programs memory turn
      have rest := ih (Function.update programs index next) (written cells memory)
        (Function.update_self ..)
      rw [Function.update_idem] at rest
      exact rest.head (Step.store index cells next turn)
  exact general _ programs memory rfl

/-- Finitely many programs can always be launched. -/
theorem exists_launch [Fintype ι] (programs : ι → Program Cell Word Unit) (memory : Cell → Word) :
    ∃ final, Launches programs memory final := by
  have general : ∀ (active : List ι) (programs : ι → Program Cell Word Unit)
      (memory : Cell → Word), (∀ index, index ∉ active → programs index = .done ()) →
      ∃ final, Launches programs memory final := by
    intro active
    induction active with
    | nil =>
      intro programs memory ended
      have all : programs = fun _ => .done () := funext fun index => ended index List.not_mem_nil
      exact ⟨memory, all ▸ Relation.ReflTransGen.refl⟩
    | cons index rest ih =>
      intro programs memory ended
      have first := runs_out programs memory index
      obtain ⟨final, later⟩ := ih (Function.update programs index (.done ())) _ (by
        intro other absent
        by_cases same : other = index
        · subst same
          exact Function.update_self ..
        · rw [Function.update_of_ne same]
          exact ended other (by simp [same, absent]))
      exact ⟨final, first.trans later⟩
  exact general Finset.univ.toList programs memory fun index absent =>
    absurd (by simp : index ∈ Finset.univ.toList) absent

end Interleaving

end GlmSpark.Launch
