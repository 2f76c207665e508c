import Mathlib.Data.List.Basic

/-!
# Writes into a memory in any order

Several writers put consecutive cells into one memory, each at its own position. Where
every write that touches a cell agrees on its content and at least one touches it, the
cell holds that content afterwards, whatever order the writes took.
-/

namespace GlmSpark.Scatter

universe u
variable {β : Type u}

/-- Consecutive cells put at a position. -/
structure Write (β : Type u) where
  pos : Nat
  cells : List β

/-- The memory after one write: cells the write does not cover are kept. -/
def Write.apply (write : Write β) (memory : Nat → β) : Nat → β := fun q =>
  if write.pos ≤ q then (write.cells[q - write.pos]?).getD (memory q) else memory q

/-- The memory after some writes, one after another. -/
def applyAll (memory : Nat → β) (writes : List (Write β)) : Nat → β :=
  writes.foldl (fun memory write => write.apply memory) memory

/-- A write touches a cell. -/
def Write.Touches (write : Write β) (q : Nat) : Prop :=
  write.pos ≤ q ∧ q < write.pos + write.cells.length

/-- A write puts a content into a cell, if it touches it. -/
def Write.Agrees (write : Write β) (q : Nat) (content : β) : Prop :=
  write.pos ≤ q → ∀ cell, write.cells[q - write.pos]? = some cell → cell = content

/-- A write that does not touch a cell agrees with every content of it. -/
theorem Write.agrees_of_not_touches {write : Write β} {q : Nat} (apart : ¬ write.Touches q)
    (content : β) : write.Agrees q content := by
  intro after cell stored
  have inside := (List.getElem?_eq_some_iff.mp stored).1
  exact absurd ⟨after, by omega⟩ apart

/-- An agreeing write leaves the content or puts it. -/
theorem Write.apply_agrees {write : Write β} {q : Nat} {content : β}
    (agrees : write.Agrees q content) (memory : Nat → β) :
    write.apply memory q = content ∨ write.apply memory q = memory q ∧ ¬ write.Touches q := by
  rw [Write.apply]
  split
  next after =>
    cases stored : write.cells[q - write.pos]? with
    | none =>
      have outside := List.getElem?_eq_none_iff.mp stored
      exact Or.inr ⟨rfl, fun touched => by have := touched.2; omega⟩
    | some cell => exact Or.inl (agrees after cell stored)
  next before => exact Or.inr ⟨rfl, fun touched => before touched.1⟩

/-- A content once there survives agreeing writes. -/
theorem applyAll_keeps {q : Nat} {content : β} (writes : List (Write β))
    (agree : ∀ write ∈ writes, write.Agrees q content) (memory : Nat → β)
    (there : memory q = content) : applyAll memory writes q = content := by
  induction writes generalizing memory with
  | nil => exact there
  | cons first rest ih =>
    refine ih (fun write member => agree write (List.mem_cons_of_mem first member)) _ ?_
    rcases Write.apply_agrees (agree first List.mem_cons_self) memory with put | ⟨kept, _⟩
    · exact put
    · exact kept.trans there

/-- A cell some write touches and all writes agree on holds that content. -/
theorem applyAll_covered {q : Nat} {content : β} (writes : List (Write β))
    (agree : ∀ write ∈ writes, write.Agrees q content)
    (covered : ∃ write ∈ writes, write.Touches q) (memory : Nat → β) :
    applyAll memory writes q = content := by
  induction writes generalizing memory with
  | nil =>
    obtain ⟨write, member, _⟩ := covered
    exact absurd member List.not_mem_nil
  | cons first rest ih =>
    have later := fun write member => agree write (List.mem_cons_of_mem first member)
    rcases Write.apply_agrees (agree first List.mem_cons_self) memory with put | ⟨_, apart⟩
    · exact applyAll_keeps rest later _ put
    · obtain ⟨write, member, touched⟩ := covered
      obtain rfl | there := List.mem_cons.mp member
      · exact absurd touched apart
      · exact ih later ⟨write, there, touched⟩ _

end GlmSpark.Scatter
