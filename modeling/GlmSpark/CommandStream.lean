import Mathlib.Data.List.Basic

/-!
# A stream of commands

A host sends commands to a device and goes on; the device runs them in order, at its own
pace. An event marks a place in the stream, and waiting for it makes the device run up to
that place. What the device will have computed once it caught up is a function of the
commands alone. A read after an event is already that, unless a later command writes
where it reads.
-/

namespace GlmSpark.CommandStream

universe u v w
variable {σ : Type u} {ο : Type v} {α : Type w}

/-- The commands sent, and how many of them the device has run. -/
structure Queue (σ : Type u) (ο : Type v) where
  start : σ
  sent : List ο
  ran : ℕ

/-- Send a command: it joins the end of the queue and may run at any time after those before it. -/
def Queue.send (stream : Queue σ ο) (command : ο) : Queue σ ο :=
  { stream with sent := stream.sent ++ [command] }

/-- Record an event: a place in the stream. -/
def Queue.record (stream : Queue σ ο) : ℕ := stream.sent.length

/-- Wait for an event: what was sent before it has run afterwards. -/
def Queue.synchronize (stream : Queue σ ο) (event : ℕ) : Queue σ ο :=
  { stream with ran := max stream.ran event }

/-- The device runs some more of what was sent. -/
def Queue.advance (stream : Queue σ ο) (count : ℕ) : Queue σ ο :=
  { stream with ran := max stream.ran (min (stream.ran + count) stream.sent.length) }

variable (exec : σ → ο → σ)

/-- What the device holds now, after the commands that have run. -/
def Queue.memory (stream : Queue σ ο) : σ := (stream.sent.take stream.ran).foldl exec stream.start

/-- What the device will hold once it has caught up. -/
def Queue.settled (stream : Queue σ ο) : σ := stream.sent.foldl exec stream.start

/-- A command sent is run on all that was sent before. -/
@[simp] theorem Queue.settled_send (stream : Queue σ ο) (command : ο) :
    (stream.send command).settled exec = exec (stream.settled exec) command := by
  rw [settled, settled, send, List.foldl_append, List.foldl_cons, List.foldl_nil]

/-- Waiting for an event runs commands of the queue earlier but adds none, so the settled state is
the same. -/
@[simp] theorem Queue.settled_synchronize (stream : Queue σ ο) (event : ℕ) :
    (stream.synchronize event).settled exec = stream.settled exec := rfl

/-- Commands that leave a reading alone do so together. -/
theorem foldl_quiet (read : σ → α) {commands : List ο}
    (quiet : ∀ command ∈ commands, ∀ memory, read (exec memory command) = read memory)
    (memory : σ) :
    read (commands.foldl exec memory) = read memory :=
  List.foldlRecOn (motive := fun reached => read reached = read memory) commands exec rfl
    fun reached kept command sent => (quiet command sent reached).trans kept

/-- After an event a reading is final when no later command writes it. -/
theorem Queue.read_final (stream : Queue σ ο) (read : σ → α) {event : ℕ}
    (waited : event ≤ stream.ran)
    (quiet : ∀ command ∈ stream.sent.drop event,
      ∀ memory, read (exec memory command) = read memory) :
    read (stream.memory exec) = read (stream.settled exec) := by
  have caught_up : stream.settled exec =
      (stream.sent.drop stream.ran).foldl exec (stream.memory exec) := by
    rw [settled, memory, ← List.foldl_append, List.take_append_drop]
  have later : ∀ command ∈ stream.sent.drop stream.ran, command ∈ stream.sent.drop event := by
    rw [← Nat.add_sub_of_le waited, ← List.drop_drop]
    exact fun command sent => List.mem_of_mem_drop sent
  rw [caught_up]
  exact (foldl_quiet exec read (fun command sent => quiet command (later command sent)) _).symm

end GlmSpark.CommandStream
