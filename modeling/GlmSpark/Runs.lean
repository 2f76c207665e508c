import Mathlib.Data.List.Basic

/-!
# Runs of a system that takes events

A system starts in one state and answers every event with a next state. Its
environment promises to send only some events in each state. Reachability, the
rule that an invariant of single steps holds in every reachable state, and the
execution of a list of events are stated once for all systems. So are loops whose
steps may fail but do not.
-/

namespace GlmSpark.Runs

universe u v

/-- States, a total step, and what the environment may send. -/
structure System (σ : Type u) (ε : Type v) where
  initial : σ
  step : σ → ε → σ
  allowed : σ → ε → Prop

variable {σ : Type u} {ε : Type v}

/-- The states some run of allowed events ends in. -/
inductive Reachable (system : System σ ε) : σ → Prop
  | initial : Reachable system system.initial
  | step {state : σ} {event : ε} (earlier : Reachable system state)
      (sent : system.allowed state event) : Reachable system (system.step state event)

/-- What holds at the start and survives every allowed event holds in every reachable state. -/
theorem Reachable.invariant {system : System σ ε} {holds : σ → Prop}
    (start : holds system.initial)
    (kept : ∀ (state : σ) (event : ε), holds state → system.allowed state event →
      holds (system.step state event))
    {state : σ} (reachable : Reachable system state) : holds state := by
  induction reachable with
  | initial => exact start
  | step _ sent ih => exact kept _ _ ih sent

/-- Execute events one after another. -/
def System.run (system : System σ ε) (state : σ) (events : List ε) : σ :=
  events.foldl system.step state

/-- Every event of a list is allowed when its turn comes. -/
def System.Permits (system : System σ ε) : σ → List ε → Prop
  | _, [] => True
  | state, event :: rest => system.allowed state event ∧ system.Permits (system.step state event) rest

/-- Whether a list is permitted can be decided when it can for every event. -/
instance System.decidablePermits (system : System σ ε)
    [decide : ∀ state event, Decidable (system.allowed state event)] (state : σ)
    (events : List ε) : Decidable (system.Permits state events) :=
  match events with
  | [] => isTrue trivial
  | event :: rest =>
    have := system.decidablePermits (system.step state event) rest
    inferInstanceAs (Decidable (system.allowed state event ∧
      system.Permits (system.step state event) rest))

/-- A run whose events are all permitted, from a reachable state, ends in a reachable state. -/
theorem Reachable.run {system : System σ ε} {state : σ} (reachable : Reachable system state)
    (events : List ε) (permitted : system.Permits state events) :
    Reachable system (system.run state events) := by
  induction events generalizing state with
  | nil => exact reachable
  | cons event rest ih => exact ih (reachable.step permitted.1) permitted.2

section Loops

/-- A loop whose steps all succeed is a plain loop. -/
theorem foldlM_some {α β : Type*} {step : β → α → Option β} {plain : β → α → β} {list : List α}
    (start : β) (succeeds : ∀ x ∈ list, ∀ state, step state x = some (plain state x)) :
    list.foldlM step start = some (list.foldl plain start) := by
  induction list generalizing start with
  | nil => rfl
  | cons x list ih =>
    rw [List.foldlM_cons, succeeds x List.mem_cons_self]
    exact ih (plain start x) fun y listed => succeeds y (List.mem_cons_of_mem _ listed)

/-- Loads that all succeed are a plain map. -/
theorem mapM_some {α β : Type*} {load : α → Option β} {plain : α → β} {list : List α}
    (succeeds : ∀ x ∈ list, load x = some (plain x)) : list.mapM load = some (list.map plain) := by
  induction list with
  | nil => rfl
  | cons x list ih =>
    rw [List.mapM_cons, succeeds x List.mem_cons_self,
      ih fun y listed => succeeds y (List.mem_cons_of_mem _ listed)]
    rfl

end Loops

end GlmSpark.Runs
