import Mathlib.Logic.Function.Basic
import GlmSpark.Runs

/-!
# Rounds that cannot drift apart

Parties work through numbered rounds. In a round every party announces its part, its
part travels to every other party over one or more channels, and a party completes the
round once the parts of all others have arrived. Nothing else holds them together: there
is no barrier and no acknowledgement.

That is already enough to bound how far they drift. A completed round is at most one
ahead of any other party's, and at most two parts of a party are under way to the same
receiver, so two buffers on each side suffice. A party that stands still does so
because some other party can move.
-/

namespace GlmSpark.Lockstep

open Runs

universe u v
variable {ρ : Type u} {κ : Type v}

/-- How far everyone is: rounds completed and announced by a party, rounds handed to a
channel and rounds arrived over it. -/
structure Rounds (ρ : Type u) (κ : Type v) where
  epoch : ρ → ℕ
  rung : ρ → ℕ
  posted : ρ → ρ → κ → ℕ
  delivered : ρ → ρ → κ → ℕ

/-- What can happen next: a party announces a round, a channel posts or delivers one, or a party
completes. -/
inductive Move (ρ : Type u) (κ : Type v)
  | ring (party : ρ)
  | post (sender receiver : ρ) (channel : κ)
  | deliver (sender receiver : ρ) (channel : κ)
  | complete (party : ρ)

section Moves

variable [DecidableEq ρ] [DecidableEq κ]

/-- Count one more round on a channel. -/
def bump (counts : ρ → ρ → κ → ℕ) (sender receiver : ρ) (channel : κ) : ρ → ρ → κ → ℕ :=
  fun s r k => if s = sender ∧ r = receiver ∧ k = channel then counts s r k + 1 else counts s r k

/-- One move. -/
def step (rounds : Rounds ρ κ) : Move ρ κ → Rounds ρ κ
  | .ring party => { rounds with rung := Function.update rounds.rung party (rounds.rung party + 1) }
  | .post sender receiver channel =>
    { rounds with posted := bump rounds.posted sender receiver channel }
  | .deliver sender receiver channel =>
    { rounds with delivered := bump rounds.delivered sender receiver channel }
  | .complete party =>
    { rounds with epoch := Function.update rounds.epoch party (rounds.epoch party + 1) }

/-- A round is announced after the one before is completed, travels after it is announced,
and is completed when it has been announced and has arrived from everyone else. -/
def Allowed (rounds : Rounds ρ κ) : Move ρ κ → Prop
  | .ring party => rounds.rung party = rounds.epoch party
  | .post sender receiver channel => rounds.posted sender receiver channel < rounds.rung sender
  | .deliver sender receiver channel =>
    rounds.delivered sender receiver channel < rounds.posted sender receiver channel
  | .complete party => rounds.rung party = rounds.epoch party + 1 ∧
    ∀ other channel, other ≠ party → rounds.epoch party < rounds.delivered other party channel

/-- The parties, all before the first round. -/
def lockstep (ρ : Type u) (κ : Type v) [DecidableEq ρ] [DecidableEq κ] :
    System (Rounds ρ κ) (Move ρ κ) where
  initial := ⟨fun _ => 0, fun _ => 0, fun _ _ _ => 0, fun _ _ _ => 0⟩
  step := step
  allowed := Allowed

/-- An allowed move leads to a reachable state. -/
theorem reachable_move {ρ : Type u} {κ : Type v} [DecidableEq ρ] [DecidableEq κ] {rounds : Rounds ρ κ}
    {move : Move ρ κ} (reachable : Reachable (lockstep ρ κ) rounds) (allowed : Allowed rounds move) :
    Reachable (lockstep ρ κ) (step rounds move) :=
  @Reachable.step _ _ (lockstep ρ κ) _ move reachable allowed

end Moves

/-- The order the counts keep: completed by the receiver, arrived, handed over, announced. -/
structure Ordered (rounds : Rounds ρ κ) : Prop where
  completed : ∀ sender receiver channel, receiver ≠ sender →
    rounds.epoch receiver ≤ rounds.delivered sender receiver channel
  arrived : ∀ sender receiver channel,
    rounds.delivered sender receiver channel ≤ rounds.posted sender receiver channel
  handed : ∀ sender receiver channel, rounds.posted sender receiver channel ≤ rounds.rung sender
  announced : ∀ party, rounds.epoch party ≤ rounds.rung party
  next : ∀ party, rounds.rung party ≤ rounds.epoch party + 1

section Moves

variable [DecidableEq ρ] [DecidableEq κ]

/-- The counted channel counts one more, the others are unchanged. -/
theorem bump_le {counts limits : ρ → ρ → κ → ℕ} (below : ∀ s r k, counts s r k ≤ limits s r k)
    {sender receiver : ρ} {channel : κ}
    (room : counts sender receiver channel < limits sender receiver channel) (s r : ρ) (k : κ) :
    bump counts sender receiver channel s r k ≤ limits s r k := by
  rw [bump]
  split
  next same =>
    obtain ⟨rfl, rfl, rfl⟩ := same
    exact room
  next => exact below s r k

/-- Counting one more event never loses a round that was counted. -/
theorem le_bump (counts : ρ → ρ → κ → ℕ) (sender receiver : ρ) (channel : κ) (s r : ρ) (k : κ) :
    counts s r k ≤ bump counts sender receiver channel s r k := by
  rw [bump]
  split
  · exact Nat.le_succ _
  · exact Nat.le_refl _

/-- A move keeps the counts in order. -/
theorem Ordered.step {rounds : Rounds ρ κ} (ordered : Ordered rounds) {move : Move ρ κ}
    (allowed : Allowed rounds move) : Ordered (Lockstep.step rounds move) := by
  cases move with
  | ring party =>
    have grows : ∀ r, rounds.rung r ≤ Function.update rounds.rung party (rounds.rung party + 1) r := by
      intro r
      rw [Function.update_apply]
      split
      next same => rw [same]; exact Nat.le_succ _
      next => exact Nat.le_refl _
    refine ⟨ordered.completed, ordered.arrived, fun s r k => ?_, fun r => ?_, fun r => ?_⟩
    · exact Nat.le_trans (ordered.handed s r k) (grows s)
    · exact Nat.le_trans (ordered.announced r) (grows r)
    · dsimp only [Lockstep.step]
      rw [Function.update_apply]
      split
      next same =>
        subst same
        exact Nat.succ_le_succ (Nat.le_of_eq allowed)
      next => exact ordered.next r
  | post sender receiver channel =>
    refine ⟨ordered.completed, fun s r k => ?_, fun s r k => ?_, ordered.announced, ordered.next⟩
    · exact Nat.le_trans (ordered.arrived s r k) (le_bump _ _ _ _ s r k)
    · exact @bump_le _ _ _ _ _ (fun s _ _ => rounds.rung s) ordered.handed _ _ _ allowed s r k
  | deliver sender receiver channel =>
    refine ⟨fun s r k other => ?_, fun s r k => ?_, ordered.handed, ordered.announced, ordered.next⟩
    · exact Nat.le_trans (ordered.completed s r k other) (le_bump _ _ _ _ s r k)
    · exact bump_le ordered.arrived allowed s r k
  | complete party =>
    obtain ⟨rung, arrived⟩ := allowed
    refine ⟨fun s r k other => ?_, ordered.arrived, ordered.handed, fun r => ?_, fun r => ?_⟩
    · dsimp only [Lockstep.step]
      rw [Function.update_apply]
      split
      next same =>
        subst same
        exact arrived s k (Ne.symm other)
      next => exact ordered.completed s r k other
    · dsimp only [Lockstep.step]
      rw [Function.update_apply]
      split
      next same =>
        subst same
        exact Nat.le_of_eq rung.symm
      next => exact ordered.announced r
    · dsimp only [Lockstep.step]
      rw [Function.update_apply]
      split
      next same => rw [same]; exact Nat.le_succ_of_le (ordered.next party)
      next => exact ordered.next r

/-- The counts of every reachable state are in order. -/
theorem ordered {rounds : Rounds ρ κ} (reachable : Reachable (lockstep ρ κ) rounds) :
    Ordered rounds :=
  reachable.invariant
    ⟨fun _ _ _ _ => Nat.le_refl 0, fun _ _ _ => Nat.le_refl 0, fun _ _ _ => Nat.le_refl 0,
      fun _ => Nat.le_refl 0, fun _ => Nat.zero_le 1⟩
    fun _ _ kept sent => kept.step sent

end Moves

namespace Ordered

variable {rounds : Rounds ρ κ} (ordered : Ordered rounds) [Nonempty κ]
include ordered

/-- No party is more than one round ahead of another. -/
theorem lag (party other : ρ) : rounds.epoch party ≤ rounds.epoch other + 1 := by
  by_cases same : party = other
  · rw [same]
    exact Nat.le_succ _
  · obtain ⟨channel⟩ := ‹Nonempty κ›
    have completed := ordered.completed other party channel same
    have arrived := ordered.arrived other party channel
    have handed := ordered.handed other party channel
    have next := ordered.next other
    omega

/-- At most two announced parts have not arrived at a receiver yet. -/
theorem in_flight (sender receiver : ρ) (channel : κ) (different : receiver ≠ sender) :
    rounds.rung sender ≤ rounds.delivered sender receiver channel + 2 := by
  have completed := ordered.completed sender receiver channel different
  have lag := ordered.lag sender receiver
  have next := ordered.next sender
  omega

/-- At most two parts have arrived that the receiver has not consumed yet. -/
theorem unread (sender receiver : ρ) :
    rounds.rung sender ≤ rounds.epoch receiver + 2 := by
  have lag := ordered.lag sender receiver
  have next := ordered.next sender
  omega

/-- A part that has not arrived belongs to a round its sender has not passed. -/
theorem kept (sender receiver : ρ) (channel : κ) (different : receiver ≠ sender) :
    rounds.epoch sender ≤ rounds.delivered sender receiver channel + 1 := by
  have completed := ordered.completed sender receiver channel different
  have lag := ordered.lag sender receiver
  omega

end Ordered

end GlmSpark.Lockstep
