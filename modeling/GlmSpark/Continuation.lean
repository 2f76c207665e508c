import Mathlib.Data.List.Basic

/-!
# Continuations of a deterministic next-token rule and drafts of them

A rule maps every history to one next token; iterating it gives the sequence
produced one token at a time. A draft guesses several tokens at once. Reading
the rule after each prefix of the draft and keeping the values up to and
including the first disagreement never leaves that sequence: a later value is
meaningful only because all earlier guesses were right, and the value at the
first wrong guess is still the rule's own.

Tokens and rules are arbitrary; no bound on the draft's length is used.
-/

namespace GlmSpark.Continuation

universe u
variable {α : Type u}

/-- The next `count` tokens after a history, produced one at a time. -/
def continuation (next : List α → α) (history : List α) : Nat → List α
  | 0 => []
  | count + 1 => next history :: continuation next (history ++ [next history]) count

/-- The rule's values after every prefix of a draft: one per guess and one more
after the whole draft. -/
def drawsAlong (next : List α → α) (history : List α) : List α → List α
  | [] => [next history]
  | guess :: rest => next history :: drawsAlong next (history ++ [guess]) rest

/-- Number of leading guesses equal to the values beside them. -/
def leading [DecidableEq α] : List α → List α → Nat
  | guess :: guesses, value :: values => if guess = value then leading guesses values + 1 else 0
  | _, _ => 0

/-- A continuation has as many tokens as were asked for. -/
@[simp] theorem continuation_length (next : List α → α) (history : List α) (count : Nat) :
    (continuation next history count).length = count := by
  induction count generalizing history with
  | zero => rfl
  | succ count ih => simp [continuation, ih]

/-- Continuing twice is continuing once by the sum. -/
theorem continuation_add (next : List α → α) (history : List α) (first second : Nat) :
    continuation next history (first + second) =
      continuation next history first ++
        continuation next (history ++ continuation next history first) second := by
  induction first generalizing history with
  | zero => simp [continuation]
  | succ first ih =>
    rw [Nat.succ_add, continuation, continuation, ih]
    simp

/-- Along a draft there is one draw for every draft token and one behind the last. -/
@[simp] theorem drawsAlong_length (next : List α → α) (history draft : List α) :
    (drawsAlong next history draft).length = draft.length + 1 := by
  induction draft generalizing history with
  | nil => rfl
  | cons guess rest ih => simp [drawsAlong, ih]

section Leading

variable [DecidableEq α]

/-- No more guesses agree than were made. -/
theorem leading_le (guesses values : List α) : leading guesses values ≤ guesses.length := by
  induction guesses generalizing values with
  | nil => simp [leading]
  | cons guess rest ih =>
    cases values with
    | nil => simp [leading]
    | cons value values =>
      have bound : leading rest values ≤ rest.length := ih values
      simp only [leading, List.length_cons]
      split <;> omega

/-- The agreeing guesses all equal the values beside them. -/
theorem leading_agrees (guesses values : List α) (row : Nat)
    (early : row < leading guesses values) : guesses[row]? = values[row]? := by
  induction guesses generalizing values row with
  | nil => simp [leading] at early
  | cons guess rest ih =>
    cases values with
    | nil => simp [leading] at early
    | cons value values =>
      by_cases same : guess = value
      · cases row with
        | zero => simp [same]
        | succ row =>
          have early' : row < leading rest values := by simpa [leading, same] using early
          simpa using ih values row early'
      · simp [leading, same] at early

/-- The first guess after the agreeing ones is wrong, when there is a value
beside it. -/
theorem leading_stops (guesses values : List α) (guess value : α)
    (guessed : guesses[leading guesses values]? = some guess)
    (valued : values[leading guesses values]? = some value) : guess ≠ value := by
  induction guesses generalizing values with
  | nil => simp [leading] at guessed
  | cons first rest ih =>
    cases values with
    | nil => simp [leading] at valued
    | cons head values =>
      by_cases same : first = head
      · simp only [leading, same, if_true, List.getElem?_cons_succ] at guessed valued
        exact ih values guessed valued
      · simp only [leading, same, if_false, List.getElem?_cons_zero, Option.some.injEq]
          at guessed valued
        exact guessed ▸ valued ▸ same

/-- The values up to and including the first disagreement are the rule's own
continuation of the history, whatever was guessed. -/
theorem draws_continue (next : List α → α) (history draft : List α) :
    (drawsAlong next history draft).take
        (leading draft (drawsAlong next history draft) + 1) =
      continuation next history (leading draft (drawsAlong next history draft) + 1) := by
  induction draft generalizing history with
  | nil => simp [drawsAlong, leading, continuation]
  | cons guess rest ih =>
    by_cases right : guess = next history
    · subst right
      simp only [drawsAlong, leading, if_true, List.take_succ_cons, continuation]
      exact congrArg (next history :: ·) (ih (history ++ [next history]))
    · simp [drawsAlong, leading, right, continuation]

end Leading

end GlmSpark.Continuation
