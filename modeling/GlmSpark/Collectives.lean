import Mathlib.Data.Finset.Card
import Mathlib.Data.Fintype.Basic
import Mathlib.Data.Fintype.Card
import GlmSpark.Runs

/-!
# Programs that meet in collectives

Every rank runs a program of its own. Between collectives it computes alone; at a
collective it gives something, waits until every rank has arrived at a collective
of the same kind, and goes on with what it gets. Ranks at collectives of different
kinds, or a rank that has ended while another waits, wait for ever.

Programs that settle round by round do so under every interleaving: nobody waits
for ever, all ranks take part in the same collectives and end with the same
results. Kinds, what is given and what is got are arbitrary.
-/

namespace GlmSpark.Collectives

open Runs

universe u v w x y
variable {κ : Type u} {Give : κ → Type v} {Get : κ → Type w} {α : Type x}

/-- A rank's program: its result, or a collective and how to go on. -/
inductive Program (Give : κ → Type v) (Get : κ → Type w) (α : Type x)
  | done (result : α)
  | collective (kind : κ) (give : Give kind) (next : Get kind → Program Give Get α)

/-- Where a rank stands: what is left to run, whether it waits in the next collective, and the
collectives it has entered. -/
structure Place (Give : κ → Type v) (Get : κ → Type w) (α : Type x) where
  program : Program Give Get α
  arrived : Bool
  log : List κ

variable {ρ : Type y} [DecidableEq ρ]

/-- A rank arrives at its next collective, or all waiting ranks exchange what they gave. -/
inductive Event (ρ : Type y) (Give : κ → Type v) (Get : κ → Type w) (α : Type x)
  | arrive (rank : ρ)
  | exchange (kind : κ) (give : ρ → Give kind) (next : ρ → Get kind → Program Give Get α)

variable (answer : (kind : κ) → (ρ → Give kind) → ρ → Get kind)

/-- A rank enters the collective it stands before. -/
def Place.arrive (place : Place Give Get α) : Place Give Get α :=
  match place.program with
  | .done _ => place
  | .collective kind _ _ => { place with arrived := true, log := place.log ++ [kind] }

/-- One rank arrives, or all go on. -/
def step (places : ρ → Place Give Get α) : Event ρ Give Get α → ρ → Place Give Get α
  | .arrive rank => Function.update places rank (places rank).arrive
  | .exchange kind give next => fun rank =>
    ⟨next rank (answer kind give rank), false, (places rank).log⟩

/-- A rank arrives once at each collective; an exchange needs all ranks in collectives of one kind. -/
def Allowed (places : ρ → Place Give Get α) : Event ρ Give Get α → Prop
  | .arrive rank => (places rank).arrived = false ∧
      ∃ kind give next, (places rank).program = .collective kind give next
  | .exchange kind give next => ∀ rank, (places rank).arrived = true ∧
      (places rank).program = .collective kind (give rank) (next rank)

/-- The programs started at once, run in any order. -/
def spmd (programs : ρ → Program Give Get α) :
    System (ρ → Place Give Get α) (Event ρ Give Get α) where
  initial rank := ⟨programs rank, false, []⟩
  step := step answer
  allowed := Allowed

/-- Round by round all programs meet in one collective, until all are done. -/
inductive Settles : (ρ → Program Give Get α) → List κ → (ρ → α) → Prop
  | done (result : ρ → α) : Settles (fun rank => .done (result rank)) [] result
  | round (kind : κ) (give : ρ → Give kind) (next : ρ → Get kind → Program Give Get α)
      {rest : List κ} {result : ρ → α}
      (later : Settles (fun rank => next rank (answer kind give rank)) rest result) :
      Settles (fun rank => .collective kind (give rank) (next rank)) (kind :: rest) result

/-- A rank after the past rounds: not yet in the next collective, or waiting in it. -/
def Stands (program : Program Give Get α) (past : List κ) (place : Place Give Get α) : Prop :=
  place.program = program ∧
    (place.arrived = false ∧ place.log = past ∨
      place.arrived = true ∧ ∃ kind give next, program = .collective kind give next ∧
        place.log = past ++ [kind])

/-- All ranks have the same rounds behind them and settle in the rest. -/
def Fits (places : ρ → Place Give Get α) (past rest : List κ) (result : ρ → α) : Prop :=
  ∃ programs : ρ → Program Give Get α, Settles answer programs rest result ∧
    ∀ rank, Stands (programs rank) past (places rank)

variable {answer} {programs : ρ → Program Give Get α} {places : ρ → Place Give Get α}
  {past rest log : List κ} {result : ρ → α}

/-- A rank that arrives at its exchange waits there. All other ranks and the round they are in are
as before. -/
theorem Fits.arrive (fits : Fits answer places past rest result) (rank : ρ)
    (allowed : Allowed places (.arrive rank)) :
    Fits answer (step answer places (.arrive rank)) past rest result := by
  obtain ⟨programs, settles, stands⟩ := fits
  obtain ⟨early, kind, give, next, here⟩ := allowed
  refine ⟨programs, settles, fun other => ?_⟩
  rw [step]
  by_cases same : other = rank
  · subst same
    obtain ⟨program, ⟨_, log⟩ | ⟨late, _⟩⟩ := stands other
    · rw [Function.update_self, Place.arrive, here]
      exact ⟨here.symm.trans program,
        Or.inr ⟨rfl, kind, give, next, program.symm.trans here, congrArg (· ++ [kind]) log⟩⟩
    · rw [early] at late
      exact nomatch late
  · rw [Function.update_of_ne same]
    exact stands other

/-- When all ranks have arrived, the exchange they are at is the next one of the log, and all of
them go on with its answer. -/
theorem Fits.exchange [Nonempty ρ] (fits : Fits answer places past rest result) {kind : κ}
    {give : ρ → Give kind} {next : ρ → Get kind → Program Give Get α}
    (allowed : Allowed places (.exchange kind give next)) :
    ∃ later, rest = kind :: later ∧
      Fits answer (step answer places (.exchange kind give next)) (past ++ [kind]) later
        result := by
  obtain ⟨programs, settles, stands⟩ := fits
  have programs_eq : ∀ rank, programs rank = .collective kind (give rank) (next rank) :=
    fun rank => (stands rank).1.symm.trans (allowed rank).2
  obtain ⟨someone⟩ := ‹Nonempty ρ›
  cases settles with
  | done => exact nomatch programs_eq someone
  | round kind' give' next' later =>
    obtain rfl : kind' = kind := (Program.collective.inj (programs_eq someone)).1
    obtain rfl : give' = give :=
      funext fun rank => eq_of_heq (Program.collective.inj (programs_eq rank)).2.1
    obtain rfl : next' = next :=
      funext fun rank => eq_of_heq (Program.collective.inj (programs_eq rank)).2.2
    refine ⟨_, rfl, _, later, fun rank => ⟨rfl, Or.inl ⟨rfl, ?_⟩⟩⟩
    obtain ⟨_, ⟨early, _⟩ | ⟨_, kind'', _, _, program, log⟩⟩ := stands rank
    · rw [(allowed rank).1] at early
      exact nomatch early
    · obtain rfl := (Program.collective.inj program).1
      exact log

/-- Before the first round every rank is at its program's start, with the whole log ahead. -/
theorem Settles.fits (settles : Settles answer programs log result) :
    Fits answer (spmd answer programs).initial [] log result :=
  ⟨programs, settles, fun _ => ⟨rfl, Or.inl ⟨rfl, rfl⟩⟩⟩

/-- Every reachable state is some rounds on. -/
theorem Settles.reachable [Nonempty ρ] (settles : Settles answer programs log result)
    (reachable : Reachable (spmd answer programs) places) :
    ∃ past rest, log = past ++ rest ∧ Fits answer places past rest result := by
  suffices kept : ∀ places event,
      (∃ past rest, log = past ++ rest ∧ Fits answer places past rest result) →
        Allowed places event → ∃ past rest, log = past ++ rest ∧
          Fits answer (step answer places event) past rest result from
    reachable.invariant ⟨[], log, rfl, settles.fits⟩ kept
  rintro places event ⟨past, rest, rounds, fits⟩ allowed
  cases event with
  | arrive rank => exact ⟨past, rest, rounds, fits.arrive rank allowed⟩
  | exchange kind give next =>
    obtain ⟨later, rfl, onward⟩ := fits.exchange allowed
    exact ⟨past ++ [kind], later, by rw [rounds, List.append_assoc, List.singleton_append], onward⟩

omit [DecidableEq ρ] in
/-- Until all ranks are done, some rank can arrive or all can go on. -/
theorem Fits.progress (fits : Fits answer places past rest result) :
    (∀ rank, ∃ value, (places rank).program = .done value) ∨
      ∃ event, Allowed places event := by
  obtain ⟨programs, settles, stands⟩ := fits
  cases settles with
  | done => exact Or.inl fun rank => ⟨result rank, (stands rank).1⟩
  | round kind give next =>
    right
    by_cases all : ∀ rank, (places rank).arrived = true
    · exact ⟨.exchange kind give next, fun rank => ⟨all rank, (stands rank).1⟩⟩
    · obtain ⟨rank, late⟩ := not_forall.mp all
      exact ⟨.arrive rank, Bool.not_eq_true _ ▸ late, kind, give rank, next rank, (stands rank).1⟩

omit [DecidableEq ρ] in
/-- A rank has entered the first collectives; when it is done it has entered all and has its
result. -/
theorem Fits.place (fits : Fits answer places past rest result) (rank : ρ) :
    (places rank).log <+: past ++ rest ∧ ∀ value, (places rank).program = .done value →
      (places rank).log = past ++ rest ∧ value = result rank := by
  obtain ⟨programs, settles, stands⟩ := fits
  obtain ⟨program, place⟩ := stands rank
  cases settles with
  | done =>
    obtain ⟨_, log⟩ | ⟨_, kind, give, next, waits, _⟩ := place
    · refine ⟨⟨[], by rw [log]⟩, fun value ended => ?_⟩
      exact ⟨by rw [log, List.append_nil], (Program.done.inj (program.symm.trans ended)).symm⟩
    · exact nomatch waits
  | round kind give next =>
    refine ⟨?_, fun value ended => nomatch program.symm.trans ended⟩
    obtain ⟨_, log⟩ | ⟨_, kind', give', next', waits, log⟩ := place
    · exact log ▸ List.prefix_append past _
    · obtain rfl := (Program.collective.inj waits).1
      exact ⟨_, by rw [log, List.append_assoc, List.singleton_append]⟩

section Length

variable [Fintype ρ]

/-- How many ranks wait. -/
def waiting (places : ρ → Place Give Get α) : ℕ :=
  (Finset.univ.filter fun rank => (places rank).arrived = true).card

omit [DecidableEq ρ] in
/-- The ranks that wait are bounded by what the rounds ahead allow for. After the last round nobody
waits. -/
theorem Fits.waiting_le (fits : Fits answer places past rest result) :
    waiting places ≤ rest.length * (Fintype.card ρ + 1) := by
  obtain ⟨programs, settles, stands⟩ := fits
  cases settles with
  | done =>
    have nobody : waiting places = 0 := by
      rw [waiting, Finset.card_eq_zero, Finset.filter_eq_empty_iff]
      intro rank _ waits
      obtain ⟨early, _⟩ | ⟨_, _, _, _, program, _⟩ := (stands rank).2
      · rw [early] at waits
        exact nomatch waits
      · exact nomatch program
    rw [nobody]
    exact Nat.zero_le _
  | round =>
    have some_ : waiting places ≤ Fintype.card ρ := Finset.card_le_univ _
    rw [List.length_cons, Nat.add_mul, Nat.one_mul]
    omega

/-- An arrival makes one more rank wait, as the rank did not wait before. -/
theorem waiting_arrive (rank : ρ) (allowed : Allowed places (.arrive rank)) :
    waiting (step answer places (.arrive rank)) = waiting places + 1 := by
  obtain ⟨early, kind, give, next, here⟩ := allowed
  have new : (Finset.univ.filter fun other =>
      (step answer places (.arrive rank) other).arrived = true) =
      insert rank (Finset.univ.filter fun other => (places other).arrived = true) := by
    ext other
    rw [Finset.mem_insert, Finset.mem_filter, Finset.mem_filter, step]
    by_cases same : other = rank
    · subst same
      rw [Function.update_self, Place.arrive, here]
      simp
    · rw [Function.update_of_ne same]
      simp [same]
  rw [waiting, new, Finset.card_insert_of_notMem, waiting]
  simp [early]

/-- Nobody waits after an exchange, for which all waited. -/
theorem waiting_exchange (answer : (kind : κ) → (ρ → Give kind) → ρ → Get kind) {kind : κ}
    {give : ρ → Give kind} {next : ρ → Get kind → Program Give Get α}
    (allowed : Allowed places (.exchange kind give next)) :
    waiting places = Fintype.card ρ ∧
      waiting (step answer places (.exchange kind give next)) = 0 := by
  constructor
  · rw [waiting, Finset.filter_true_of_mem fun rank _ => (allowed rank).1, Finset.card_univ]
  · rw [waiting, Finset.card_eq_zero, Finset.filter_eq_empty_iff]
    exact fun rank _ waits => nomatch waits

/-- In every round each rank arrives once and all exchange once. -/
theorem Fits.length_le [Nonempty ρ] (fits : Fits answer places past rest result)
    (events : List (Event ρ Give Get α))
    (permitted : (spmd answer programs).Permits places events) :
    events.length + waiting places ≤ rest.length * (Fintype.card ρ + 1) := by
  induction events generalizing places past rest with
  | nil => rw [List.length_nil, Nat.zero_add]; exact fits.waiting_le
  | cons event events ih =>
    obtain ⟨allowed, later⟩ := permitted
    cases event with
    | arrive rank =>
      have bound := ih (fits.arrive rank allowed) later
      change _ + waiting (step answer places (.arrive rank)) ≤ _ at bound
      rw [waiting_arrive rank allowed] at bound
      rw [List.length_cons]
      omega
    | exchange kind give next =>
      obtain ⟨rounds, rfl, onward⟩ := fits.exchange allowed
      have bound := ih onward later
      change _ + waiting (step answer places (.exchange kind give next)) ≤ _ at bound
      obtain ⟨all, nobody⟩ := waiting_exchange answer allowed
      rw [nobody] at bound
      rw [List.length_cons, List.length_cons, all, Nat.add_mul, Nat.one_mul]
      omega

end Length

end GlmSpark.Collectives
