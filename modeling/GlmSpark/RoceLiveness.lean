import GlmSpark.RoceOneshotRun

/-!
# The collectives do not get stuck

A kernel that spins on flags gives up only after a long time, so a protocol that could
wait in a circle would be a hang. It cannot: where nothing but an expiring wait is left to
happen, every announced launch has been delivered, so a rank that still waits waits for a
peer that has not announced the launch, and that peer is a launch behind and waits itself.
-/

namespace GlmSpark.RoceOneshot

open Grid Lockstep RoceLayout Runs

universe u
variable {V : Type u} {world hcas : ℕ} {setup : Setup world hcas V}
  {nodes : Fin world → Node world hcas V} {rounds : Rounds (Fin world) (Fin hcas)}

/-- Whether an event is a wait that gives up. -/
def Event.expires : Event world hcas → Bool
  | .act _ (.expire _ _) => true
  | _ => false

/-- A rank that is done with its last launch. -/
def Finished (setup : Setup world hcas V) (node : Node world hcas V) : Prop :=
  node.launch + 1 = setup.launches ∧
    ∀ block < setup.grid node.launch, (node.place block).isDone = true

/-- Nothing but an expiring wait can happen. -/
def Stuck (setup : Setup world hcas V) (nodes : Fin world → Node world hcas V) : Prop :=
  ∀ event : Event world hcas, event.expires = false → next setup nodes event = none

/-- A step within a rank that cannot be taken. -/
theorem Stuck.refused (stuck : Stuck setup nodes) {rank : Fin world} {action : Act world hcas}
    (waits : (Event.act rank action).expires = false) :
    act setup rank (nodes rank) action = none := by
  have none := stuck _ waits
  rw [next, Option.map_eq_none_iff] at none
  exact none

section Host

variable (stuck : Stuck setup nodes) (refines : Refines setup nodes rounds)
include stuck refines

/-- A stuck proxy has posted every announced launch. -/
theorem Stuck.posted (rank peer : Fin world) (hca : Fin hcas) (different : peer ≠ rank)
    (near : rounds.rung rank ≤ rounds.posted rank peer hca + 2) :
    rounds.rung rank ≤ rounds.posted rank peer hca := by
  have poster := refines.poster rank
  have ok := poster.proxy
  have poll := stuck.refused (show (Event.act rank .poll : Event world hcas).expires = false from rfl)
  have read := stuck.refused (show (Event.act rank .read : Event world hcas).expires = false from rfl)
  have post := stuck.refused (show (Event.act rank .post : Event world hcas).expires = false from rfl)
  have posted := stuck.refused (show (Event.act rank .posted : Event world hcas).expires = false from rfl)
  cases here : (nodes rank).proxy with
  | idle =>
    rw [here] at ok
    rw [act, here] at poll
    obtain ⟨launch, last, known, all, _⟩ := ok
    dsimp only at poll
    split at poll
    next same =>
      rw [all peer different hca] at near ⊢
      by_contra more
      rw [poster.bell, last] at same
      exact word_ne (by omega) (by omega) same.symm
    next => split at poll <;> cases poll
  | next seq pending =>
    rw [act, here] at read
    dsimp only at read
    split at read <;> cases read
  | posting seq pending nbytes todo =>
    cases todo with
    | nil =>
      rw [act, here] at posted
      cases posted
    | cons pair todo =>
      rw [act, here] at post
      cases post
  | failed =>
    rw [here] at ok
    exact ok.elim

/-- Where nothing can move, a channel has delivered all that was posted; a request in the queue
could be delivered. -/
theorem Stuck.delivered (rank peer : Fin world) (hca : Fin hcas) (different : peer ≠ rank) :
    rounds.posted rank peer hca ≤ rounds.delivered rank peer hca := by
  refine (refines.channel rank peer hca different).drained ?_
  have fetch := stuck.refused (show (Event.act rank (.fetch peer hca 0) : Event world hcas).expires = false
    from rfl)
  have deliver := stuck (.deliver rank peer hca 0) rfl
  rw [act] at fetch
  rw [next] at deliver
  cases queue : (nodes rank).queue peer hca with
  | nil => rfl
  | cons request rest =>
    rw [queue, List.getElem?_cons_zero] at fetch deliver
    cases request with
    | data slot pack held =>
      cases held with
      | none => cases fetch
      | some value =>
        dsimp only at deliver
        rw [if_pos ⟨different, rfl⟩] at deliver
        cases deliver
    | flag slot seq =>
      dsimp only at deliver
      rw [if_pos ⟨different, rfl⟩] at deliver
      cases deliver

end Host

/-- Where a stuck block of a sound rank can be: done, or waiting. -/
theorem Stuck.block (stuck : Stuck setup nodes) {rank : Fin world} {epoch rung : ℕ}
    {arrived : Fin world → Fin hcas → ℕ} (working : Working setup rank (nodes rank) epoch rung arrived)
    (sound : (nodes rank).error = 0) {block : ℕ} (inside : block < setup.grid epoch) :
    (nodes rank).place block = .done false ∨
      ∃ seq pair waits, (nodes rank).place block = .run seq [] .rung (pair :: waits) 0 := by
  have can : ∀ action : Act world hcas, (Event.act rank action).expires = false →
      act setup rank (nodes rank) action = none := fun _ => stuck.refused
  have clean : (nodes rank).poison = 0 := by
    by_contra poisoned
    exact working.recorded poisoned sound
  have ok := working.blocks block inside
  cases here : (nodes rank).place block with
  | idle =>
    have none := can (.begin block 0) rfl
    rw [act, here] at none
    dsimp only at none
    rw [working.launch, if_neg (not_or.mpr ⟨Nat.not_le_of_lt inside, Nat.not_le_of_lt setup.warps⟩),
      if_pos clean] at none
    cases none
  | stage seq unread gone todo =>
    cases unread with
    | cons thread unread =>
      have none := can (.begin block thread) rfl
      rw [act, here] at none
      dsimp only at none
      rw [if_pos List.mem_cons_self, if_pos clean] at none
      cases none
    | nil =>
      cases todo with
      | nil =>
        have none := can (.staged block) rfl
        rw [act, here] at none
        cases none
      | cons pack todo =>
        have none := can (.stage block 0) rfl
        rw [act, here] at none
        cases none
  | run seq gone door waits expired =>
    rw [here] at ok
    -- the rank is sound, so no thread has returned early
    obtain ⟨rfl, _⟩ := ok.2.1.complete fun poisoned => poisoned clean
    cases expired with
    | succ expired => exact absurd sound (ok.2.2.2.2.1 (Nat.succ_pos _)).2
    | zero =>
      cases door with
      | arrive =>
        have none := can (.arrive block) rfl
        rw [act, here] at none
        cases none
      | publish =>
        have none := can (.publish block) rfl
        rw [act, here] at none
        cases none
      | ring =>
        have none := can (.ring block) rfl
        rw [act, here] at none
        cases none
      | rung =>
        cases waits with
        | nil =>
          have none := can (.sync block) rfl
          rw [act, here] at none
          simp only [clean, if_true, reduceCtorEq] at none
        | cons pair waits => exact Or.inr ⟨seq, pair, waits, rfl⟩
  | reduce seq gone todo =>
    cases todo with
    | nil =>
      have none := can (.finish block) rfl
      rw [act, here] at none
      cases none
    | cons store todo =>
      have none := can (.write block 0) rfl
      rw [act, here] at none
      cases none
  | leave seq gone =>
    have none := can (.leave block) rfl
    rw [act, here] at none
    dsimp only at none
    repeat' split at none
    all_goals cases none
  | done skipped =>
    cases skipped with
    | true =>
      rw [here] at ok
      exact absurd clean ok
    | false => exact Or.inl rfl

section Waiting

variable (stuck : Stuck setup nodes) (refines : Refines setup nodes rounds)
  (reachable : Reachable (lockstep (Fin world) (Fin hcas)) rounds) {rank : Fin world}
  (sound : (nodes rank).error = 0)
  (working : Working setup rank (nodes rank) (rounds.epoch rank) (rounds.rung rank)
    fun peer hca => rounds.delivered peer rank hca)
include stuck sound working

/-- A stuck rank at work has announced its launch. -/
theorem Stuck.announced : rounds.rung rank ≠ rounds.epoch rank := by
  intro quiet
  have all : tally Phase.arrived (nodes rank).place (setup.grid (rounds.epoch rank)) =
      setup.grid (rounds.epoch rank) := by
    refine (tally_eq_iff _ _ _).mpr fun block inside => ?_
    rcases stuck.block working sound inside with here | ⟨seq, pair, waits, here⟩
    · rw [here]
      rfl
    · rw [here]
      rfl
  obtain ⟨holder, inside, holds⟩ := working.due quiet all
  rcases stuck.block working sound inside with here | ⟨seq, pair, waits, here⟩ <;> rw [here] at holds <;>
    cases holds

include refines reachable

/-- A stuck rank at work waits for a peer that has not announced the launch. -/
theorem Stuck.waits : ∃ peer, peer ≠ rank ∧ rounds.rung peer ≤ rounds.epoch rank := by
  obtain ⟨block, inside, out⟩ : ∃ block < setup.grid (rounds.epoch rank),
      ((nodes rank).place block).left = false := by
    by_contra none
    push Not at none
    refine Nat.ne_of_lt (working.unfinished sound) ((tally_eq_iff _ _ _).mpr fun block inside => ?_)
    exact Bool.of_not_eq_false (none block inside)
  rcases stuck.block working sound inside with here | ⟨seq, ⟨peer, hca⟩, waits, here⟩
  · rw [here] at out
    cases out
  · have ok := working.blocks block inside
    rw [here] at ok
    obtain ⟨rfl, _, _, peers, _, _⟩ := ok
    have different := peers (peer, hca) List.mem_cons_self
    obtain ⟨behind, near, arrived⟩ := arrivals reachable setup.cards peer hca different
    refine ⟨peer, different, ?_⟩
    have pass := stuck.refused (show (Event.act rank (.pass block 0) : Event world hcas).expires = false
      from rfl)
    rw [act, here] at pass
    dsimp only at pass
    rw [List.getElem?_cons_zero, Option.bind_some] at pass
    dsimp only at pass
    split at pass
    · cases pass
    next waiting =>
      rw [slotOf_word] at waiting
      have channel := refines.channel peer rank hca (Ne.symm different)
      have come := mt (channel.flag_iff behind (by omega)).mpr waiting
      have delivered := stuck.delivered refines peer rank hca (Ne.symm different)
      have posted := stuck.posted refines peer rank hca (Ne.symm different)
        (handed_near reachable setup.cards rank hca (Ne.symm different)).1
      omega

end Waiting

/-- Ranks without an expired wait can always go on until all are done with the last launch. -/
theorem oneshot_progress {zero : V} (reachable : Reachable (oneshot setup zero) nodes)
    (sound : ∀ rank, (nodes rank).error = 0) {rank : Fin world}
    (unfinished : ¬ Finished setup (nodes rank)) :
    ∃ event, event.expires = false ∧ (oneshot setup zero).allowed nodes event := by
  by_contra nothing
  push Not at nothing
  obtain ⟨rounds, runs, refines⟩ := oneshot_refines reachable
  have stuck : Stuck setup nodes := by
    intro event waits
    by_contra some
    refine nothing event waits ⟨Option.isSome_iff_ne_none.mpr some, ?_⟩
    cases event with
    | deliver => rfl
    | act rank action => cases action <;> first | rfl | cases waits
  have between : ∀ rank, Between setup (nodes rank) (rounds.epoch rank) (rounds.rung rank) →
      (nodes rank).launch + 1 = setup.launches := by
    intro rank turning
    by_contra more
    have none := stuck.refused (show (Event.act rank .launch : Event world hcas).expires = false from rfl)
    have bounded := (refines.kernel rank).bounded
    rw [act, if_pos ⟨List.all_eq_true.mpr fun block inside =>
      turning.done block (List.mem_range.mp inside), by omega⟩] at none
    cases none
  -- a rank at work waits for one that is a launch behind and at work itself
  have idle : ∀ epoch rank, rounds.epoch rank = epoch → ¬ Working setup rank (nodes rank)
      (rounds.epoch rank) (rounds.rung rank) (fun peer hca => rounds.delivered peer rank hca) := by
    intro epoch
    induction epoch using Nat.strong_induction_on with
    | _ epoch ih =>
      intro rank same working
      obtain ⟨peer, _, behind⟩ := stuck.waits refines runs (sound rank) working
      have bounded := (refines.kernel rank).bounded
      rw [working.launch] at bounded
      have kernel := refines.kernel peer
      have announced := kernel.announced
      have following := kernel.following
      rcases kernel.mode with working' | turning | dead
      · have ahead := stuck.announced (sound peer) working'
        exact ih _ (by omega) peer rfl working'
      · have last := between peer turning
        rw [turning.launch] at last
        omega
      · exact dead.failed (sound peer)
  rcases (refines.kernel rank).mode with working | turning | dead
  · exact idle _ rank rfl working
  · exact unfinished ⟨between rank turning, turning.done⟩
  · exact dead.failed (sound rank)

/-- The second rank can go on where the first waits in the second launch. -/
theorem oneshot_progress_pair :
    ∃ event, event.expires = false ∧ (oneshot pair 0).allowed pairNodes event := by
  refine @oneshot_progress _ _ _ pair pairNodes 0 pairNodes_reachable (by decide +kernel) 1 ?_
  rintro ⟨_, done⟩
  exact absurd (done 0 (by decide +kernel)) (by decide +kernel)

end GlmSpark.RoceOneshot
