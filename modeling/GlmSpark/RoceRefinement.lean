import GlmSpark.Lockstep
import GlmSpark.RoceKernel
import GlmSpark.RocePoster

/-!
# The collectives as rounds

Every run of the ranks is a run of rounds that cannot drift apart: a doorbell announces a
round, posting to a peer hands it to a channel, a flag that lands delivers it, and the last
block of a launch completes it. All other steps happen within a round. The drift bounds of
the rounds are what the slots rely on, and what the slots hold is what lets a block pass.
-/

namespace GlmSpark.RoceOneshot

open Grid Lockstep RoceLayout Runs

universe u
variable {V : Type u} {world hcas : ℕ}

/-- Whether all peers of a rank vouch for what they have staged of a launch. -/
def PeersWhole (nodes : Fin world → Node world hcas V) (epoch : Fin world → ℕ) (rank : Fin world)
    (launch : ℕ) : Prop :=
  ∀ peer ≠ rank, (nodes peer).Whole (epoch peer) launch

/-- The ranks stand for rounds when every rank, every proxy and every channel fits the counts. What a
channel carries and what a rank makes of it is right for the launches that the senders vouch for. -/
structure Refines (setup : Setup world hcas V) (nodes : Fin world → Node world hcas V)
    (rounds : Rounds (Fin world) (Fin hcas)) : Prop where
  kernel : ∀ rank, Kernel setup rank (nodes rank) (PeersWhole nodes rounds.epoch rank)
    (rounds.epoch rank) (rounds.rung rank) fun peer hca => rounds.delivered peer rank hca
  poster : ∀ rank, Poster setup rank (nodes rank) (rounds.rung rank) (rounds.posted rank)
  channel : ∀ rank peer hca, peer ≠ rank → Channel setup rank hca
    ((nodes rank).Whole (rounds.epoch rank)) ((nodes rank).queue peer hca) ((nodes peer).recv rank)
    (fun slot => (nodes peer).flag rank slot hca) (rounds.epoch peer)
    (rounds.posted rank peer hca) (rounds.delivered rank peer hca)

variable {setup : Setup world hcas V} {nodes : Fin world → Node world hcas V}
  {rounds : Rounds (Fin world) (Fin hcas)}

/-- The ranks before the first launch stand for rounds in which nothing has happened. -/
theorem Refines.fresh (zero : V) : Refines setup (fun _ => Node.fresh zero)
    (lockstep (Fin world) (Fin hcas)).initial :=
  ⟨fun _ => Kernel.fresh zero, fun _ => Poster.fresh zero, fun _ _ _ _ => Channel.fresh _⟩

/-- The steps of the blocks. -/
def Act.onDevice : Act world hcas → Bool
  | .poll | .read | .post | .posted | .fetch _ _ _ => false
  | _ => true

/-- The steps that write the control record. -/
def Act.onControl : Act world hcas → Bool
  | .publish _ | .ring _ => true
  | _ => false

/-- What a step of a block leaves alone. -/
structure SameHost (next node : Node world hcas V) : Prop where
  recv : next.recv = node.recv
  flag : next.flag = node.flag
  last : next.last = node.last
  proxy : next.proxy = node.proxy
  queue : next.queue = node.queue

/-- The blocks leave the host side alone and write the control record in two steps only. The poison
word is written where an expired wait is recorded, and nowhere else. -/
theorem act_onDevice {rank : Fin world} {node next : Node world hcas V} {action : Act world hcas}
    (device : action.onDevice = true) (stepped : act setup rank node action = some next) :
    SameHost next node ∧
      (action.onControl = false → next.size = node.size ∧ next.doorbell = node.doorbell) ∧
      (next.poison = node.poison ∨ ∃ block, action = .poison block) := by
  cases action with
  | poll => cases device
  | read => cases device
  | post => cases device
  | posted => cases device
  | fetch => cases device
  | publish | ring =>
    rw [act] at stepped
    split at stepped <;> cases stepped
    exact ⟨⟨rfl, rfl, rfl, rfl, rfl⟩, fun quiet => (by cases quiet), Or.inl rfl⟩
  | stage | write | expire =>
    rw [act] at stepped
    split at stepped
    · obtain ⟨_, _, rfl⟩ := Option.map_eq_some_iff.mp stepped
      exact ⟨⟨rfl, rfl, rfl, rfl, rfl⟩, fun _ => ⟨rfl, rfl⟩, Or.inl rfl⟩
    · cases stepped
  | pass =>
    rw [act] at stepped
    split at stepped
    · obtain ⟨⟨peer, hca⟩, _, moved⟩ := Option.bind_eq_some_iff.mp stepped
      dsimp only at moved
      split at moved <;> cases moved
      exact ⟨⟨rfl, rfl, rfl, rfl, rfl⟩, fun _ => ⟨rfl, rfl⟩, Or.inl rfl⟩
    · cases stepped
  | skip =>
    rw [act] at stepped
    split at stepped
    · obtain ⟨_, _, moved⟩ := Option.bind_eq_some_iff.mp stepped
      split at moved <;> cases moved
      exact ⟨⟨rfl, rfl, rfl, rfl, rfl⟩, fun _ => ⟨rfl, rfl⟩, Or.inl rfl⟩
    · cases stepped
  | begin | sync =>
    rw [act] at stepped
    repeat' split at stepped
    all_goals cases stepped
    all_goals exact ⟨⟨rfl, rfl, rfl, rfl, rfl⟩, fun _ => ⟨rfl, rfl⟩, Or.inl rfl⟩
  | poison block =>
    rw [act] at stepped
    split at stepped <;> cases stepped
    exact ⟨⟨rfl, rfl, rfl, rfl, rfl⟩, fun _ => ⟨rfl, rfl⟩, Or.inr ⟨block, rfl⟩⟩
  | staged | arrive | finish =>
    rw [act] at stepped
    split at stepped <;> cases stepped
    exact ⟨⟨rfl, rfl, rfl, rfl, rfl⟩, fun _ => ⟨rfl, rfl⟩, Or.inl rfl⟩
  | leave =>
    rw [act] at stepped
    split at stepped
    · dsimp only at stepped
      repeat' split at stepped
      all_goals cases stepped
      all_goals exact ⟨⟨rfl, rfl, rfl, rfl, rfl⟩, fun _ => ⟨rfl, rfl⟩, Or.inl rfl⟩
    · cases stepped
  | launch =>
    rw [act] at stepped
    split at stepped <;> cases stepped
    exact ⟨⟨rfl, rfl, rfl, rfl, rfl⟩, fun _ => ⟨rfl, rfl⟩, Or.inl rfl⟩

section Steps

variable (refines : Refines setup nodes rounds) {rank : Fin world} {next : Node world hcas V}
include refines

/-- A step within one rank: only its own kernel and proxy have to be looked at, all channels and all
other ranks are kept. -/
theorem Refines.inside {later : Rounds (Fin world) (Fin hcas)}
    (kernel : Kernel setup rank next (PeersWhole nodes rounds.epoch rank) (later.epoch rank)
      (later.rung rank) fun peer hca => rounds.delivered peer rank hca)
    (poster : Poster setup rank next (later.rung rank) (later.posted rank))
    (recv : next.recv = (nodes rank).recv) (flag : next.flag = (nodes rank).flag)
    (shrinks : ∀ launch, next.Whole (later.epoch rank) launch →
      (nodes rank).Whole (rounds.epoch rank) launch)
    (channel : ∀ peer ≠ rank, ∀ hca, Channel setup rank hca
      ((nodes rank).Whole (rounds.epoch rank)) (next.queue peer hca) ((nodes peer).recv rank)
      (fun slot => (nodes peer).flag rank slot hca) (rounds.epoch peer)
      (later.posted rank peer hca) (rounds.delivered rank peer hca))
    (others : ∀ other ≠ rank, later.epoch other = rounds.epoch other ∧
      later.rung other = rounds.rung other ∧ later.posted other = rounds.posted other)
    (delivered : later.delivered = rounds.delivered) (grows : rounds.epoch rank ≤ later.epoch rank) :
    Refines setup (Function.update nodes rank next) later := by
  -- no rank vouches for more than before
  have fewer : ∀ other launch, ((Function.update nodes rank next) other).Whole (later.epoch other)
      launch → (nodes other).Whole (rounds.epoch other) launch := by
    intro other launch
    by_cases same : other = rank
    · subst same
      rw [Function.update_self]
      exact shrinks launch
    · rw [Function.update_of_ne same, (others other same).1]
      exact id
  have peers : ∀ other launch, PeersWhole (Function.update nodes rank next) later.epoch other launch →
      PeersWhole nodes rounds.epoch other launch :=
    fun other launch still peer different => fewer peer launch (still peer different)
  refine ⟨fun other => ?_, fun other => ?_, fun sender receiver hca different =>
    Channel.weaken ?_ (fewer sender)⟩
  · refine Kernel.weaken ?_ (peers other)
    by_cases same : other = rank
    · subst same
      rw [Function.update_self, delivered]
      exact kernel
    · rw [Function.update_of_ne same, (others other same).1, (others other same).2.1, delivered]
      exact refines.kernel other
  · by_cases same : other = rank
    · subst same
      rw [Function.update_self]
      exact poster
    · rw [Function.update_of_ne same, (others other same).2.1, (others other same).2.2]
      exact refines.poster other
  · rw [delivered]
    by_cases sends : sender = rank
    · subst sends
      rw [Function.update_self, Function.update_of_ne different, (others receiver different).1]
      exact channel receiver different hca
    · rw [Function.update_of_ne sends, (others sender sends).2.2]
      by_cases receives : receiver = rank
      · subst receives
        rw [Function.update_self, recv, flag]
        exact (refines.channel sender receiver hca different).advance grows
      · rw [Function.update_of_ne receives, (others receiver receives).1]
        exact refines.channel sender receiver hca different

/-- A step within one rank that no other party counts. -/
theorem Refines.silent
    (kernel : Kernel setup rank next (PeersWhole nodes rounds.epoch rank) (rounds.epoch rank)
      (rounds.rung rank) fun peer hca => rounds.delivered peer rank hca)
    (poster : Poster setup rank next (rounds.rung rank) (rounds.posted rank))
    (recv : next.recv = (nodes rank).recv) (flag : next.flag = (nodes rank).flag)
    (sticky : next.poison = 0 → (nodes rank).poison = 0)
    (channel : ∀ peer ≠ rank, ∀ hca, Channel setup rank hca
      ((nodes rank).Whole (rounds.epoch rank)) (next.queue peer hca) ((nodes peer).recv rank)
      (fun slot => (nodes peer).flag rank slot hca) (rounds.epoch peer)
      (rounds.posted rank peer hca) (rounds.delivered rank peer hca)) :
    Refines setup (Function.update nodes rank next) rounds :=
  refines.inside kernel poster recv flag (fun _ still same => sticky (still same)) channel
    (fun _ _ => ⟨rfl, rfl, rfl⟩) rfl (Nat.le_refl _)

/-- Something lands at a peer: the channel and the peer's kernel have to be looked at, all others
are kept. -/
theorem Refines.landed {later : Rounds (Fin world) (Fin hcas)} {peer : Fin world} {hca : Fin hcas}
    {index : ℕ} {recv : Fin world → ℕ → ℕ → V} {flag : Fin world → ℕ → Fin hcas → Word}
    (different : peer ≠ rank)
    (channel : ∀ card, Channel setup rank card ((nodes rank).Whole (rounds.epoch rank))
      (if card = hca then ((nodes rank).queue peer hca).eraseIdx index else (nodes rank).queue peer card)
      (recv rank) (fun slot => flag rank slot card) (rounds.epoch peer)
      (rounds.posted rank peer card) (later.delivered rank peer card))
    (recvs : ∀ other ≠ rank, recv other = (nodes peer).recv other)
    (flags : ∀ other ≠ rank, flag other = (nodes peer).flag other)
    (same : later.epoch = rounds.epoch ∧ later.rung = rounds.rung ∧ later.posted = rounds.posted)
    (delivered : ∀ sender receiver card, ¬ (sender = rank ∧ receiver = peer) →
      later.delivered sender receiver card = rounds.delivered sender receiver card)
    (grows : ∀ sender receiver card,
      rounds.delivered sender receiver card ≤ later.delivered sender receiver card) :
    Refines setup (Function.update (Function.update nodes rank
      ((nodes rank).dequeue peer hca index)) peer { nodes peer with recv := recv, flag := flag })
      later := by
  obtain ⟨sameEpoch, sameRung, samePosted⟩ := same
  have poison : ∀ other, (Function.update (Function.update nodes rank
      ((nodes rank).dequeue peer hca index)) peer { nodes peer with recv := recv, flag := flag }
        other).poison = (nodes other).poison := by
    intro other
    by_cases receives : other = peer
    · rw [receives, Function.update_self]
    · rw [Function.update_of_ne receives]
      by_cases sends : other = rank
      · rw [sends, Function.update_self]
        rfl
      · rw [Function.update_of_ne sends]
  have fewer : ∀ other launch, (Function.update (Function.update nodes rank
      ((nodes rank).dequeue peer hca index)) peer { nodes peer with recv := recv, flag := flag }
        other).Whole (rounds.epoch other) launch → (nodes other).Whole (rounds.epoch other) launch :=
    fun other launch still same => poison other ▸ still same
  refine ⟨fun other => ?_, fun other => ?_, fun sender receiver card different' => ?_⟩
  · rw [sameEpoch, sameRung]
    refine Kernel.weaken (Kernel.come ?_ fun source card => grows source other card)
      fun launch still peer different => fewer peer launch (still peer different)
    by_cases receives : other = peer
    · subst receives
      rw [Function.update_self]
      exact (refines.kernel other).host _ _ _ _ _
    · rw [Function.update_of_ne receives]
      by_cases sends : other = rank
      · subst sends
        rw [Function.update_self]
        exact (refines.kernel other).host _ _ _ _ _
      · rw [Function.update_of_ne sends]
        exact refines.kernel other
  · rw [sameRung, samePosted]
    by_cases receives : other = peer
    · subst receives
      rw [Function.update_self]
      exact (refines.poster other).frame rfl rfl rfl rfl
    · rw [Function.update_of_ne receives]
      by_cases sends : other = rank
      · subst sends
        rw [Function.update_self]
        exact (refines.poster other).frame rfl rfl rfl rfl
      · rw [Function.update_of_ne sends]
        exact refines.poster other
  · rw [sameEpoch, samePosted]
    refine Channel.weaken ?_ (fewer sender)
    have queues : (Function.update (Function.update nodes rank
        ((nodes rank).dequeue peer hca index)) peer { nodes peer with recv := recv, flag := flag }
          sender).queue receiver card =
        if sender = rank ∧ receiver = peer ∧ card = hca then
          ((nodes rank).queue peer hca).eraseIdx index else (nodes sender).queue receiver card := by
      by_cases receives : sender = peer
      · subst receives
        rw [Function.update_self, if_neg fun all => different all.1]
      · rw [Function.update_of_ne receives]
        by_cases sends : sender = rank
        · subst sends
          rw [Function.update_self]
          dsimp only [Node.dequeue]
          rw [Function.update_apply]
          split
          next target =>
            rw [target, Function.update_apply]
            split
            next here => rw [if_pos ⟨rfl, rfl, here⟩]
            next other => rw [if_neg fun all => other all.2.2]
          next target => rw [if_neg fun all => target all.2.1]
        · rw [Function.update_of_ne sends, if_neg fun all => sends all.1]
    have target : (Function.update (Function.update nodes rank
        ((nodes rank).dequeue peer hca index)) peer { nodes peer with recv := recv, flag := flag }
          receiver).recv sender =
          (if sender = rank ∧ receiver = peer then recv rank else (nodes receiver).recv sender) ∧
        (Function.update (Function.update nodes rank
          ((nodes rank).dequeue peer hca index)) peer { nodes peer with recv := recv, flag := flag }
          receiver).flag sender =
          (if sender = rank ∧ receiver = peer then flag rank else (nodes receiver).flag sender) := by
      by_cases receives : receiver = peer
      · subst receives
        rw [Function.update_self]
        by_cases sends : sender = rank
        · rw [sends, if_pos ⟨rfl, rfl⟩, if_pos ⟨rfl, rfl⟩]
          exact ⟨rfl, rfl⟩
        · rw [if_neg fun all => sends all.1, if_neg fun all => sends all.1]
          exact ⟨recvs sender sends, flags sender sends⟩
      · rw [Function.update_of_ne receives, if_neg fun all => receives all.2,
          if_neg fun all => receives all.2]
        by_cases own : receiver = rank
        · subst own
          rw [Function.update_self]
          exact ⟨rfl, rfl⟩
        · rw [Function.update_of_ne own]
          exact ⟨rfl, rfl⟩
    rw [queues, target.1, target.2]
    by_cases here : sender = rank ∧ receiver = peer
    · obtain ⟨rfl, rfl⟩ := here
      have both : sender = sender ∧ receiver = receiver := ⟨rfl, rfl⟩
      have lands := channel card
      by_cases same : card = hca
      · rw [if_pos same] at lands
        rw [if_pos ⟨rfl, rfl, same⟩, if_pos both, if_pos both]
        exact lands
      · rw [if_neg same] at lands
        rw [if_neg fun all => same all.2.2, if_pos both, if_pos both]
        exact lands
    · rw [if_neg here, if_neg here, if_neg fun all => here ⟨all.1, all.2.1⟩,
        delivered sender receiver card here]
      exact refines.channel sender receiver card different'

end Steps

end GlmSpark.RoceOneshot
