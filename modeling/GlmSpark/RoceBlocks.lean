import GlmSpark.RoceCollective
import GlmSpark.RoceTransport

/-!
# The blocks of one rank

A rank is described against two counts: the launches it has completed and those it has
announced. Its blocks are either at work on the launch the epoch stands for, all done with
a launch that advanced the epoch, or they do nothing because the rank is poisoned. While
they work, two free-running counters tell which of them are past staging and past the
data phase, exactly one block holds the doorbell when all have staged, and every block
has done what its place says.

Once the poison word is set, little is left to say. Threads that read it set stage nothing, and
their block may still count as staged; so the packs of the launch that set it are vouched for only
while it is clear. A block without its first thread keeps no counter.
-/

namespace GlmSpark.RoceOneshot

open Grid RoceLayout

universe u
variable {V : Type u} {world hcas : ℕ}

section Places

/-- A block is past the staging counter, and its leading thread was among those that went on. -/
def Phase.arrived : Phase world hcas V → Bool
  | .run _ gone door _ _ => door != .arrive && decide (lead ∉ gone)
  | .reduce _ gone _ | .leave _ gone => decide (lead ∉ gone)
  | .done skipped => !skipped
  | _ => false

/-- Past the counter of the data phase. -/
def Phase.left : Phase world hcas V → Bool
  | .done skipped => !skipped
  | _ => false

/-- Between the staging counter and the doorbell. -/
def Phase.holdsBell : Phase world hcas V → Bool
  | .run _ _ .publish _ _ | .run _ _ .ring _ _ => true
  | _ => false

/-- About to ring. -/
def Phase.rings : Phase world hcas V → Bool
  | .run _ _ .ring _ _ => true
  | _ => false

/-- About to poison the rank. -/
def Phase.doomed : Phase world hcas V → Bool
  | .run _ _ _ _ (_ + 1) => true
  | _ => false

/-- In the middle of a launch. -/
def Phase.busy : Phase world hcas V → Bool
  | .idle | .done _ => false
  | _ => true

/-- Two places of a block that count alike for the rest of its rank. -/
structure Phase.Alike (next place : Phase world hcas V) : Prop where
  arrived : next.arrived = place.arrived
  left : next.left = place.left
  holdsBell : next.holdsBell = place.holdsBell
  rings : next.rings = place.rings
  doomed : next.doomed = place.doomed

/-- What a block can rely on: the packs of the launch that are staged, the stripes that have
come, the output packs that are stored, and whether an expired wait is recorded. -/
structure Progress (world hcas : ℕ) where
  staged : ℕ → Prop
  came : Fin world → Fin hcas → Prop
  stored : ℕ → Prop
  failed : Prop
  poisoned : Prop

/-- A later progress has all that an earlier one has. -/
structure Progress.Le (before after : Progress world hcas) : Prop where
  staged : ∀ pack, before.staged pack → after.staged pack
  came : ∀ peer hca, before.came peer hca → after.came peer hca
  stored : ∀ dest, before.stored dest → after.stored dest
  failed : before.failed → after.failed
  poisoned : before.poisoned → after.poisoned

/-- A block whose threads have all copied their packs, unless the rank is poisoned: only then can
some of them be gone. -/
def Entered (setup : Setup world hcas V) (launch block : ℕ) (progress : Progress world hcas)
    (gone : List ℕ) : Prop :=
  (gone = [] ∧ ∀ pack ∈ setup.items launch block, progress.staged pack) ∨ progress.poisoned

/-- What a block of a launch has done when it is at a place. -/
def BlockOk (setup : Setup world hcas V) (rank : Fin world) (launch block : ℕ)
    (progress : Progress world hcas) : Phase world hcas V → Prop
  | .idle => True
  | .stage seq unread gone todo => seq = word (launch + 1) ∧
    ((gone = [] ∧ ∀ pack ∈ setup.items launch block,
      (∃ thread ∈ unread, pack ∈ setup.share launch block thread) ∨ pack ∈ todo ∨
        progress.staged pack) ∨ progress.poisoned)
  | .run seq gone door waits expired => seq = word (launch + 1) ∧
    Entered setup launch block progress gone ∧ (door = .arrive → lead ∉ gone) ∧
    (∀ pair ∈ waits, pair.1 ≠ rank) ∧ (0 < expired → seq ≠ 0 ∧ progress.failed) ∧
    ((∀ peer ≠ rank, ∀ hca, (peer, hca) ∈ waits ∨ progress.came peer hca) ∨ 0 < expired ∨
      progress.poisoned)
  | .reduce seq gone todo => seq = word (launch + 1) ∧
    Entered setup launch block progress gone ∧
    (∀ peer ≠ rank, ∀ hca, progress.came peer hca) ∧
    (∀ store ∈ todo, store ∈ setup.stores launch block) ∧
    ((∀ store ∈ setup.stores launch block, store ∈ todo ∨ progress.stored store.dest) ∨
      progress.poisoned)
  | .leave seq gone => seq = word (launch + 1) ∧
    Entered setup launch block progress gone ∧
    (((∀ peer ≠ rank, ∀ hca, progress.came peer hca) ∧
      ∀ store ∈ setup.stores launch block, progress.stored store.dest) ∨ progress.poisoned)
  | .done false => Entered setup launch block progress [] ∧
    (((∀ peer ≠ rank, ∀ hca, progress.came peer hca) ∧
      ∀ store ∈ setup.stores launch block, progress.stored store.dest) ∨ progress.poisoned)
  | .done true => progress.poisoned

variable {setup : Setup world hcas V} {rank : Fin world} {launch block : ℕ}
  {progress later : Progress world hcas}

/-- What the threads have copied stays copied. -/
theorem Entered.mono {gone : List ℕ} (entered : Entered setup launch block progress gone)
    (grows : progress.Le later) : Entered setup launch block later gone :=
  entered.imp (fun all => ⟨all.1, fun pack mine => grows.staged pack (all.2 pack mine)⟩)
    grows.poisoned

/-- Threads are gone from a poisoned rank only. -/
theorem Entered.complete {gone : List ℕ} (entered : Entered setup launch block progress gone)
    (clean : ¬ progress.poisoned) :
    gone = [] ∧ ∀ pack ∈ setup.items launch block, progress.staged pack :=
  entered.resolve_right clean

/-- What a block has done stays done. -/
theorem BlockOk.mono {place : Phase world hcas V}
    (ok : BlockOk setup rank launch block progress place) (grows : progress.Le later) :
    BlockOk setup rank launch block later place := by
  cases place with
  | idle => exact trivial
  | stage seq unread gone todo =>
    refine ⟨ok.1, ok.2.imp (fun all => ⟨all.1, fun pack mine => ?_⟩) grows.poisoned⟩
    exact (all.2 pack mine).imp_right (Or.imp_right (grows.staged pack))
  | run seq gone door waits expired =>
    obtain ⟨seq', entered, leads, peers, record, waited⟩ := ok
    refine ⟨seq', entered.mono grows, leads, peers,
      fun some => ⟨(record some).1, grows.failed (record some).2⟩, ?_⟩
    refine waited.imp (fun all peer other hca => ?_) (Or.imp_right grows.poisoned)
    exact (all peer other hca).imp_right (grows.came peer hca)
  | reduce seq gone todo =>
    obtain ⟨seq', entered, came, known, stored⟩ := ok
    refine ⟨seq', entered.mono grows,
      fun peer other hca => grows.came peer hca (came peer other hca), known, ?_⟩
    refine stored.imp (fun all store mine => ?_) grows.poisoned
    exact (all store mine).imp_right (grows.stored store.dest)
  | leave seq gone =>
    obtain ⟨seq', entered, finished⟩ := ok
    refine ⟨seq', entered.mono grows, ?_⟩
    exact finished.imp (fun all => ⟨fun peer other hca => grows.came peer hca (all.1 peer other hca),
      fun store mine => grows.stored store.dest (all.2 store mine)⟩) grows.poisoned
  | done skipped =>
    cases skipped with
    | true => exact grows.poisoned ok
    | false =>
      obtain ⟨entered, finished⟩ := ok
      refine ⟨entered.mono grows, ?_⟩
      exact finished.imp (fun all => ⟨fun peer other hca => grows.came peer hca (all.1 peer other hca),
        fun store mine => grows.stored store.dest (all.2 store mine)⟩) grows.poisoned

/-- A block past the staging counter has staged its packs, unless the rank is poisoned. -/
theorem BlockOk.staged {place : Phase world hcas V}
    (ok : BlockOk setup rank launch block progress place) (past : place.arrived = true)
    (clean : ¬ progress.poisoned) :
    ∀ pack ∈ setup.items launch block, progress.staged pack := by
  cases place with
  | idle => cases past
  | stage seq unread gone todo => cases past
  | run seq gone door waits expired => exact (ok.2.1.complete clean).2
  | reduce seq gone todo => exact (ok.2.1.complete clean).2
  | leave seq gone => exact (ok.2.1.complete clean).2
  | done skipped =>
    cases skipped with
    | true => cases past
    | false => exact (ok.1.complete clean).2

end Places

section Counters

/-- A bank of counters of which one class has counted so many arrivals of a launch. -/
def Counted (counter : ℕ → Word) (used count : ℕ) : Prop :=
  ∀ width ≤ 31, (counter width).toNat % 2 ^ width = if width = used then count % 2 ^ width else 0

variable {counter : ℕ → Word} {used count : ℕ}

/-- One more block arrives at the counter of its launch; the counters of other launches are not
touched. -/
theorem Counted.arrive (counted : Counted counter used count) :
    Counted (Function.update counter used (counter used + 1)) used (count + 1) := by
  intro width small
  have before := counted width small
  rw [Function.update_apply]
  split
  next same =>
    subst same
    rw [if_pos rfl] at before
    rw [counter_succ _ (by omega), before, Nat.mod_add_mod]
  next different =>
    rw [if_neg different] at before
    exact before

/-- The arrival that fills the grid is the one that finds itself last. -/
theorem Counted.last (counted : Counted counter used count) (small : used ≤ 31)
    (room : count < 2 ^ used) : lastArrival (counter used) (2 ^ used) = true ↔ count + 1 = 2 ^ used := by
  have before := counted used small
  rw [if_pos rfl] at before
  exact lastArrival_iff (by omega) before room

/-- A full grid leaves every class where it began. -/
theorem Counted.whole (counted : Counted counter used (2 ^ used)) (class' : ℕ) :
    Counted counter class' 0 := by
  intro width small
  have before := counted width small
  rw [Nat.zero_mod, ite_self]
  split at before
  next same => rw [before, same, Nat.mod_self]
  next => exact before

end Counters

section Invariant

/-- What the blocks of a rank can rely on in a launch. -/
def Node.progress (setup : Setup world hcas V) (rank : Fin world) (node : Node world hcas V)
    (launch : ℕ) (arrived : Fin world → Fin hcas → ℕ) : Progress world hcas where
  staged := fun pack => node.send ((launch + 1) % 2) pack = setup.input rank launch pack
  came := fun peer hca => launch < arrived peer hca
  stored := fun dest => (node.out launch dest).isSome = true
  failed := node.error ≠ 0
  poisoned := node.poison ≠ 0

/-- Whether a wait of a rank expired in a launch: the poison word keeps its sequence number. -/
def Node.GaveUp (node : Node world hcas V) (launch : ℕ) : Prop :=
  node.poison ≠ 0 ∧ node.poison = word (launch + 1)

/-- Whether a rank vouches for what it has staged of a launch. It stops to when a wait expires in the
launch under way: from then on its threads may skip the staging. -/
def Node.Whole (node : Node world hcas V) (epoch launch : ℕ) : Prop :=
  launch = epoch → node.poison = 0

variable (setup : Setup world hcas V) (rank : Fin world) (node : Node world hcas V)
  (fine : ℕ → Prop) (epoch rung : ℕ) (arrived : Fin world → Fin hcas → ℕ)

/-- The blocks work on the launch the epoch stands for. -/
structure Working : Prop where
  launch : node.launch = epoch
  blocks : ∀ block < setup.grid epoch,
    BlockOk setup rank epoch block (node.progress setup rank epoch arrived) (node.place block)
  staged : Counted node.stage (setup.counterClass epoch)
    (tally Phase.arrived node.place (setup.grid epoch))
  left : Counted node.tail (setup.counterClass epoch) (tally Phase.left node.place (setup.grid epoch))
  bell : ∀ block < setup.grid epoch, (node.place block).holdsBell = true → rung = epoch ∧
    tally Phase.arrived node.place (setup.grid epoch) = setup.grid epoch ∧
    ∀ other < setup.grid epoch, (node.place other).holdsBell = true → other = block
  due : rung = epoch → tally Phase.arrived node.place (setup.grid epoch) = setup.grid epoch →
    ∃ block < setup.grid epoch, (node.place block).holdsBell = true
  rang : rung = epoch ∨ tally Phase.arrived node.place (setup.grid epoch) = setup.grid epoch
  published : ∀ block < setup.grid epoch, (node.place block).rings = true →
    node.size ((epoch + 1) % 2) = word (setup.nbytes epoch)
  unfinished : node.error = 0 →
    tally Phase.left node.place (setup.grid epoch) < setup.grid epoch
  recorded : node.poison ≠ 0 → node.error ≠ 0
  pending : node.error ≠ 0 → node.poison ≠ 0 ∨
    ∃ block < setup.grid epoch, (node.place block).doomed = true

/-- All blocks are done and the epoch has advanced. -/
structure Between : Prop where
  launch : node.launch + 1 = epoch
  done : ∀ block < setup.grid node.launch, (node.place block).isDone = true
  announced : rung = epoch
  sound : node.poison = 0 ∧ node.error = 0
  staged : ∀ class', Counted node.stage class' 0
  left : ∀ class', Counted node.tail class' 0

/-- The rank is poisoned and its blocks skip everything. -/
structure Dead : Prop where
  poisoned : node.poison ≠ 0
  failed : node.error ≠ 0
  skips : ∀ block, node.place block = .idle ∨ node.place block = .done true

/-- The blocks of a rank that completed and announced so many launches. Output packs are those of the
collective in the launches that all peers have staged whole. -/
structure Kernel : Prop where
  stands : node.epoch = word epoch
  announced : epoch ≤ rung
  following : rung ≤ epoch + 1
  sent : ∀ launch, epoch ≤ launch + 1 → launch < rung → ∀ pack < (setup.ops launch).packs,
    Carries setup rank (node.Whole epoch) launch pack (node.send ((launch + 1) % 2) pack)
  named : node.poison ≠ 0 → node.poison = word (epoch + 1)
  asked : ∀ launch dest, (node.out launch dest).isSome = true →
    (setup.collective launch dest).isSome = true
  sound : ∀ launch, fine launch → ∀ dest value, node.out launch dest = some value →
    setup.collective launch dest = some value
  complete : ∀ launch < epoch, ∀ dest, (setup.collective launch dest).isSome = true →
    (node.out launch dest).isSome = true
  bounded : node.launch < setup.launches
  outside : ∀ block, setup.grid node.launch ≤ block → node.place block = .idle
  mode : Working setup rank node epoch rung arrived ∨ Between setup node epoch rung ∨ Dead node

variable {setup rank node fine epoch rung arrived}

/-- A rank vouches for every launch in which it did not give up. -/
theorem Kernel.whole (kernel : Kernel setup rank node fine epoch rung arrived) {launch : ℕ}
    (kept : ¬ node.GaveUp launch) : node.Whole epoch launch := by
  intro same
  by_contra poisoned
  exact kept ⟨poisoned, same ▸ kernel.named poisoned⟩

end Invariant

end GlmSpark.RoceOneshot
