import GlmSpark.RoceRefinement

/-!
# Runs of the collectives

In every state that any interleaving of threads, proxies and network cards reaches, the
ranks stand for rounds. So no rank stores a wrong output pack in a launch in which none of
its peers gave up, and two ranks store the same bits there; a launch that completes is
complete; no proxy ever fails or loses a launch; and the network cards find the packs of
every launch in which their rank did not give up.

A rank that gives up in a launch may still announce it with a part of its packs staged, and
a peer then stores what the send slot held before. Expiries in a launch whose sequence number
is zero, one in `2 ^ 32` launches, leave no trace and are outside these runs.
-/

namespace GlmSpark.RoceOneshot

open Grid Lockstep RoceLayout Runs

universe u
variable {V : Type u} {world hcas : ℕ} {setup : Setup world hcas V}
  {nodes : Fin world → Node world hcas V} {rounds : Rounds (Fin world) (Fin hcas)}

section Steps

variable (refines : Refines setup nodes rounds)
  (reachable : Reachable (lockstep (Fin world) (Fin hcas)) rounds) {rank : Fin world}
  {next' : Node world hcas V}
include reachable

/-- How far the stripes of a peer are ahead of a rank. -/
theorem arrivals (cards : 0 < hcas) (peer : Fin world) (hca : Fin hcas) (different : peer ≠ rank) :
    rounds.epoch rank ≤ rounds.delivered peer rank hca ∧
      rounds.posted peer rank hca ≤ rounds.epoch rank + 2 ∧
      rounds.delivered peer rank hca ≤ rounds.posted peer rank hca := by
  have : Nonempty (Fin hcas) := ⟨⟨0, cards⟩⟩
  have order := ordered reachable
  exact ⟨order.completed peer rank hca (Ne.symm different),
    Nat.le_trans (order.handed peer rank hca) (order.unread peer rank), order.arrived peer rank hca⟩

/-- A rank has handed over all but the last two launches it announced, and all but the last
one of those its epoch has passed. -/
theorem handed_near (cards : 0 < hcas) (peer : Fin world) (hca : Fin hcas) (different : peer ≠ rank) :
    rounds.rung rank ≤ rounds.posted rank peer hca + 2 ∧
      rounds.epoch rank ≤ rounds.delivered rank peer hca + 1 ∧
      rounds.epoch rank ≤ rounds.posted rank peer hca + 1 := by
  have : Nonempty (Fin hcas) := ⟨⟨0, cards⟩⟩
  have order := ordered reachable
  have flight := order.in_flight rank peer hca different
  have kept := order.kept rank peer hca different
  have arrived := order.arrived rank peer hca
  omega

include refines

omit reachable in
/-- No step of a block clears the poison word. -/
theorem Refines.sticky {action : Act world hcas} (device : action.onDevice = true)
    (stepped : act setup rank (nodes rank) action = some next') :
    next'.poison = 0 → (nodes rank).poison = 0 := by
  intro clean
  rcases (act_onDevice device stepped).2.2 with same | ⟨block, rfl⟩
  · exact same ▸ clean
  · exact absurd clean ((refines.kernel rank).poison stepped).1

/-- A step of a block that is silent. -/
theorem Refines.device {action : Act world hcas} (device : action.onDevice = true)
    (quiet : action.onControl = false) (stepped : act setup rank (nodes rank) action = some next')
    (kernel : Kernel setup rank next' (PeersWhole nodes rounds.epoch rank) (rounds.epoch rank)
      (rounds.rung rank) fun peer hca => rounds.delivered peer rank hca) :
    ∃ later, Reachable (lockstep (Fin world) (Fin hcas)) later ∧
      Refines setup (Function.update nodes rank next') later := by
  obtain ⟨same, control, _⟩ := act_onDevice device stepped
  obtain ⟨size, doorbell⟩ := control quiet
  refine ⟨rounds, reachable, refines.silent kernel
    ((refines.poster rank).frame size doorbell same.last same.proxy) same.recv same.flag
    (refines.sticky device stepped) ?_⟩
  rw [same.queue]
  exact fun peer different hca => refines.channel rank peer hca different

/-- A step within a rank is a move of the rounds or none. -/
theorem Refines.act {action : Act world hcas}
    (noticed : unrecorded nodes (.act rank action) = false)
    (stepped : act setup rank (nodes rank) action = some next') :
    ∃ later, Reachable (lockstep (Fin world) (Fin hcas)) later ∧
      Refines setup (Function.update nodes rank next') later := by
  have order := ordered reachable
  have kernel := refines.kernel rank
  have poster := refines.poster rank
  have outgoing := refines.channel rank
  cases action with
  | begin block thread => exact refines.device reachable rfl rfl stepped (kernel.begin stepped)
  | stage block index => exact refines.device reachable rfl rfl stepped (kernel.stage stepped)
  | staged block => exact refines.device reachable rfl rfl stepped (kernel.staged stepped)
  | arrive block => exact refines.device reachable rfl rfl stepped (kernel.arrive stepped)
  | sync block => exact refines.device reachable rfl rfl stepped (kernel.sync stepped)
  | skip block index => exact refines.device reachable rfl rfl stepped (kernel.skip stepped)
  | finish block => exact refines.device reachable rfl rfl stepped (kernel.finish stepped)
  | poison block => exact refines.device reachable rfl rfl stepped (kernel.poison stepped).2
  | launch => exact refines.device reachable rfl rfl stepped (kernel.launch stepped)
  | expire block index =>
    refine refines.device reachable rfl rfl stepped (kernel.expire
      (fun gone door waits expired here => ?_) stepped)
    rw [unrecorded, here] at noticed
    cases noticed
  | pass block index =>
    refine refines.device reachable rfl rfl stepped (kernel.pass (fun peer different hca come => ?_) stepped)
    obtain ⟨behind, near, arrived⟩ := arrivals reachable setup.cards peer hca different
    exact ((refines.channel peer rank hca (Ne.symm different)).flag_iff behind (by omega)).mp come
  | write block index =>
    refine refines.device reachable rfl rfl stepped
      (kernel.write (fun whole peer different come pack small => ?_) stepped)
    obtain ⟨hca, card, mine⟩ := exists_stripe small setup.cards
    exact (refines.channel peer rank ⟨hca, card⟩ (Ne.symm different)).arrived _ (Nat.le_refl _)
      (come ⟨hca, card⟩) pack mine (whole peer different)
  | publish block =>
    obtain ⟨announced, doorbell, size, kept⟩ := kernel.publish stepped
    obtain ⟨same, _⟩ := act_onDevice rfl stepped
    refine ⟨rounds, reachable, refines.silent kept (poster.publish setup.cards announced
      (fun peer different hca => ?_) size doorbell same.last same.proxy) same.recv same.flag
      (refines.sticky rfl stepped) ?_⟩
    · exact (handed_near reachable setup.cards peer hca different).2.2
    · rw [same.queue]
      exact fun peer different hca => outgoing peer hca different
  | ring block =>
    obtain ⟨announced, published, size, doorbell, kept⟩ := kernel.ring stepped
    obtain ⟨same, _⟩ := act_onDevice rfl stepped
    have rungs : (Lockstep.step rounds (.ring rank)).rung rank = rounds.epoch rank + 1 := by
      dsimp only [Lockstep.step]
      rw [Function.update_self, announced]
    refine ⟨_, @reachable_move _ _ _ _ _ (.ring rank) reachable announced,
      refines.inside ?_ ?_ same.recv same.flag
      (fun _ still equal => refines.sticky rfl stepped (still equal)) ?_
      (fun other different => ⟨rfl, Function.update_of_ne different _ _, rfl⟩) rfl (Nat.le_refl _)⟩
    · rw [rungs]
      exact kept
    · rw [rungs]
      exact poster.ring announced published size doorbell same.last same.proxy
    · rw [same.queue]
      exact fun peer different hca => outgoing peer hca different
  | leave block =>
    rcases kernel.leave stepped with kept | ⟨announced, come, clean, kept⟩
    · exact refines.device reachable rfl rfl stepped kept
    · obtain ⟨same, control, _⟩ := act_onDevice rfl stepped
      obtain ⟨size, doorbell⟩ := control rfl
      have advances : (Lockstep.step rounds (.complete rank)).epoch rank = rounds.epoch rank + 1 := by
        dsimp only [Lockstep.step]
        rw [Function.update_self]
      refine ⟨_, @reachable_move _ _ _ _ _ (.complete rank) reachable
        ⟨announced, fun other channel different => come other different channel⟩,
        refines.inside ?_ (poster.frame size doorbell same.last same.proxy) same.recv same.flag
        (fun _ _ _ => clean) ?_ (fun other different => ⟨Function.update_of_ne different _ _, rfl, rfl⟩) rfl ?_⟩
      · rw [advances]
        exact kept
      · rw [same.queue]
        exact fun peer different hca => outgoing peer hca different
      · rw [advances]
        exact Nat.le_succ _
  | poll =>
    have kept := poster.poll setup.cards (fun peer different hca =>
      (handed_near reachable setup.cards peer hca different).1) stepped
    rw [RoceOneshot.act] at stepped
    repeat' split at stepped
    all_goals cases stepped
    all_goals exact ⟨rounds, reachable, refines.silent (kernel.host _ _ _ _ _) kept rfl rfl id
      fun peer different hca => outgoing peer hca different⟩
  | read =>
    have kept := poster.read stepped
    rw [RoceOneshot.act] at stepped
    split at stepped
    · dsimp only at stepped
      split at stepped
      all_goals cases stepped
      all_goals exact ⟨rounds, reachable, refines.silent (kernel.host _ _ _ _ _) kept rfl rfl id
        fun peer different hca => outgoing peer hca different⟩
    · cases stepped
  | posted =>
    have kept := poster.posted stepped
    rw [RoceOneshot.act] at stepped
    split at stepped
    · cases stepped
      exact ⟨rounds, reachable, refines.silent (kernel.host _ _ _ _ _) kept rfl rfl id
        fun peer different hca => outgoing peer hca different⟩
    · cases stepped
  | post =>
    obtain ⟨peer, hca, different, room, ⟨proxy, rfl⟩, kept⟩ := poster.post stepped
    have counts : ∀ p h, (Lockstep.step rounds (.post rank peer hca)).posted rank p h =
        if p = peer ∧ h = hca then rounds.posted rank p h + 1 else rounds.posted rank p h := by
      intro p h
      dsimp only [Lockstep.step, bump]
      exact if_congr (and_iff_right rfl) rfl rfl
    refine ⟨_, @reachable_move _ _ _ _ _ (.post rank peer hca) reachable room, refines.inside
      (kernel.host _ _ _ _ _) ?_ rfl rfl (fun _ => id) (fun p other h => ?_) (fun other different => ⟨rfl, rfl, ?_⟩) rfl
      (Nat.le_refl _)⟩
    · rw [show (Lockstep.step rounds (.post rank peer hca)).posted rank = fun p h =>
        if p = peer ∧ h = hca then rounds.posted rank p h + 1 else rounds.posted rank p h from
        funext fun p => funext fun h => counts p h]
      exact kept
    · rw [counts]
      dsimp only
      rw [Function.update_apply]
      by_cases same : p = peer
      · subst same
        rw [if_pos rfl, Function.update_apply]
        by_cases equal : h = hca
        · subst equal
          rw [if_pos rfl, if_pos ⟨rfl, rfl⟩]
          exact (outgoing p h other).post (order.arrived rank p h)
        · rw [if_neg equal, if_neg fun both => equal both.2]
          exact outgoing p h other
      · rw [if_neg same, if_neg fun both => same both.1]
        exact outgoing p h other
    · funext p h
      dsimp only [Lockstep.step, bump]
      rw [if_neg fun all => different all.1]
  | fetch peer hca index =>
    rw [RoceOneshot.act] at stepped
    split at stepped
    next slot pack here =>
      cases stepped
      refine ⟨rounds, reachable, refines.silent (kernel.host _ _ _ _ _) (poster.frame rfl rfl rfl rfl)
        rfl rfl id fun p other h => ?_⟩
      dsimp only
      rw [Function.update_apply]
      split
      next same =>
        subst same
        rw [Function.update_apply]
        split
        next equal =>
          subst equal
          have handed := order.handed rank p h
          refine (outgoing p h other).fetch (order.arrived rank p h) here
            fun launch above below pack mine => ?_
          have near := (handed_near reachable setup.cards p h other).2.1
          exact kernel.sent launch (by omega) (by omega) pack (stripe_inside h.isLt mine)
        next => exact outgoing p h other
      next => exact outgoing p h other
    next => cases stepped

/-- What lands is a move of the rounds or none. -/
theorem Refines.deliver {peer : Fin world} {hca : Fin hcas} {index : ℕ}
    {later : Fin world → Node world hcas V}
    (stepped : next setup nodes (.deliver rank peer hca index) = some later) :
    ∃ counts, Reachable (lockstep (Fin world) (Fin hcas)) counts ∧ Refines setup later counts := by
  rw [RoceOneshot.next] at stepped
  split at stepped
  next slot pack value here =>
    split at stepped
    next ready =>
      obtain ⟨different, first⟩ := ready
      cases stepped
      obtain ⟨behind, near, arrived⟩ := arrivals reachable setup.cards rank hca (Ne.symm different)
      have channel := refines.channel rank peer hca different
      obtain ⟨pending, slot', mine, landed⟩ := channel.land behind near here first
      refine ⟨rounds, reachable, refines.landed different (fun card => ?_)
        (fun other distinct => Function.update_of_ne distinct _ _) (fun other _ => rfl) ⟨rfl, rfl, rfl⟩
        (fun _ _ _ _ => rfl) fun _ _ _ => Nat.le_refl _⟩
      rw [Function.update_self]
      split
      next same =>
        rw [same]
        exact landed
      next distinct =>
        obtain ⟨behind', near', arrived'⟩ := arrivals reachable setup.cards rank card (Ne.symm different)
        refine (refines.channel rank peer card different).write behind' near' arrived'
          fun launch above below slot'' owned => ?_
        -- the slot is that of one launch only among the two that can be under way
        have same : launch = rounds.delivered rank peer hca := by omega
        rw [same] at owned
        exact distinct (Fin.ext (stripe_disjoint owned mine))
    next => cases stepped
  next slot seq here =>
    split at stepped
    next ready =>
      obtain ⟨different, first⟩ := ready
      cases stepped
      subst first
      obtain ⟨pending, raised⟩ := (refines.channel rank peer hca different).raise here
      have counts : ∀ card, (Lockstep.step rounds (.deliver rank peer hca)).delivered rank peer card =
          if card = hca then rounds.delivered rank peer card + 1 else rounds.delivered rank peer card := by
        intro card
        dsimp only [Lockstep.step, bump]
        exact if_congr ⟨fun all => all.2.2, fun same => ⟨rfl, rfl, same⟩⟩ rfl rfl
      refine ⟨_, @reachable_move _ _ _ _ _ (.deliver rank peer hca) reachable pending,
        refines.landed different (fun card => ?_) (fun other _ => rfl)
          (fun other distinct => Function.update_of_ne distinct _ _) ⟨rfl, rfl, rfl⟩
          (fun sender receiver card other => ?_) fun sender receiver card => le_bump _ _ _ _ _ _ _⟩
      · rw [counts, Function.update_self]
        split
        next same =>
          subst same
          have flags : (fun other => Function.update ((nodes peer).flag rank) slot
              (Function.update ((nodes peer).flag rank slot) card seq) other card) =
              Function.update (fun other => (nodes peer).flag rank other card) slot seq := by
            funext other
            rw [Function.update_apply, Function.update_apply]
            split
            · rw [Function.update_self]
            · rfl
          rw [flags]
          exact raised
        next distinct =>
          have flags : (fun other => Function.update ((nodes peer).flag rank) slot
              (Function.update ((nodes peer).flag rank slot) hca seq) other card) =
              fun other => (nodes peer).flag rank other card := by
            funext other
            rw [Function.update_apply]
            split
            next same => rw [Function.update_of_ne distinct, same]
            next => rfl
          rw [flags]
          exact refines.channel rank peer card different
      · dsimp only [Lockstep.step, bump]
        rw [if_neg fun all => other ⟨all.1, all.2.1⟩]
    next => cases stepped
  next => cases stepped

end Steps

/-- The ranks stand for rounds in every reachable state. -/
theorem oneshot_refines {zero : V} (reachable : Reachable (oneshot setup zero) nodes) :
    ∃ rounds, Reachable (lockstep (Fin world) (Fin hcas)) rounds ∧ Refines setup nodes rounds := by
  refine @Reachable.invariant _ _ (oneshot setup zero) (fun nodes => ∃ rounds,
    Reachable (lockstep (Fin world) (Fin hcas)) rounds ∧ Refines setup nodes rounds)
    ⟨_, Reachable.initial, Refines.fresh zero⟩ ?_ _ reachable
  rintro state event ⟨rounds, runs, refines⟩ ⟨possible, noticed⟩
  obtain ⟨after, stepped⟩ := Option.isSome_iff_exists.mp possible
  have value : (oneshot setup zero).step state event = after := by
    dsimp only [oneshot]
    rw [stepped, Option.getD_some]
  rw [value]
  cases event with
  | act rank action =>
    obtain ⟨after', moved, rfl⟩ := Option.map_eq_some_iff.mp stepped
    exact refines.act runs noticed moved
  | deliver rank peer hca index => exact refines.deliver runs stepped

/-- The steps of a block whose waits all give up. -/
def giveUp (block : ℕ) (waits : List (Fin world × Fin hcas)) : List (Act world hcas) :=
  waits.flatMap (fun _ => [.expire block 0, .poison block]) ++ [.sync block]

/-- Why runs leave out the expiry of a launch with sequence number zero: such a block goes on to
reduce whatever its receive slots hold, no flag has come, and no error is left behind. -/
theorem expiry_unnoticed {rank : Fin world} {node : Node world hcas V} {block : ℕ}
    {waits : List (Fin world × Fin hcas)} (here : node.place block = .run 0 [] .rung waits 0)
    (sound : node.poison = 0 ∧ node.error = 0) :
    ∃ next, (giveUp block waits).foldlM (act setup rank) node = some next ∧
      next.place block = .reduce 0 [] (setup.stores node.launch block) ∧ next.flag = node.flag ∧
      next.recv = node.recv ∧ next.poison = 0 ∧ next.error = 0 := by
  induction waits generalizing node with
  | nil =>
    have synced : act setup rank node (.sync block) =
        some (node.move block (.reduce 0 [] (setup.stores node.launch block))) := by
      rw [act, here]
      simp only [sound.1, if_true, List.not_mem_nil, not_false_eq_true, decide_true,
        List.filter_true]
    refine ⟨node.move block (.reduce 0 [] (setup.stores node.launch block)), ?_,
      Function.update_self _ _ _, rfl, rfl, sound⟩
    rw [giveUp, List.flatMap_nil, List.nil_append, List.foldlM_cons, synced]
    rfl
  | cons pair waits ih =>
    obtain ⟨next, ran, rest⟩ := @ih { node.move block (.run 0 [] .rung waits 0) with poison := 0, error := 0 }
      (Function.update_self _ _ _) ⟨rfl, rfl⟩
    refine ⟨next, ?_, rest⟩
    rw [giveUp, List.flatMap_cons, List.append_assoc, List.cons_append, List.cons_append,
      List.nil_append, List.foldlM_cons, act, here]
    dsimp only [List.getElem?_cons_zero, Option.map_some]
    rw [Option.bind_eq_bind, Option.bind_some, List.foldlM_cons, act]
    dsimp only [Node.move]
    rw [Function.update_self]
    dsimp only
    rw [Option.bind_eq_bind, Option.bind_some, Function.update_idem]
    exact ran

/-- In every reachable state, each output pack a rank has stored is a pack of the output, and it is
the one the collective asks for in every launch in which no peer gave up; so all ranks store the same
bits there. A rank that is not poisoned has stored all packs of the launches it is done with. -/
theorem oneshot_sound {zero : V} (reachable : Reachable (oneshot setup zero) nodes)
    (rank : Fin world) :
    (∀ launch dest, ((nodes rank).out launch dest).isSome = true →
      (setup.collective launch dest).isSome = true) ∧
    (∀ launch, (∀ peer ≠ rank, ¬ (nodes peer).GaveUp launch) → ∀ dest value,
      (nodes rank).out launch dest = some value → setup.collective launch dest = some value) ∧
    ((nodes rank).poison = 0 → ∀ launch, (launch < (nodes rank).launch ∨
        (launch = (nodes rank).launch ∧
          ∀ block < setup.grid launch, ((nodes rank).place block).isDone = true)) →
      ∀ dest, (setup.collective launch dest).isSome = true →
        ((nodes rank).out launch dest).isSome = true) := by
  obtain ⟨rounds, _, refines⟩ := oneshot_refines reachable
  have kernel := refines.kernel rank
  refine ⟨kernel.asked, fun launch kept => kernel.sound launch fun peer different =>
    (refines.kernel peer).whole (kept peer different),
    fun clean launch passed dest => kernel.complete launch ?_ dest⟩
  rcases passed with before | ⟨rfl, done⟩
  · rcases kernel.mode with working | between | dead
    · exact working.launch ▸ before
    · have turned := between.launch
      omega
    · exact absurd clean dead.poisoned
  · rcases kernel.settled done with between | poisoned
    · have turned := between.launch
      omega
    · exact absurd clean poisoned.1

section Pair

/-- A launch of a few packs, one and so many more. -/
def fewPacks (kind : Kind ℕ) (more : Fin 8) : Op ℕ where
  kind := kind
  packs := more + 1
  positive := Nat.succ_pos more
  fits := by
    have few := more.isLt
    rw [packBytes]
    omega

/-- Two ranks with one network card and two blocks of two threads each: an all-reduce of five packs on
both blocks, then an all-gather of two packs on one. -/
def pair : Setup 2 1 ℕ where
  threads := 2
  blocks := 2
  ops := fun launch =>
    if launch % 2 = 0 then fewPacks (.allReduce ⟨ℕ, id, (· + ·), id⟩) 4
    else fewPacks (.allGather 1 Nat.zero_lt_one) 1
  launches := 2
  input := fun rank launch pack => 100 * launch + 10 * rank.val + pack + 1
  someLaunch := Nat.zero_lt_two
  ranks := Nat.le_refl 2
  cards := Nat.zero_lt_one
  stripes := Nat.le_refl 2
  power := ⟨1, by decide, rfl⟩

/-- A block starts its threads, copies so many packs and counts itself as staged. -/
def blockStages (rank : Fin 2) (block packs : ℕ) : List (Event 2 1) :=
  [.act rank (.begin block 0), .act rank (.begin block 1)] ++
    List.replicate packs (.act rank (.stage block 0)) ++
    [.act rank (.staged block), .act rank (.arrive block)]

/-- The last block rings and the proxy posts. -/
def announces (rank : Fin 2) (block : ℕ) : List (Event 2 1) :=
  [.act rank (.publish block), .act rank (.ring block), .act rank .poll, .act rank .read,
    .act rank .post, .act rank .posted]

/-- The network card reads so many packs and delivers them and the flag. -/
def transfers (rank peer : Fin 2) (packs : ℕ) : List (Event 2 1) :=
  (List.range packs).map (fun index => .act rank (.fetch peer 0 index)) ++
    List.replicate (packs + 1) (.deliver rank peer 0 0)

/-- A block waits for its peer, stores so many packs and leaves. -/
def blockStores (rank : Fin 2) (block packs : ℕ) : List (Event 2 1) :=
  [.act rank (.pass block 0), .act rank (.sync block)] ++
    List.replicate packs (.act rank (.write block 0)) ++
    [.act rank (.finish block), .act rank (.leave block)]

/-- A rank stages and sends the first launch. -/
def sendsFirst (rank peer : Fin 2) : List (Event 2 1) :=
  blockStages rank 0 3 ++ blockStages rank 1 2 ++ announces rank 1 ++ transfers rank peer 5

/-- The first rank has reduced and announced the second launch, of which its network card has read one
pack; the second rank still waits in the first launch. -/
def pairNodes : Fin 2 → Node 2 1 ℕ :=
  (oneshot pair 0).run (oneshot pair 0).initial
    (sendsFirst 0 1 ++ sendsFirst 1 0 ++ blockStores 0 0 3 ++ blockStores 0 1 2 ++
      [.act 0 .launch] ++ blockStages 0 0 2 ++ announces 0 0 ++ [.act 0 (.fetch 1 0 0)])

/-- Every event of that run was permitted where it happened, so the state at its end is reachable.
-/
theorem pairNodes_reachable : Reachable (oneshot pair 0) pairNodes :=
  Reachable.initial.run _ (by decide +kernel)

/-- `oneshot_sound` for the first launch of the first rank: all five sums are there, and right. -/
theorem oneshot_sound_pair : (List.range 5).map ((pairNodes 0).out 0) =
    [some 12, some 14, some 16, some 18, some 20] := by
  obtain ⟨_, right, stored⟩ := oneshot_sound pairNodes_reachable 0
  have asked : ∀ dest < 5, (pair.collective 0 dest).isSome = true := by decide +kernel
  have clean : ∀ peer, (pairNodes peer).poison = 0 := by decide +kernel
  have sums : (List.range 5).map (pair.collective 0) =
      [some 12, some 14, some 16, some 18, some 20] := by decide +kernel
  rw [← sums]
  refine List.map_congr_left fun dest listed => ?_
  obtain ⟨value, given⟩ := Option.isSome_iff_exists.mp (stored (by decide +kernel) 0
    (Or.inl (by decide +kernel)) dest (asked dest (List.mem_range.mp listed)))
  exact given.trans (right 0 (fun peer _ gave => gave.1 (clean peer)) dest value given).symm

/-- The second rank gives up between the reads of the two threads of its second block: the first block
has staged and its wait for the first rank expires, the first thread of the second block has found no
poison, the second thread finds it. The block stages one of its two packs and rings. -/
def halfStaged : List (Event 2 1) :=
  blockStages 1 0 3 ++ [.act 1 (.begin 1 0), .act 1 (.expire 0 0), .act 1 (.poison 0),
    .act 1 (.begin 1 1), .act 1 (.stage 1 0), .act 1 (.staged 1), .act 1 (.arrive 1)] ++
    announces 1 1 ++ transfers 1 0 5

/-- Why the soundness of a launch asks that no peer gave up in it: the first rank, which never waits in
vain and is not poisoned, adds what the second rank's send slot held before. -/
theorem half_staged_stored :
    ∃ nodes, Reachable (oneshot pair 0) nodes ∧ (nodes 0).poison = 0 ∧ (nodes 1).GaveUp 0 ∧
      (nodes 0).out 0 3 = some 4 ∧ pair.collective 0 3 = some 18 :=
  ⟨_, Reachable.initial.run (halfStaged ++ sendsFirst 0 1 ++ blockStores 0 0 3 ++ blockStores 0 1 2)
    (by decide +kernel), by decide +kernel, ⟨by decide +kernel, by decide +kernel⟩,
    by decide +kernel, by decide +kernel⟩

end Pair

/-- In every reachable state no proxy has failed, a polling proxy is at most two launches behind its
doorbell, and a queue pair carries at most two launches. Every pack it carries belongs to a launch, and
unless the rank gave up in that launch it is right: a network card that has not read its pack yet still
finds it in the send slot. -/
theorem proxies_sound {zero : V} (reachable : Reachable (oneshot setup zero) nodes)
    (rank : Fin world) :
    (nodes rank).proxy ≠ .failed ∧
    ((nodes rank).proxy = .idle →
      ((nodes rank).doorbell - (nodes rank).last).toNat ≤ slots) ∧
    ∀ peer ≠ rank, ∀ hca : Fin hcas,
      ((nodes rank).queue peer hca).countP (fun request => !request.isData) ≤ slots ∧
      ∀ slot pack held, .data slot pack held ∈ (nodes rank).queue peer hca →
        ∃ launch, slot = (launch + 1) % slots ∧ pack ∈ setup.stripe launch hca ∧
          (¬ (nodes rank).GaveUp launch →
            held.getD ((nodes rank).send slot pack) = setup.input rank launch pack) := by
  obtain ⟨rounds, runs, refines⟩ := oneshot_refines reachable
  have poster := refines.poster rank
  have kernel := refines.kernel rank
  have ok := poster.proxy
  refine ⟨fun failed => ?_, fun idle => ?_, fun peer different hca => ?_⟩
  · rw [failed] at ok
    exact ok
  · rw [idle] at ok
    obtain ⟨launch, last, known, all, _⟩ := ok
    obtain ⟨peer, different⟩ := exists_peer setup.ranks rank
    have near := (handed_near runs setup.cards peer ⟨0, setup.cards⟩ different).1
    rw [all peer different] at near
    rw [poster.bell, last, word_sub known, word_toNat]
    exact Nat.le_trans (Nat.mod_le _ _) (by rw [slots]; omega)
  · have order := ordered runs
    have channel := refines.channel rank peer hca different
    have handed := order.handed rank peer hca
    have arrived := order.arrived rank peer hca
    obtain ⟨_, kept, _⟩ := handed_near runs setup.cards peer hca different
    have announced := kernel.following
    refine ⟨?_, fun slot pack held listed => ?_⟩
    · rw [channel.queued.flags, slots]
      omega
    · obtain ⟨launch, above, below, rfl, mine, right⟩ := channel.queued.payload listed
      refine ⟨launch, rfl, mine, fun kept => ?_⟩
      have whole := kernel.whole kept
      cases held with
      | none =>
        exact kernel.sent launch (by omega) (by omega) pack (stripe_inside hca.isLt mine) whole
      | some value => exact right value rfl whole

/-- `proxies_sound` for the first rank, whose queue holds the second launch: its proxy polls and has
posted everything, and the pack that the network card has not read is in the send slot. -/
theorem proxies_sound_pair :
    (pairNodes 0).proxy ≠ .failed ∧
      ((pairNodes 0).doorbell - (pairNodes 0).last).toNat ≤ slots ∧
      ((pairNodes 0).queue 1 0).countP (fun request => !request.isData) ≤ slots ∧
      ∃ launch, 0 = (launch + 1) % slots ∧ 1 ∈ pair.stripe launch (0 : Fin 1) ∧
        (pairNodes 0).send 0 1 = pair.input 0 launch 1 := by
  obtain ⟨running, polling, carried⟩ := proxies_sound pairNodes_reachable 0
  obtain ⟨few, packs⟩ := carried 1 (by decide) 0
  have clean : (pairNodes 0).poison = 0 := by decide +kernel
  obtain ⟨launch, slot, mine, right⟩ := packs 0 1 none (by decide +kernel)
  exact ⟨running, polling (by decide +kernel), few, launch, slot, mine, right fun gave => gave.1 clean⟩

end GlmSpark.RoceOneshot
