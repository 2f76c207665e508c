import GlmSpark.RoceBlocks

/-!
# The steps of a launch

Every step of a block keeps what is known of its rank. Staging fills the send slot; the
block that finds itself last announces the launch; a block passes a wait only when the
stripe has come; the stores of the data phase are right because every stripe has come by
then; and the last block to leave completes the launch unless a wait expired.
-/

namespace GlmSpark.RoceOneshot

open Grid RoceLayout

universe u
variable {V : Type u} {world hcas : ℕ} {setup : Setup world hcas V} {rank : Fin world}
  {node : Node world hcas V} {fine : ℕ → Prop} {epoch rung : ℕ} {arrived : Fin world → Fin hcas → ℕ}

section Moving

/-- A table of slots after one pack was written. -/
theorem update_pack {α : Type*} (table : ℕ → ℕ → α) (slot pack : ℕ) (value : α) (row col : ℕ) :
    Function.update table slot (Function.update (table slot) pack value) row col =
      if row = slot ∧ col = pack then value else table row col := by
  rw [Function.update_apply]
  by_cases same : row = slot
  · subst same
    rw [if_pos rfl, Function.update_apply]
    by_cases equal : col = pack
    · rw [if_pos equal, if_pos ⟨rfl, equal⟩]
    · rw [if_neg equal, if_neg fun both => equal both.2]
  · rw [if_neg same, if_neg fun both => same both.1]

/-- What is picked from a list is gone, the others stay. -/
theorem eraseIdx_cases {α : Type*} {list : List α} {index : ℕ} {x y : α} (found : list[index]? = some x)
    (listed : y ∈ list) : y = x ∨ y ∈ list.eraseIdx index := by
  obtain ⟨place, at'⟩ := List.mem_iff_getElem?.mp listed
  by_cases same : place = index
  · subst same
    exact Or.inl (Option.some.inj (at'.symm.trans found))
  · exact Or.inr (List.mem_eraseIdx_iff_getElem?.mpr ⟨place, same, at'⟩)

/-- Moving one block to a place that counts alike changes what no block counts as. -/
theorem update_alike {α : Type*} {read : Phase world hcas V → α} {place : ℕ → Phase world hcas V}
    {block : ℕ} {next : Phase world hcas V} (same : read next = read (place block)) (other : ℕ) :
    read (Function.update place block next other) = read (place other) := by
  rw [Function.update_apply]
  split
  next here => rw [here, same]
  next => rfl

/-- The blocks of a launch after one has moved. -/
theorem Working.moved (working : Working setup rank node epoch rung arrived) {block : ℕ}
    {next : Phase world hcas V}
    (ok : BlockOk setup rank epoch block (node.progress setup rank epoch arrived) next) :
    ∀ other < setup.grid epoch, BlockOk setup rank epoch other
      (node.progress setup rank epoch arrived) (Function.update node.place block next other) := by
  intro other inside
  rw [Function.update_apply]
  split
  next here =>
    rw [here]
    exact ok
  next => exact working.blocks other inside

/-- A block that moves without counting itself or passing the bell keeps the counts of the launch.
What remains is what its move or its stores say themselves. -/
theorem Working.renew (working : Working setup rank node epoch rung arrived) {block : ℕ}
    {place : Phase world hcas V} {next : Node world hcas V}
    (sameLaunch : next.launch = node.launch) (sameStage : next.stage = node.stage)
    (sameTail : next.tail = node.tail) (moved : next.place = Function.update node.place block place)
    (arrives : place.arrived = (node.place block).arrived)
    (leaves : place.left = (node.place block).left)
    (holds : place.holdsBell = (node.place block).holdsBell)
    (blocks : ∀ other < setup.grid epoch, BlockOk setup rank epoch other
      (next.progress setup rank epoch arrived) (next.place other))
    (published : ∀ other < setup.grid epoch, (next.place other).rings = true →
      next.size ((epoch + 1) % 2) = word (setup.nbytes epoch))
    (sound : next.error = 0 → node.error = 0)
    (recorded : next.poison ≠ 0 → next.error ≠ 0)
    (pending : next.error ≠ 0 → next.poison ≠ 0 ∨
      ∃ other < setup.grid epoch, (next.place other).doomed = true) :
    Working setup rank next epoch rung arrived := by
  have staged : tally Phase.arrived next.place (setup.grid epoch) =
      tally Phase.arrived node.place (setup.grid epoch) := by
    rw [moved, tally_update_same _ _ arrives]
  have left : tally Phase.left next.place (setup.grid epoch) =
      tally Phase.left node.place (setup.grid epoch) := by
    rw [moved, tally_update_same _ _ leaves]
  have bells : ∀ other, (next.place other).holdsBell = (node.place other).holdsBell := by
    rw [moved]
    exact update_alike holds
  constructor
  case launch => exact sameLaunch.trans working.launch
  case blocks => exact blocks
  case staged =>
    rw [sameStage, staged]
    exact working.staged
  case left =>
    rw [sameTail, left]
    exact working.left
  case bell =>
    simp only [bells, staged]
    exact working.bell
  case due =>
    simp only [bells, staged]
    exact working.due
  case rang =>
    rw [staged]
    exact working.rang
  case published => exact published
  case unfinished =>
    rw [left]
    exact fun none => working.unfinished (sound none)
  case recorded => exact recorded
  case pending => exact pending

/-- A block that moves to a place that counts alike keeps the launch. -/
theorem Working.quiet (working : Working setup rank node epoch rung arrived) {block : ℕ}
    {next : Phase world hcas V} (alike : next.Alike (node.place block))
    (ok : BlockOk setup rank epoch block (node.progress setup rank epoch arrived) next) :
    Working setup rank (node.move block next) epoch rung arrived := by
  refine working.renew rfl rfl rfl rfl alike.arrived alike.left alike.holdsBell (working.moved ok)
    ?_ id working.recorded ?_
  · dsimp only [Node.move]
    simp only [update_alike alike.rings]
    exact working.published
  · dsimp only [Node.move]
    simp only [update_alike alike.doomed]
    exact working.pending

/-- More may have come, been staged or stored. -/
theorem Working.grow (working : Working setup rank node epoch rung arrived)
    {send : ℕ → ℕ → V} {out : ℕ → ℕ → Option V} {later : Fin world → Fin hcas → ℕ}
    (grows : (node.progress setup rank epoch arrived).Le
      (Node.progress setup rank { node with send := send, out := out } epoch later)) :
    Working setup rank { node with send := send, out := out } epoch rung later :=
  ⟨working.launch, fun block inside => (working.blocks block inside).mono grows, working.staged,
    working.left, working.bell, working.due, working.rang, working.published, working.unfinished,
    working.recorded, working.pending⟩

/-- A block about to ring has the bell. -/
theorem Phase.holdsBell_of_rings {place : Phase world hcas V} (rings : place.rings = true) :
    place.holdsBell = true := by
  cases place with
  | run _ _ door _ _ => cases door <;> first | rfl | cases rings
  | _ => cases rings

/-- A block that is done is not in the middle of a launch. -/
theorem Phase.busy_of_isDone {place : Phase world hcas V} (done : place.isDone = true) :
    place.busy = false := by
  cases place <;> first | rfl | cases done

/-- A block in the middle of a launch belongs to the grid of the launch under way. -/
theorem Kernel.busy (kernel : Kernel setup rank node fine epoch rung arrived) {block : ℕ}
    (busy : (node.place block).busy = true) :
    block < setup.grid epoch ∧ Working setup rank node epoch rung arrived := by
  have inside : block < setup.grid node.launch := by
    by_contra beyond
    rw [kernel.outside block (Nat.le_of_not_lt beyond)] at busy
    cases busy
  rcases kernel.mode with working | between | dead
  · rw [← working.launch]
    exact ⟨inside, working.launch.symm ▸ working⟩
  · rw [Phase.busy_of_isDone (between.done block inside)] at busy
    cases busy
  · rcases dead.skips block with here | here <;> rw [here] at busy <;> cases busy

/-- A step that leaves the epoch, the memory and the blocks outside the grid alone. -/
theorem Kernel.keep (kernel : Kernel setup rank node fine epoch rung arrived)
    {next : Node world hcas V} (sameEpoch : next.epoch = node.epoch) (sameSend : next.send = node.send)
    (sameOut : next.out = node.out) (sameLaunch : next.launch = node.launch)
    (samePoison : next.poison = node.poison)
    (outside : ∀ block, setup.grid node.launch ≤ block → next.place block = node.place block)
    (mode : Working setup rank next epoch rung arrived ∨ Between setup next epoch rung ∨ Dead next) :
    Kernel setup rank next fine epoch rung arrived := by
  constructor
  case stands => exact sameEpoch.trans kernel.stands
  case announced => exact kernel.announced
  case following => exact kernel.following
  case sent =>
    intro launch near less pack small still
    rw [sameSend]
    exact kernel.sent launch near less pack small fun same => samePoison ▸ still same
  case named =>
    rw [samePoison]
    exact kernel.named
  case asked =>
    rw [sameOut]
    exact kernel.asked
  case sound =>
    rw [sameOut]
    exact kernel.sound
  case complete =>
    rw [sameOut]
    exact kernel.complete
  case bounded =>
    rw [sameLaunch]
    exact kernel.bounded
  case outside =>
    rw [sameLaunch]
    exact fun block beyond => (outside block beyond).trans (kernel.outside block beyond)
  case mode => exact mode

/-- A block inside the grid is not one outside. -/
theorem outside_update {α : Type*} {place : ℕ → α} {block grid : ℕ} {next : α} (inside : block < grid) :
    ∀ other, grid ≤ other → Function.update place block next other = place other :=
  fun _ beyond => Function.update_of_ne (by omega) _ _

/-- A quiet move of a block, after which it stands for the same as before, keeps the rank's part of
the relation. -/
theorem Kernel.quiet (kernel : Kernel setup rank node fine epoch rung arrived) {block : ℕ}
    {next : Phase world hcas V} (inside : block < setup.grid epoch)
    (working : Working setup rank node epoch rung arrived) (alike : next.Alike (node.place block))
    (ok : BlockOk setup rank epoch block (node.progress setup rank epoch arrived) next) :
    Kernel setup rank (node.move block next) fine epoch rung arrived :=
  kernel.keep rfl rfl rfl rfl rfl (outside_update (working.launch ▸ inside))
    (Or.inl (working.quiet alike ok))

end Moving

section Quiet

variable (kernel : Kernel setup rank node fine epoch rung arrived) {block index : ℕ}
  {next : Node world hcas V}
include kernel

/-- A thread begins a launch or skips it. The first thread of a block to read the poison decides
whether the block runs at all; a later one takes part or returns. -/
theorem Kernel.begin {thread : ℕ} (stepped : act setup rank node (.begin block thread) = some next) :
    Kernel setup rank next fine epoch rung arrived := by
  rw [act] at stepped
  split at stepped
  next here =>
    split at stepped
    · cases stepped
    next within =>
      have inside : block < setup.grid node.launch :=
        Nat.lt_of_not_le fun beyond => within (Or.inl beyond)
      have own : thread < setup.threads := Nat.lt_of_not_le fun beyond => within (Or.inr beyond)
      rcases kernel.mode with working | between | dead
      · rw [working.launch] at inside
        split at stepped
        next sound =>
          obtain rfl := Option.some.inj stepped
          refine kernel.quiet inside working (here ▸ ⟨rfl, rfl, rfl, rfl, rfl⟩)
            ⟨?_, Or.inl ⟨rfl, fun pack mine => ?_⟩⟩
          · rw [kernel.stands, word_succ]
          · rw [working.launch]
            obtain ⟨owner, listed, visited⟩ := (setup.mem_items_iff).mp mine
            by_cases same : owner = thread
            · exact Or.inr (Or.inl (same ▸ visited))
            · exact Or.inl ⟨owner, (List.mem_erase_of_ne same).mpr listed, visited⟩
        next poisoned =>
          obtain rfl := Option.some.inj stepped
          exact kernel.quiet inside working (here ▸ ⟨rfl, rfl, rfl, rfl, rfl⟩) poisoned
      · have done := between.done block inside
        rw [here] at done
        cases done
      · rw [if_neg dead.poisoned] at stepped
        obtain rfl := Option.some.inj stepped
        refine kernel.keep rfl rfl rfl rfl rfl (outside_update inside)
          (Or.inr (Or.inr ⟨dead.poisoned, dead.failed, fun other => ?_⟩))
        dsimp only [Node.move]
        rw [Function.update_apply]
        split
        · exact Or.inr rfl
        · exact dead.skips other
  next seq unread gone todo here =>
    obtain ⟨inside, working⟩ := kernel.busy (by rw [here]; rfl)
    have ok := working.blocks block inside
    rw [here] at ok
    obtain ⟨rfl, staged⟩ := ok
    split at stepped
    · split at stepped
      next sound =>
        obtain rfl := Option.some.inj stepped
        refine kernel.quiet inside working (here ▸ ⟨rfl, rfl, rfl, rfl, rfl⟩)
          ⟨rfl, staged.imp_left fun all => ⟨all.1, fun pack mine => ?_⟩⟩
        rw [working.launch]
        rcases all.2 pack mine with ⟨owner, listed, visited⟩ | waiting | sent
        · by_cases same : owner = thread
          · exact Or.inr (Or.inl (List.mem_append_right _ (same ▸ visited)))
          · exact Or.inl ⟨owner, (List.mem_erase_of_ne same).mpr listed, visited⟩
        · exact Or.inr (Or.inl (List.mem_append_left _ waiting))
        · exact Or.inr (Or.inr sent)
      next poisoned =>
        obtain rfl := Option.some.inj stepped
        exact kernel.quiet inside working (here ▸ ⟨rfl, rfl, rfl, rfl, rfl⟩) ⟨rfl, Or.inr poisoned⟩
    · cases stepped
  next => cases stepped

/-- A block whose threads have copied their packs arrives next, unless its first thread is gone. -/
theorem Kernel.staged (stepped : act setup rank node (.staged block) = some next) :
    Kernel setup rank next fine epoch rung arrived := by
  rw [act] at stepped
  split at stepped
  next seq gone here =>
    obtain ⟨inside, working⟩ := kernel.busy (by rw [here]; rfl)
    obtain rfl := Option.some.inj stepped
    have ok := working.blocks block inside
    rw [here] at ok
    obtain ⟨rfl, staged⟩ := ok
    have alike : (.run (word (epoch + 1)) gone (if lead ∈ gone then .rung else .arrive)
        ((peersOf world hcas rank).filter fun pair => waiter pair ∉ gone) 0 :
          Phase world hcas V).Alike (node.place block) := by
      rw [here]
      by_cases absent : lead ∈ gone
      · rw [if_pos absent]
        exact ⟨by simp [Phase.arrived, absent], rfl, rfl, rfl, rfl⟩
      · rw [if_neg absent]
        exact ⟨rfl, rfl, rfl, rfl, rfl⟩
    refine kernel.quiet inside working alike ⟨rfl, staged.imp_left fun all => ⟨all.1, fun pack mine => ?_⟩,
      fun arriving absent => ?_, fun pair listed => mem_peersOf.mp (List.mem_of_mem_filter listed),
      fun none => absurd none (Nat.lt_irrefl 0), ?_⟩
    · rcases all.2 pack mine with ⟨_, listed, _⟩ | waiting | sent
      · cases listed
      · cases waiting
      · exact sent
    · rw [if_pos absent] at arriving
      cases arriving
    · rcases staged with ⟨rfl, _⟩ | poisoned
      · refine Or.inl fun peer other hca => Or.inl (List.mem_filter.mpr ⟨mem_peersOf.mpr other, ?_⟩)
        exact decide_eq_true List.not_mem_nil
      · exact Or.inr (Or.inr poisoned)
  next => cases stepped

/-- A block passes a wait when the stripe has come. -/
theorem Kernel.pass
    (flags : ∀ peer ≠ rank, ∀ hca, node.flag peer ((epoch + 1) % 2) hca = word (epoch + 1) →
      epoch < arrived peer hca)
    (stepped : act setup rank node (.pass block index) = some next) :
    Kernel setup rank next fine epoch rung arrived := by
  rw [act] at stepped
  split at stepped
  next seq gone door waits expired here =>
    obtain ⟨⟨peer, hca⟩, found, passed⟩ := Option.bind_eq_some_iff.mp stepped
    obtain ⟨inside, working⟩ := kernel.busy (by rw [here]; rfl)
    have ok := working.blocks block inside
    rw [here] at ok
    obtain ⟨rfl, entered, leads, peers, record, waited⟩ := ok
    dsimp only at passed
    split at passed
    next come =>
      obtain rfl := Option.some.inj passed
      rw [slotOf_word] at come
      have listed := List.mem_of_getElem? found
      have came := flags peer (peers _ listed) hca come
      refine kernel.quiet inside working (here ▸ ?_) ⟨rfl, entered, leads,
        fun pair kept => peers pair (List.mem_of_mem_eraseIdx kept), record, ?_⟩
      · cases door <;> cases expired <;> exact ⟨rfl, rfl, rfl, rfl, rfl⟩
      · refine waited.imp_left fun all other different card => ?_
        rcases all other different card with waiting | done
        · rcases eraseIdx_cases found waiting with same | still
          · obtain ⟨rfl, rfl⟩ := Prod.mk.inj same
            exact Or.inr came
          · exact Or.inl still
        · exact Or.inr done
    next => cases passed
  next => cases stepped

/-- A block whose waits have passed goes on to the data phase; a poisoned rank skips it. -/
theorem Kernel.sync (stepped : act setup rank node (.sync block) = some next) :
    Kernel setup rank next fine epoch rung arrived := by
  rw [act] at stepped
  split at stepped
  next seq gone here =>
    obtain ⟨inside, working⟩ := kernel.busy (by rw [here]; rfl)
    have ok := working.blocks block inside
    rw [here] at ok
    obtain ⟨rfl, entered, _, _, _, waited⟩ := ok
    split at stepped
    next sound =>
      obtain rfl := Option.some.inj stepped
      -- no thread is gone, so every store of the block is left to do
      obtain ⟨rfl, _⟩ := entered.complete fun poisoned => poisoned sound
      have alike : ∀ todo : List (Store world V),
          (.reduce (word (epoch + 1)) [] todo : Phase world hcas V).Alike (node.place block) := by
        intro todo
        rw [here]
        exact ⟨rfl, rfl, rfl, rfl, rfl⟩
      refine kernel.quiet inside working (alike _) ⟨rfl, entered, ?_, ?_, ?_⟩
      · rcases waited with all | none | poisoned
        · exact fun peer other hca => (all peer other hca).resolve_left List.not_mem_nil
        · exact absurd none (Nat.lt_irrefl 0)
        · exact absurd sound poisoned
      · rw [working.launch]
        exact fun _ mine => List.mem_of_mem_filter mine
      · rw [working.launch]
        exact Or.inl fun _ mine =>
          Or.inl (List.mem_filter.mpr ⟨mine, decide_eq_true List.not_mem_nil⟩)
    next poisoned =>
      obtain rfl := Option.some.inj stepped
      exact kernel.quiet inside working (here ▸ ⟨rfl, rfl, rfl, rfl, rfl⟩)
        ⟨rfl, entered, Or.inr poisoned⟩
  next => cases stepped

/-- A thread that reads the poison stores nothing. -/
theorem Kernel.skip (stepped : act setup rank node (.skip block index) = some next) :
    Kernel setup rank next fine epoch rung arrived := by
  rw [act] at stepped
  split at stepped
  next seq gone todo here =>
    obtain ⟨store, _, skipped⟩ := Option.bind_eq_some_iff.mp stepped
    obtain ⟨inside, working⟩ := kernel.busy (by rw [here]; rfl)
    have ok := working.blocks block inside
    rw [here] at ok
    obtain ⟨rfl, entered, came, known, _⟩ := ok
    split at skipped
    · cases skipped
    next poisoned =>
      obtain rfl := Option.some.inj skipped
      exact kernel.quiet inside working (here ▸ ⟨rfl, rfl, rfl, rfl, rfl⟩) ⟨rfl, entered, came,
        fun other listed => known other (List.mem_of_mem_eraseIdx listed), Or.inr poisoned⟩
  next => cases stepped

/-- A block that has stored everything leaves. -/
theorem Kernel.finish (stepped : act setup rank node (.finish block) = some next) :
    Kernel setup rank next fine epoch rung arrived := by
  rw [act] at stepped
  split at stepped
  next seq gone here =>
    obtain ⟨inside, working⟩ := kernel.busy (by rw [here]; rfl)
    obtain rfl := Option.some.inj stepped
    have ok := working.blocks block inside
    rw [here] at ok
    obtain ⟨rfl, entered, came, _, stored⟩ := ok
    refine kernel.quiet inside working (here ▸ ⟨rfl, rfl, rfl, rfl, rfl⟩) ⟨rfl, entered, ?_⟩
    exact stored.imp_left fun all =>
      ⟨came, fun store mine => (all store mine).resolve_left List.not_mem_nil⟩
  next => cases stepped

end Quiet

section Memory

variable (kernel : Kernel setup rank node fine epoch rung arrived) {block index : ℕ}
  {next : Node world hcas V}
include kernel

/-- A thread stages one pack into the send slot of its launch; the packs staged before are kept. -/
theorem Kernel.stage (stepped : act setup rank node (.stage block index) = some next) :
    Kernel setup rank next fine epoch rung arrived := by
  rw [act] at stepped
  split at stepped
  next seq unread gone todo here =>
    obtain ⟨pack, found, rfl⟩ := Option.map_eq_some_iff.mp stepped
    obtain ⟨inside, working⟩ := kernel.busy (by rw [here]; rfl)
    have ok := working.blocks block inside
    rw [here] at ok
    obtain ⟨rfl, staged⟩ := ok
    rw [slotOf_word, working.launch]
    have grown : Working setup rank { node with
        send := Function.update node.send ((epoch + 1) % 2) (Function.update
          (node.send ((epoch + 1) % 2)) pack (setup.input rank epoch pack)) } epoch rung arrived := by
      refine working.grow ⟨fun other sent => ?_, fun _ _ => id, fun _ => id, id, id⟩
      dsimp only [Node.progress]
      rw [update_pack]
      split
      next same => rw [same.2]
      next => exact sent
    have moved := @Working.quiet _ _ _ _ _ _ _ _ _ grown block
      (.stage (word (epoch + 1)) unread gone (todo.eraseIdx index)) (here ▸ ⟨rfl, rfl, rfl, rfl, rfl⟩)
      ⟨rfl, staged.imp_left fun all => ⟨all.1, fun other mine => by
        dsimp only [Node.progress]
        rw [update_pack]
        refine (all.2 other mine).imp_right fun waits => ?_
        rcases waits with waiting | sent
        · rcases eraseIdx_cases found waiting with rfl | still
          · exact Or.inr (if_pos ⟨rfl, rfl⟩)
          · exact Or.inl still
        · refine Or.inr ?_
          split
          next same => rw [same.2]
          next => exact sent⟩⟩
    refine ⟨kernel.stands, kernel.announced, kernel.following,
      fun launch near less other small still => ?_, kernel.named, kernel.asked, kernel.sound,
      kernel.complete, kernel.bounded, fun other beyond => (outside_update (working.launch ▸ inside)
        other beyond).trans (kernel.outside other beyond), Or.inl moved⟩
    have following := kernel.following
    dsimp only
    rw [update_pack]
    split
    next same =>
      rw [same.2, show launch = epoch by omega]
    next => exact kernel.sent launch near less other small still
  next => cases stepped

/-- A block stores an output pack: a place of the output, and what the collective asks for there if
the peers have staged the launch whole. -/
theorem Kernel.write
    (reads : fine epoch → ∀ peer ≠ rank, (∀ hca, epoch < arrived peer hca) →
      ∀ pack < (setup.ops epoch).packs,
        node.recv peer ((epoch + 1) % 2) pack = setup.input peer epoch pack)
    (stepped : act setup rank node (.write block index) = some next) :
    Kernel setup rank next fine epoch rung arrived := by
  rw [act] at stepped
  split at stepped
  next seq gone todo here =>
    obtain ⟨store, found, rfl⟩ := Option.map_eq_some_iff.mp stepped
    obtain ⟨inside, working⟩ := kernel.busy (by rw [here]; rfl)
    have ok := working.blocks block inside
    rw [here] at ok
    obtain ⟨rfl, entered, came, known, stored⟩ := ok
    obtain ⟨small, right⟩ := store_sound inside (known store (List.mem_of_getElem? found))
    dsimp only
    generalize made : store.value (fun source => if source = rank then
      setup.input rank node.launch store.pack
        else node.recv source (slotOf (word (epoch + 1))) store.pack) = value
    have exact' : fine epoch → setup.collective epoch store.dest = some value := by
      intro whole
      rw [right, ← made]
      congr 2
      funext source
      rw [slotOf_word, working.launch]
      split
      next own => rw [own]
      next other => exact (reads whole source other (came source other) store.pack small).symm
    rw [working.launch]
    have table : ∀ launch dest,
        Function.update node.out epoch (Function.update (node.out epoch) store.dest
          (some value)) launch dest =
        if launch = epoch ∧ dest = store.dest then some value else node.out launch dest :=
      fun launch dest => update_pack _ _ _ _ _ _
    have grown : Working setup rank { node with
        out := Function.update node.out epoch (Function.update (node.out epoch) store.dest
          (some value)) } epoch rung arrived := by
      refine working.grow ⟨fun _ => id, fun _ _ => id, fun dest done => ?_, id, id⟩
      dsimp only [Node.progress]
      rw [table]
      split
      · rfl
      · exact done
    have moved := @Working.quiet _ _ _ _ _ _ _ _ _ grown block
      (.reduce (word (epoch + 1)) gone (todo.eraseIdx index)) (here ▸ ⟨rfl, rfl, rfl, rfl, rfl⟩)
      ⟨rfl, entered, came, fun other listed => known other (List.mem_of_mem_eraseIdx listed), by
        refine stored.imp_left fun all other mine => ?_
        dsimp only [Node.progress]
        rw [table]
        rcases all other mine with waiting | done
        · rcases eraseIdx_cases found waiting with rfl | still
          · exact Or.inr (by rw [if_pos ⟨rfl, rfl⟩]; rfl)
          · exact Or.inl still
        · refine Or.inr ?_
          split
          · rfl
          · exact done⟩
    refine ⟨kernel.stands, kernel.announced, kernel.following, kernel.sent, kernel.named,
      fun launch dest => ?_, fun launch whole dest result given => ?_,
      fun launch less dest stored => ?_, kernel.bounded, fun other beyond =>
        (outside_update (working.launch ▸ inside) other beyond).trans (kernel.outside other beyond),
      Or.inl moved⟩
    · dsimp only
      rw [table]
      split
      next same =>
        rw [same.1, same.2, right]
        exact fun _ => rfl
      next => exact kernel.asked launch dest
    · dsimp only at given
      rw [table] at given
      split at given
      next same =>
        rw [same.1] at whole ⊢
        rw [same.2, exact' whole]
        exact given
      next => exact kernel.sound launch whole dest result given
    · dsimp only
      rw [table]
      split
      · rfl
      · exact kernel.complete launch less dest stored
  next => cases stepped

end Memory

section Counting

variable (kernel : Kernel setup rank node fine epoch rung arrived) {block index : ℕ}
  {next : Node world hcas V}
include kernel

/-- A block counts itself as staged; the last one gets the doorbell. -/
theorem Kernel.arrive (stepped : act setup rank node (.arrive block) = some next) :
    Kernel setup rank next fine epoch rung arrived := by
  rw [act] at stepped
  split at stepped
  next seq gone waits expired here =>
    obtain ⟨inside, working⟩ := kernel.busy (by rw [here]; rfl)
    obtain ⟨grid, small⟩ := setup.grid_eq epoch
    have out : (node.place block).arrived = false := by rw [here]; rfl
    have room := @tally_lt _ Phase.arrived node.place _ _ inside out
    have last := working.staged.last small (grid ▸ room)
    rw [← grid] at last
    have ok := working.blocks block inside
    rw [here] at ok
    obtain ⟨seq', entered, leads, waited⟩ := ok
    have here' : lead ∉ gone := leads rfl
    -- until now nobody has the bell and the launch is not announced
    have noBell : ∀ other < setup.grid epoch, (node.place other).holdsBell = false := by
      intro other inside'
      by_contra holds
      have full := (working.bell other inside' (Bool.of_not_eq_false holds)).2.1
      omega
    have quiet : rung = epoch := working.rang.resolve_right (by omega)
    rw [working.launch] at stepped
    obtain rfl := Option.some.inj stepped
    generalize lastArrival (node.stage (setup.counterClass epoch)) (setup.grid epoch) = final at last
    have place : ∀ door, (door = .publish ∨ door = .rung) →
        (.run seq gone door waits expired : Phase world hcas V).arrived = true ∧
        (.run seq gone door waits expired : Phase world hcas V).left = (node.place block).left ∧
        (.run seq gone door waits expired : Phase world hcas V).rings = false ∧
        (.run seq gone door waits expired : Phase world hcas V).doomed =
          (node.place block).doomed := by
      intro door either
      rw [here]
      rcases either with rfl | rfl <;> cases expired <;>
        exact ⟨decide_eq_true here', rfl, rfl, rfl⟩
    have door : (if final = true then Door.publish else Door.rung) = .publish ∨
        (if final = true then Door.publish else Door.rung) = .rung := by
      cases final
      · exact Or.inr rfl
      · exact Or.inl rfl
    obtain ⟨now, sameLeft, silent, sameDoomed⟩ := place _ door
    have staged := tally_update_new Phase.arrived inside out now
    have left := @tally_update_same _ Phase.left _ _ _ (setup.grid epoch) sameLeft
    have silence : ∀ other < setup.grid epoch, (Function.update node.place block
        (.run seq gone (if final = true then Door.publish else Door.rung) waits expired) other).rings =
          false := by
      intro other inside'
      rw [Function.update_apply]
      split
      · exact silent
      · by_contra rings
        have holds := Phase.holdsBell_of_rings (Bool.of_not_eq_false rings)
        rw [noBell other inside'] at holds
        cases holds
    refine kernel.keep rfl rfl rfl rfl rfl (outside_update (working.launch ▸ inside)) (Or.inl ?_)
    constructor
    case launch => exact working.launch
    case blocks => exact working.moved ⟨seq', entered, fun _ => here', waited⟩
    case staged =>
      rw [Node.move, staged]
      exact working.staged.arrive
    case left =>
      rw [Node.move, left]
      exact working.left
    case bell =>
      dsimp only [Node.move]
      rw [staged]
      intro other inside' holds
      have alone : ∀ other < setup.grid epoch, (Function.update node.place block
          (.run seq gone (if final = true then Door.publish else Door.rung) waits expired)
            other).holdsBell = true → other = block ∧ final = true := by
        intro other inside' holds
        rw [Function.update_apply] at holds
        split at holds
        next same =>
          cases final with
          | true => exact ⟨same, rfl⟩
          | false => cases holds
        next =>
          rw [noBell other inside'] at holds
          cases holds
      obtain ⟨rfl, full⟩ := alone other inside' holds
      exact ⟨quiet, last.mp full, fun another inside'' holds' => (alone another inside'' holds').1⟩
    case due =>
      dsimp only [Node.move]
      rw [staged]
      intro _ full
      refine ⟨block, inside, ?_⟩
      rw [Function.update_self, if_pos (last.mpr full)]
      rfl
    case rang => exact Or.inl quiet
    case published =>
      intro other inside' rings
      rw [Node.move, silence other inside'] at rings
      cases rings
    case unfinished =>
      dsimp only [Node.move]
      rw [left]
      exact working.unfinished
    case recorded => exact working.recorded
    case pending =>
      dsimp only [Node.move]
      simp only [update_alike sameDoomed]
      exact working.pending
  next => cases stepped

/-- The last block publishes the size of the payload before the launch is announced. -/
theorem Kernel.publish (stepped : act setup rank node (.publish block) = some next) :
    rung = epoch ∧ next.doorbell = node.doorbell ∧
      next.size = Function.update node.size ((epoch + 1) % 2) (word (setup.nbytes epoch)) ∧
      Kernel setup rank next fine epoch rung arrived := by
  rw [act] at stepped
  split at stepped
  next seq gone waits expired here =>
    obtain ⟨inside, working⟩ := kernel.busy (by rw [here]; rfl)
    have ok := working.blocks block inside
    rw [here] at ok
    obtain ⟨seq', entered, _, waited⟩ := ok
    obtain rfl := Option.some.inj stepped
    rw [seq', slotOf_word, working.launch]
    rw [seq'] at waited
    have doomed : (.run (word (epoch + 1)) gone .ring waits expired : Phase world hcas V).doomed =
        (node.place block).doomed := by rw [here]; cases expired <;> rfl
    refine ⟨(working.bell block inside (by rw [here]; rfl)).1, rfl, rfl,
      kernel.keep rfl rfl rfl rfl rfl (outside_update (working.launch ▸ inside)) (Or.inl ?_)⟩
    refine working.renew rfl rfl rfl rfl (by rw [here]; rfl) (by rw [here]; rfl) (by rw [here]; rfl)
      (working.moved ⟨rfl, entered, (fun ringing => by cases ringing), waited⟩)
      (fun _ _ _ => Function.update_self _ _ _) id working.recorded ?_
    dsimp only [Node.move]
    simp only [update_alike doomed]
    exact working.pending
  next => cases stepped

/-- Ringing the doorbell announces the launch: its payload is staged and its size published. -/
theorem Kernel.ring (stepped : act setup rank node (.ring block) = some next) :
    rung = epoch ∧ node.size ((epoch + 1) % 2) = word (setup.nbytes epoch) ∧
      next.size = node.size ∧ next.doorbell = word (epoch + 1) ∧
        Kernel setup rank next fine epoch (epoch + 1) arrived := by
  rw [act] at stepped
  split at stepped
  next seq gone waits expired here =>
    obtain ⟨inside, working⟩ := kernel.busy (by rw [here]; rfl)
    have ok := working.blocks block inside
    rw [here] at ok
    obtain ⟨seq', entered, _, waited⟩ := ok
    obtain ⟨quiet, full, alone⟩ := working.bell block inside (by rw [here]; rfl)
    have size := working.published block inside (by rw [here]; rfl)
    obtain rfl := Option.some.inj stepped
    rw [seq'] at waited ⊢
    have doomed : (.run (word (epoch + 1)) gone .rung waits expired : Phase world hcas V).doomed =
        (node.place block).doomed := by rw [here]; cases expired <;> rfl
    have staged := @tally_update_same _ Phase.arrived node.place block
      (.run (word (epoch + 1)) gone .rung waits expired) (setup.grid epoch) (by rw [here]; rfl)
    have left := @tally_update_same _ Phase.left node.place block
      (.run (word (epoch + 1)) gone .rung waits expired) (setup.grid epoch) (by rw [here]; rfl)
    have silent : ∀ other < setup.grid epoch, (Function.update node.place block
        (.run (word (epoch + 1)) gone .rung waits expired) other).holdsBell = false := by
      intro other inside'
      rw [Function.update_apply]
      split
      · rfl
      next different =>
        by_contra holds
        exact different (alone other inside' (Bool.of_not_eq_false holds))
    refine ⟨quiet, size, rfl, rfl, kernel.stands, Nat.le_succ _, Nat.le_refl _,
      fun launch near less pack small still => ?_, kernel.named, kernel.asked, kernel.sound,
      kernel.complete, kernel.bounded, fun other beyond =>
        (outside_update (working.launch ▸ inside) other beyond).trans (kernel.outside other beyond),
      Or.inl ?_⟩
    · by_cases same : launch = epoch
      · have clean : node.poison = 0 := still same
        rw [same] at small ⊢
        obtain ⟨owner, inside', item⟩ := setup.exists_item small
        exact (working.blocks owner inside').staged ((tally_eq_iff _ _ _).mp full owner inside')
          (fun poisoned => poisoned clean) pack item
      · exact kernel.sent launch near (by omega) pack small still
    constructor
    case launch => exact working.launch
    case blocks => exact working.moved ⟨rfl, entered, (fun ringing => by cases ringing), waited⟩
    case staged =>
      rw [Node.move, staged]
      exact working.staged
    case left =>
      rw [Node.move, left]
      exact working.left
    case bell =>
      intro other inside' holds
      rw [Node.move, silent other inside'] at holds
      cases holds
    case due => exact fun same => absurd same (Nat.succ_ne_self epoch)
    case rang =>
      right
      rw [Node.move, staged]
      exact full
    case published =>
      intro other inside' rings
      have holds := Phase.holdsBell_of_rings rings
      rw [Node.move, silent other inside'] at holds
      cases holds
    case unfinished =>
      dsimp only [Node.move]
      rw [left]
      exact working.unfinished
    case recorded => exact working.recorded
    case pending =>
      dsimp only [Node.move]
      simp only [update_alike doomed]
      exact working.pending
  next => cases stepped

/-- A wait expires: the block goes on without the packs it waited for, and notes it in the rank's
poison word. -/
theorem Kernel.expire
    (noticed : ∀ gone door waits expired, node.place block ≠ .run 0 gone door waits expired)
    (stepped : act setup rank node (.expire block index) = some next) :
    Kernel setup rank next fine epoch rung arrived := by
  rw [act] at stepped
  split at stepped
  next seq gone door waits expired here =>
    obtain ⟨pair, found, rfl⟩ := Option.map_eq_some_iff.mp stepped
    obtain ⟨inside, working⟩ := kernel.busy (by rw [here]; rfl)
    have nonzero : seq ≠ 0 := by
      rintro rfl
      exact noticed _ _ _ _ here
    have ok := working.blocks block inside
    rw [here] at ok
    obtain ⟨seq', entered, leads, peers, _, _⟩ := ok
    have rings : (.run seq gone door (waits.eraseIdx index) (expired + 1) : Phase world hcas V).rings =
        (node.place block).rings := by rw [here]; cases door <;> rfl
    have grows : (node.progress setup rank epoch arrived).Le
        (Node.progress setup rank { node with error := seq } epoch arrived) :=
      ⟨fun _ => id, fun _ _ => id, fun _ => id, fun _ => nonzero, id⟩
    refine kernel.keep rfl rfl rfl rfl rfl (outside_update (working.launch ▸ inside)) (Or.inl ?_)
    refine working.renew rfl rfl rfl rfl (by rw [here]; rfl) (by rw [here]; rfl)
      (by rw [here]; cases door <;> rfl) (fun other inside' => ?_) ?_
      (fun none => absurd none nonzero) (fun _ => nonzero) (fun _ => Or.inr ⟨block, inside, ?_⟩)
    · dsimp only [Node.move]
      rw [Function.update_apply]
      split
      next same =>
        subst same
        exact ⟨seq', entered.mono grows, leads,
          fun pair kept => peers pair (List.mem_of_mem_eraseIdx kept),
          fun _ => ⟨nonzero, nonzero⟩, Or.inr (Or.inl (Nat.succ_pos _))⟩
      next => exact (working.blocks other inside').mono grows
    · dsimp only [Node.move]
      simp only [update_alike rings]
      exact working.published
    · dsimp only [Node.move]
      rw [Function.update_self]
      rfl
  next => cases stepped

/-- An expired wait poisons the rank with the sequence number of the launch under way. From now on the
rank does not vouch for what it stages of this launch. -/
theorem Kernel.poison (stepped : act setup rank node (.poison block) = some next) :
    next.poison ≠ 0 ∧ Kernel setup rank next fine epoch rung arrived := by
  rw [act] at stepped
  split at stepped
  next seq gone door waits expired here =>
    obtain rfl := Option.some.inj stepped
    obtain ⟨inside, working⟩ := kernel.busy (by rw [here]; rfl)
    have ok := working.blocks block inside
    rw [here] at ok
    obtain ⟨seq', entered, leads, peers, record, _⟩ := ok
    obtain ⟨nonzero, failed⟩ := record (Nat.succ_pos _)
    have rings : (.run seq gone door waits expired : Phase world hcas V).rings =
        (node.place block).rings := by rw [here]; cases door <;> rfl
    have grows : (node.progress setup rank epoch arrived).Le
        (Node.progress setup rank { node with poison := seq } epoch arrived) :=
      ⟨fun _ => id, fun _ _ => id, fun _ => id, id, fun _ => nonzero⟩
    refine ⟨nonzero, kernel.stands, kernel.announced, kernel.following,
      fun launch near less pack small still => ?_, fun _ => seq', kernel.asked, kernel.sound,
      kernel.complete, kernel.bounded, fun other beyond =>
        (outside_update (working.launch ▸ inside) other beyond).trans (kernel.outside other beyond),
      Or.inl ?_⟩
    · exact kernel.sent launch near less pack small fun same => absurd (still same) nonzero
    refine working.renew rfl rfl rfl rfl (by rw [here]; rfl) (by rw [here]; rfl)
      (by rw [here]; cases door <;> rfl) (fun other inside' => ?_) ?_ id (fun _ => failed)
      (fun _ => Or.inl nonzero)
    · dsimp only [Node.move]
      rw [Function.update_apply]
      split
      next same =>
        subst same
        exact ⟨seq', entered.mono grows, leads, peers, fun _ => ⟨nonzero, failed⟩,
          Or.inr (Or.inr nonzero)⟩
      next => exact (working.blocks other inside').mono grows
    · dsimp only [Node.move]
      simp only [update_alike rings]
      exact working.published
  next => cases stepped

end Counting

section Turning

variable (kernel : Kernel setup rank node fine epoch rung arrived) {block index : ℕ}
  {next : Node world hcas V}

/-- Nothing is counted at the start of a launch. -/
theorem Working.start (sameLaunch : node.launch = epoch) (announced : rung = epoch)
    (sound : node.poison = 0 ∧ node.error = 0)
    (staged : Counted node.stage (setup.counterClass epoch) 0)
    (left : Counted node.tail (setup.counterClass epoch) 0)
    (idle : ∀ block, node.place block = .idle) :
    Working setup rank node epoch rung arrived := by
  have positive := setup.grid_pos epoch
  have nobody : tally Phase.arrived node.place (setup.grid epoch) = 0 :=
    tally_eq_zero _ fun block _ => by rw [idle]; rfl
  have nobody' : tally Phase.left node.place (setup.grid epoch) = 0 :=
    tally_eq_zero _ fun block _ => by rw [idle]; rfl
  constructor
  case launch => exact sameLaunch
  case blocks =>
    intro block _
    rw [idle]
    exact trivial
  case staged =>
    rw [nobody]
    exact staged
  case left =>
    rw [nobody']
    exact left
  case bell =>
    intro block _ holds
    rw [idle] at holds
    cases holds
  case due =>
    rw [nobody]
    exact fun _ full => absurd full (Nat.ne_of_lt positive)
  case rang => exact Or.inl announced
  case published =>
    intro block _ rings
    rw [idle] at rings
    cases rings
  case unfinished =>
    rw [nobody']
    exact fun _ => positive
  case recorded => exact fun poisoned => absurd sound.1 poisoned
  case pending => exact fun failed => absurd sound.2 failed

/-- A rank before its first launch stands for the start of its rounds. -/
theorem Kernel.fresh (zero : V) :
    Kernel setup rank (Node.fresh zero) fine 0 0 (fun _ _ => 0) := by
  have counted : ∀ used, Counted (fun _ => 0) used 0 := by
    intro used width _
    rw [Nat.zero_mod, ite_self]
    exact Nat.zero_mod _
  constructor
  case stands => rfl
  case announced => exact Nat.le_refl 0
  case following => exact Nat.zero_le 1
  case sent => exact fun launch _ less => absurd less (Nat.not_lt_zero launch)
  case named => exact fun poisoned => absurd rfl poisoned
  case asked => exact fun _ _ stored => Bool.noConfusion stored
  case sound => exact fun _ _ _ _ stored => absurd stored.symm (Option.some_ne_none _)
  case complete => exact fun launch less => absurd less (Nat.not_lt_zero launch)
  case bounded => exact setup.someLaunch
  case outside => exact fun _ _ => rfl
  case mode =>
    exact Or.inl (Working.start rfl rfl ⟨rfl, rfl⟩ (counted _) (counted _) fun _ => rfl)

/-- A block that has left has arrived before. -/
theorem Phase.arrived_of_left {place : Phase world hcas V} (left : place.left = true) :
    place.arrived = true ∧ place.holdsBell = false ∧ place.isDone = true := by
  cases place with
  | done skipped => cases skipped <;> first | exact ⟨rfl, rfl, rfl⟩ | cases left
  | _ => cases left

include kernel

/-- The last block to leave completes the launch, unless a wait expired: every stripe has
come, every output pack is stored and the launch has been announced. -/
theorem Kernel.leave (stepped : act setup rank node (.leave block) = some next) :
    Kernel setup rank next fine epoch rung arrived ∨
      (rung = epoch + 1 ∧ (∀ peer ≠ rank, ∀ hca, epoch < arrived peer hca) ∧ node.poison = 0 ∧
        Kernel setup rank next fine (epoch + 1) rung arrived) := by
  rw [act] at stepped
  split at stepped
  next seq gone here =>
    obtain ⟨inside, working⟩ := kernel.busy (by rw [here]; rfl)
    have ok := working.blocks block inside
    rw [here] at ok
    dsimp only at stepped
    split at stepped
    next absent =>
      -- the thread that keeps the counter is gone, so the rank is poisoned
      obtain rfl := Option.some.inj stepped
      have poisoned : node.poison ≠ 0 := fun clean => by
        rw [(ok.2.1.complete fun poisoned => poisoned clean).1] at absent
        cases absent
      refine Or.inl (kernel.quiet inside working (here ▸ ⟨?_, rfl, rfl, rfl, rfl⟩) poisoned)
      exact (decide_eq_false fun out => out absent).symm
    next present =>
      obtain ⟨grid, small⟩ := setup.grid_eq epoch
      have out : (node.place block).left = false := by rw [here]; rfl
      have room := @tally_lt _ Phase.left node.place _ _ inside out
      have last := working.left.last small (grid ▸ room)
      rw [← grid] at last
      have staged := @tally_update_same _ Phase.arrived node.place block (.done false)
        (setup.grid epoch) (by rw [here]; exact (decide_eq_true present).symm)
      have left := tally_update_new Phase.left inside out
        (show (Phase.done false : Phase world hcas V).left = true from rfl)
      have holds : (.done false : Phase world hcas V).holdsBell = (node.place block).holdsBell := by
        rw [here]; rfl
      have blocks := @Working.moved _ _ _ _ _ _ _ _ _ working block (.done false)
        ⟨ok.2.1.imp_left fun all => ⟨rfl, all.2⟩, ok.2.2⟩
      rw [working.launch] at stepped
      split at stepped
      next final =>
        obtain ⟨full, sound⟩ := final
        have all := last.mp full
        obtain rfl := Option.some.inj stepped
        rw [← left, tally_eq_iff] at all
        have gone : ∀ other < setup.grid epoch,
            Function.update node.place block (.done false) other = .done false := by
          intro other inside'
          have left' := all other inside'
          cases at' : Function.update node.place block (.done false) other with
          | done skipped => rw [at'] at left'; cases skipped <;> first | rfl | cases left'
          | _ => rw [at'] at left'; cases left'
        have clean : node.poison = 0 := by
          by_contra poisoned
          exact working.recorded poisoned sound
        have finished : (∀ peer ≠ rank, ∀ hca, epoch < arrived peer hca) ∧
            ∀ owner < setup.grid epoch, ∀ store ∈ setup.stores epoch owner,
              (node.out epoch store.dest).isSome = true := by
          refine ⟨?_, fun owner inside' => ?_⟩
          · have ok' := blocks block inside
            rw [gone block inside] at ok'
            exact (ok'.2.resolve_right fun poisoned => poisoned clean).1
          · have ok' := blocks owner inside'
            rw [gone owner inside'] at ok'
            exact (ok'.2.resolve_right fun poisoned => poisoned clean).2
        have arrivedAll : tally Phase.arrived node.place (setup.grid epoch) = setup.grid epoch := by
          rw [← staged, tally_eq_iff]
          exact fun other inside' => (Phase.arrived_of_left (all other inside')).1
        have announced : rung = epoch + 1 := by
          by_contra other
          have quiet : rung = epoch := by
            have := kernel.announced
            have := kernel.following
            omega
          obtain ⟨holder, inside', holds'⟩ := working.due quiet arrivedAll
          rw [← update_alike holds, (Phase.arrived_of_left (all holder inside')).2.1] at holds'
          cases holds'
        have counted := working.staged
        rw [arrivedAll, grid] at counted
        have counted' := working.left.arrive
        rw [← left, (tally_eq_iff _ _ _).mpr all, grid] at counted'
        refine Or.inr ⟨announced, finished.1, clean, ?_, by omega, by omega,
          fun launch near less pack mine _ => kernel.sent launch (by omega) less pack mine fun _ => clean,
          fun poisoned => absurd clean poisoned, kernel.asked, kernel.sound,
          fun launch less dest asked => ?_, kernel.bounded,
          fun other beyond => (outside_update (working.launch ▸ inside) other beyond).trans
            (kernel.outside other beyond), Or.inr (Or.inl ?_)⟩
        · rw [ok.1]
        · by_cases same : launch = epoch
          · rw [same] at asked ⊢
            obtain ⟨value, asked⟩ := Option.isSome_iff_exists.mp asked
            obtain ⟨owner, inside', store, mine, rfl⟩ := exists_store asked
            exact finished.2 owner inside' store mine
          · exact kernel.complete launch (by omega) dest asked
        · refine ⟨congrArg (· + 1) working.launch, fun other inside' => ?_, announced,
            ⟨clean, sound⟩, counted.whole, counted'.whole⟩
          exact (Phase.arrived_of_left (all other (working.launch ▸ inside'))).2.2
      next rest =>
        obtain rfl := Option.some.inj stepped
        refine Or.inl (kernel.keep rfl rfl rfl rfl rfl (outside_update (working.launch ▸ inside)) (Or.inl ?_))
        constructor
        case launch => exact working.launch
        case blocks => exact blocks
        case staged =>
          rw [Node.move, staged]
          exact working.staged
        case left =>
          rw [Node.move, left]
          exact working.left.arrive
        case bell =>
          dsimp only [Node.move]
          simp only [update_alike holds, staged]
          exact working.bell
        case due =>
          dsimp only [Node.move]
          simp only [update_alike holds, staged]
          exact working.due
        case rang =>
          dsimp only [Node.move]
          rw [staged]
          exact working.rang
        case published =>
          dsimp only [Node.move]
          simp only [update_alike (show (.done false : Phase world hcas V).rings =
            (node.place block).rings by rw [here]; rfl)]
          exact working.published
        case unfinished =>
          dsimp only [Node.move]
          rw [left]
          intro sound
          have notAll : ¬ tally Phase.left node.place (setup.grid epoch) + 1 = setup.grid epoch :=
            fun all => rest ⟨last.mpr all, sound⟩
          omega
        case recorded => exact working.recorded
        case pending =>
          dsimp only [Node.move]
          simp only [update_alike (show (.done false : Phase world hcas V).doomed =
            (node.place block).doomed by rw [here]; rfl)]
          exact working.pending
  next => cases stepped

/-- A rank whose blocks are all done has completed the launch, or it is poisoned. -/
theorem Kernel.settled
    (done : ∀ block < setup.grid node.launch, (node.place block).isDone = true) :
    Between setup node epoch rung ∨ (node.poison ≠ 0 ∧ node.error ≠ 0) := by
  rcases kernel.mode with working | between | dead
  · right
    rw [working.launch] at done
    have failed : node.error ≠ 0 := by
      intro sound
      have clean : node.poison = 0 := by
        by_contra poisoned
        exact working.recorded poisoned sound
      refine Nat.ne_of_lt (working.unfinished sound) ((tally_eq_iff _ _ _).mpr fun block inside => ?_)
      have ok := working.blocks block inside
      have ended := done block inside
      cases here : node.place block with
      | done skipped =>
        rw [here] at ok
        cases skipped with
        | true => exact absurd clean ok
        | false => rfl
      | _ =>
        rw [here] at ended
        cases ended
    refine ⟨(working.pending failed).resolve_right ?_, failed⟩
    rintro ⟨block, inside, doomed⟩
    have ended := done block inside
    cases here : node.place block with
    | done skipped =>
      rw [here] at doomed
      cases doomed
    | _ =>
      rw [here] at ended
      cases ended
  · exact Or.inl between
  · exact Or.inr ⟨dead.poisoned, dead.failed⟩

/-- The next launch starts when all blocks are done. -/
theorem Kernel.launch (stepped : act setup rank node .launch = some next) :
    Kernel setup rank next fine epoch rung arrived := by
  rw [act] at stepped
  split at stepped
  next ready =>
    obtain ⟨done, more⟩ := ready
    obtain rfl := Option.some.inj stepped
    rw [List.all_eq_true] at done
    have settled := kernel.settled fun block inside => done block (List.mem_range.mpr inside)
    refine ⟨kernel.stands, kernel.announced, kernel.following, kernel.sent, kernel.named, kernel.asked,
      kernel.sound, kernel.complete, more, fun _ _ => rfl, ?_⟩
    rcases settled with between | ⟨poisoned, failed⟩
    · exact Or.inl (Working.start between.launch between.announced between.sound (between.staged _)
        (between.left _) fun _ => rfl)
    · exact Or.inr (Or.inr ⟨poisoned, failed, fun _ => Or.inl rfl⟩)
  next => cases stepped

/-- The blocks do not see what the network cards and the proxy do to the region. -/
theorem Kernel.host (recv : Fin world → ℕ → ℕ → V) (flag : Fin world → ℕ → Fin hcas → Word)
    (last : Word) (proxy : Proxy world hcas) (queue : Fin world → Fin hcas → List (Wr V)) :
    Kernel setup rank { node with
      recv := recv, flag := flag, last := last, proxy := proxy, queue := queue } fine epoch rung arrived := by
  refine kernel.keep rfl rfl rfl rfl rfl (fun _ _ => rfl) ?_
  rcases kernel.mode with working | between | dead
  · exact Or.inl ⟨working.launch, working.blocks, working.staged, working.left, working.bell,
      working.due, working.rang, working.published, working.unfinished, working.recorded,
      working.pending⟩
  · exact Or.inr (Or.inl ⟨between.launch, between.done, between.announced, between.sound,
      between.staged, between.left⟩)
  · exact Or.inr (Or.inr ⟨dead.poisoned, dead.failed, dead.skips⟩)

/-- The relation is kept when more stripes have come from the peers. -/
theorem Kernel.come {later : Fin world → Fin hcas → ℕ}
    (grows : ∀ peer hca, arrived peer hca ≤ later peer hca) :
    Kernel setup rank node fine epoch rung later := by
  refine ⟨kernel.stands, kernel.announced, kernel.following, kernel.sent, kernel.named, kernel.asked,
    kernel.sound, kernel.complete, kernel.bounded, kernel.outside,
    kernel.mode.imp_left fun working => ?_⟩
  exact working.grow ⟨fun _ => id, fun peer hca come => Nat.lt_of_lt_of_le come (grows peer hca),
    fun _ => id, id, id⟩

/-- Fewer launches may be staged whole by the peers. -/
theorem Kernel.weaken {fewer : ℕ → Prop} (shrinks : ∀ launch, fewer launch → fine launch) :
    Kernel setup rank node fewer epoch rung arrived :=
  ⟨kernel.stands, kernel.announced, kernel.following, kernel.sent, kernel.named, kernel.asked,
    fun launch whole => kernel.sound launch (shrinks launch whole), kernel.complete, kernel.bounded,
    kernel.outside, kernel.mode⟩

end Turning

end GlmSpark.RoceOneshot
