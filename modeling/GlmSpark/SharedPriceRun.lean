import GlmSpark.PriceLedger

/-!
# Runs of the shared price

Seen from the end of its stream a graph set always holds the one price of its variant: the
price the latest decision for one request ended with. A host policy holds it too unless its
set is dirty, and then the pinned copy is not written again before it is adopted.
-/

namespace GlmSpark.SharedPrice

open DraftPolicy PriceUpdate DraftTruncation GatedTruncation DevSelect CommandStream Runs

universe u v w
variable {ι : Type u} {ρ : Type v} {F : Type w} [DecidableEq ι] [DecidableEq ρ]

section Handover

variable [Field F] [LinearOrder F]

/-- The price a graph set holds. -/
def Device.lam (device : Device ι F) (set : ι) : F := (device.sets set).lam

/-- Filling a set's price on the device changes that set's price only. -/
theorem lam_fill (device : Device ι F) (set : ι) (value : F) :
    (device.exec (.fill set value)).lam = Function.update device.lam set value := by
  funext v
  change (Function.update device.sets set _ v).lam = _
  by_cases own : v = set
  · rw [own, Function.update_self, Function.update_self]
  · rw [Function.update_of_ne own, Function.update_of_ne own]
    rfl

/-- The parent kernel of a set writes that set's price only, to what its selection leaves. -/
theorem lam_parent (device : Device ι F) (set : ι) :
    (device.exec (.parent set)).lam =
      Function.update device.lam set (selectKernel device.shared (device.sets set)).2.lam := by
  funext v
  change (Function.update device.sets set _ v).lam = _
  by_cases own : v = set
  · rw [own, Function.update_self, Function.update_self]
    rfl
  · rw [Function.update_of_ne own, Function.update_of_ne own]
    rfl

/-- The device at the end of the stream holds every variant's price, in the graph set, and in the
pinned copy while the set is dirty; the host policy holds it while the set is clean. -/
structure Shares (policy : Policy F) (nb : ℕ) (host : Host ι F) : Prop where
  tables : ∀ v, SameTables policy (host.pols v)
  shared : host.view.shared =
    devTensors policy nb host.view.shared.conf host.view.shared.valid (-1)
  drafts : host.view.shared.conf.length = kMax
  clean : ∀ v, (host.entries v).dirty = false → (host.pols v).price 1 = host.view.lam v
  dirty : ∀ v, (host.entries v).dirty = true → host.view.pins v = host.view.lam v
  pinned : ∀ v, (host.entries v).dirty = true →
    ∀ command ∈ host.stream.sent.drop (host.entries v).lamEv, command ≠ .publish v
  counted : host.view.picks.length = host.steps
  numbered : ∀ number, .device number ∈ host.decided → number < host.steps
  ledger : Ledger policy host.outcomes host.view.lam host.pols

/-- A command runs on everything sent before it. -/
@[simp] theorem view_send (host : Host ι F) (command : Command ι F) :
    (host.send command).view = host.view.exec command :=
  Queue.settled_send Device.exec host.stream command

/-- Only publishing a variant writes its pinned copy; every other command leaves it alone. -/
theorem exec_pins (device : Device ι F) (command : Command ι F) {v : ι}
    (other : command ≠ .publish v) : (device.exec command).pins v = device.pins v := by
  cases command with
  | publish set =>
    have different : v ≠ set := fun same => other (same ▸ rfl)
    exact Function.update_of_ne different _ _
  | conf row => rfl
  | valid value => rfl
  | parent set => rfl
  | fill set value => rfl

omit [DecidableEq ι] [Field F] [LinearOrder F] in
/-- What is sent after an event is what was sent after it before, and the new command. -/
theorem mem_drop_send {commands : List (Command ι F)} {command other : Command ι F} {event : ℕ}
    (sent : other ∈ (commands ++ [command]).drop event) :
    other ∈ commands.drop event ∨ other = command := by
  rw [List.drop_append] at sent
  obtain earlier | last := List.mem_append.mp sent
  · exact .inl earlier
  · exact .inr (List.mem_singleton.mp (List.mem_of_mem_drop last))

variable {policy : Policy F} {nb : ℕ} {host : Host ι F}

/-- A policy with the deployed tables may be written for any variant. -/
theorem Shares.tables_update (shares : Shares policy nb host) (set : ι) {written : Policy F}
    (same : SameTables policy written) (v : ι) :
    SameTables policy (Function.update host.pols set written v) := by
  revert v
  rw [Function.forall_update_iff host.pols fun _ p => SameTables policy p]
  exact ⟨same, fun v _ => shares.tables v⟩

/-- A new confidence or its mark concerns no price. -/
theorem Shares.send_shared (shares : Shares policy nb host) (command : Command ι F)
    (shared : (host.view.exec command).shared = devTensors policy nb
      (host.view.exec command).shared.conf (host.view.exec command).shared.valid (-1))
    (drafts : (host.view.exec command).shared.conf.length = kMax)
    (lams : (host.view.exec command).lam = host.view.lam)
    (pins : (host.view.exec command).pins = host.view.pins)
    (picks : (host.view.exec command).picks = host.view.picks)
    (other : ∀ v, command ≠ .publish v) : Shares policy nb (host.send command) := by
  have outcomes : (host.send command).outcomes = host.outcomes := by
    rw [Host.outcomes, Host.outcomes, view_send, picks]
    rfl
  constructor
  case tables => exact shares.tables
  case shared => rw [view_send]; exact shared
  case drafts => rw [view_send]; exact drafts
  case clean => rw [view_send, lams]; exact shares.clean
  case dirty => rw [view_send, lams, pins]; exact shares.dirty
  case pinned =>
    intro v waiting later sent
    obtain earlier | rfl := mem_drop_send sent
    · exact shares.pinned v waiting later earlier
    · exact other v
  case counted => rw [view_send, picks]; exact shares.counted
  case numbered => exact shares.numbered
  case ledger => rw [outcomes, view_send, lams]; exact shares.ledger

/-- So do the confidences of a draft. -/
theorem Shares.notePropose (shares : Shares policy nb host) {conf : List (List F)}
    (drafted : ∀ row ∈ conf, row.length = kMax) : Shares policy nb (host.notePropose conf) := by
  have marks : ∀ {host : Host ι F}, Shares policy nb host → ∀ value,
      Shares policy nb (host.send (.valid value)) := by
    intro host shares value
    refine shares.send_shared (.valid value) ?_ shares.drafts rfl rfl rfl fun v => nofun
    change { host.view.shared with valid := value } = _
    rw [shares.shared]
    rfl
  match conf with
  | [] => exact marks shares 0
  | [row] =>
    refine marks ?_ 1
    refine shares.send_shared (.conf row) ?_ (drafted row List.mem_cons_self) rfl rfl rfl
      fun v => nofun
    change { host.view.shared with conf := row } = _
    rw [shares.shared]
    rfl
  | _ :: _ :: _ => exact marks shares 0

/-- A draft of one request is marked valid. -/
theorem notePropose_single (host : Host ι F) (row : List F) :
    (host.notePropose [row]).view.shared.valid = 1 ∧
      (host.notePropose [row]).view.shared.conf = row := by
  rw [Host.notePropose, view_send, view_send]
  exact ⟨rfl, rfl⟩

/-- A pinned copy that was waited for is the price of its set. -/
theorem Shares.pinned_read (shares : Shares policy nb host) {set : ι}
    (waiting : (host.entries set).dirty = true) :
    ((host.stream.synchronize (host.entries set).lamEv).memory Device.exec).pins set =
      host.view.lam set := by
  rw [← shares.dirty set waiting]
  exact Queue.read_final Device.exec _ (fun device => device.pins set) (le_max_right _ _)
    fun command sent device => exec_pins device command (shares.pinned set waiting command sent)

/-- Before a decision for one request the host policy holds the price of its variant. -/
theorem Shares.lamPull (shares : Shares policy nb host) (set : ι) :
    Shares policy nb (host.lamPull set) ∧ ((host.lamPull set).entries set).dirty = false := by
  rw [Host.lamPull]
  by_cases waiting : (host.entries set).dirty = true
  case neg =>
    rw [if_neg waiting]
    exact ⟨shares, by simpa using waiting⟩
  rw [if_pos waiting]
  dsimp only
  rw [shares.pinned_read waiting]
  refine ⟨?_, by simp⟩
  constructor
  case tables => exact shares.tables_update set ((shares.tables set).setPrice _)
  case shared => exact shares.shared
  case drafts => exact shares.drafts
  case clean =>
    intro v calm
    dsimp only at calm ⊢
    by_cases own : v = set
    · rw [own, Function.update_self, setPrice_price]
      rfl
    · rw [Function.update_of_ne own] at calm ⊢
      exact shares.clean v calm
  case dirty =>
    intro v pending
    dsimp only at pending
    by_cases own : v = set
    · rw [own, Function.update_self] at pending
      exact absurd pending Bool.false_ne_true
    · rw [Function.update_of_ne own] at pending
      exact shares.dirty v pending
  case pinned =>
    intro v pending
    dsimp only at pending ⊢
    by_cases own : v = set
    · rw [own, Function.update_self] at pending
      exact absurd pending Bool.false_ne_true
    · rw [Function.update_of_ne own] at pending ⊢
      exact shares.pinned v pending
  case counted => exact shares.counted
  case numbered => exact shares.numbered
  case ledger =>
    refine shares.ledger.reprice fun v n different => ?_
    dsimp only
    by_cases own : v = set
    · rw [own, Function.update_self, setPrice]
      exact Function.update_of_ne different _ _
    · rw [Function.update_of_ne own]

/-- Decisions that were made stay as they are when the device goes on. -/
theorem outcomes_stable (shares : Shares policy nb host) (more : List (Pick ι F)) :
    host.decided.filterMap (resolve (host.view.picks ++ more)) = host.outcomes := by
  refine List.filterMap_congr fun decided listed => ?_
  cases decided with
  | host variant confs kmax lam length produced => rfl
  | device number =>
    have made : number < host.view.picks.length := shares.counted ▸ shares.numbered number listed
    rw [resolve, resolve, List.getElem?_append_left made]

omit [DecidableEq ι] [Field F] [LinearOrder F] in
/-- The outcomes after a decision of the host. -/
theorem outcomes_host (decided : List (Decided ι F)) (picks : List (Pick ι F)) (variant : ι)
    (confs : List (List F)) (kmax : ℕ) (lam : F) (length : ℕ) (produced : F) :
    (decided ++ [Decided.host variant confs kmax lam length produced]).filterMap (resolve picks) =
      decided.filterMap (resolve picks) ++
        [⟨⟨variant, confs, kmax⟩, false, lam, length, produced⟩] := by
  rw [List.filterMap_append]
  rfl

/-- Whoever decides on the host, no parent is added. -/
theorem numbered_host (shares : Shares policy nb host) {variant : ι} {confs : List (List F)}
    {kmax : ℕ} {lam : F} {length : ℕ} {produced : F} {number : ℕ}
    (listed : .device number ∈ host.decided ++ [.host variant confs kmax lam length produced]) :
    number < host.steps := by
  obtain earlier | last := List.mem_append.mp listed
  · exact shares.numbered number earlier
  · exact nomatch List.mem_singleton.mp last

/-- What a decision of the host writes. -/
theorem chooseNoted_snd (host : Host ι F) (variant : ι) (confs : List (List F)) (kmax : ℕ) :
    (host.chooseNoted variant confs kmax).2 =
      { host with
        pols := Function.update host.pols variant ((host.pols variant).choose confs kmax).2
        decided := host.decided ++
          [.host variant confs kmax ((host.pols variant).price confs.length)
            ((host.pols variant).choose confs kmax).1
            (((host.pols variant).choose confs kmax).2.price confs.length)] } := rfl

/-- A decision for several requests leaves the shared price alone. -/
theorem Shares.choose_batch (shares : Shares policy nb host) (variant : ι) {confs : List (List F)}
    (kmax : ℕ) (several : confs.length ≠ 1) :
    Shares policy nb (host.chooseNoted variant confs kmax).2 := by
  rw [chooseNoted_snd]
  constructor
  case tables => exact shares.tables_update variant ((shares.tables variant).choose confs kmax)
  case shared => exact shares.shared
  case drafts => exact shares.drafts
  case clean =>
    intro v calm
    refine Eq.trans ?_ (shares.clean v calm)
    dsimp only
    by_cases own : v = variant
    · rw [own, Function.update_self, choose_price_other _ _ _ (Ne.symm several)]
    · rw [Function.update_of_ne own]
  case dirty => exact shares.dirty
  case pinned => exact shares.pinned
  case counted => exact shares.counted
  case numbered => exact fun number listed => numbered_host shares listed
  case ledger =>
    rw [Host.outcomes]
    dsimp only
    rw [outcomes_host]
    exact shares.ledger.snoc_batch ⟨⟨variant, confs, kmax⟩, false, _, _, _⟩ several
      (shares.tables variant) rfl

/-- A decision for one request at a clean set, written back to the device. -/
theorem Shares.choose_single (shares : Shares policy nb host) {variant : ι} {confs : List (List F)}
    (kmax : ℕ) (single : confs.length = 1) (calm : (host.entries variant).dirty = false) :
    Shares policy nb ((host.chooseNoted variant confs kmax).2.lamPush variant) := by
  have written : ((host.pols variant).choose confs kmax).2.lam 1 =
      some (((host.pols variant).choose confs kmax).2.price confs.length) := by
    rw [choose_lam, if_pos single.symm]
  have pushed : (host.chooseNoted variant confs kmax).2.lamPush variant =
      (host.chooseNoted variant confs kmax).2.send
        (.fill variant (((host.pols variant).choose confs kmax).2.price confs.length)) := by
    rw [Host.lamPush, chooseNoted_snd]
    dsimp only
    rw [Function.update_self, written]
  have view : ((host.chooseNoted variant confs kmax).2.lamPush variant).view = host.view.exec
      (.fill variant (((host.pols variant).choose confs kmax).2.price confs.length)) := by
    rw [pushed, view_send]
    rfl
  have price : (host.pols variant).price 1 = host.view.lam variant := shares.clean variant calm
  have lams := lam_fill host.view variant
    (((host.pols variant).choose confs kmax).2.price confs.length)
  have outcomes : ((host.chooseNoted variant confs kmax).2.lamPush variant).outcomes =
      host.outcomes ++ [⟨⟨variant, confs, kmax⟩, false, (host.pols variant).price confs.length,
        ((host.pols variant).choose confs kmax).1,
        ((host.pols variant).choose confs kmax).2.price confs.length⟩] := by
    rw [Host.outcomes, view, pushed]
    exact outcomes_host _ _ _ _ _ _ _ _
  have pols : ((host.chooseNoted variant confs kmax).2.lamPush variant).pols =
      Function.update host.pols variant ((host.pols variant).choose confs kmax).2 := by
    rw [pushed]
    rfl
  constructor
  case tables =>
    rw [pols]
    exact shares.tables_update variant ((shares.tables variant).choose confs kmax)
  case shared => rw [view]; exact shares.shared
  case drafts => rw [view]; exact shares.drafts
  case clean =>
    rw [view, lams, pols, pushed]
    intro v clear
    by_cases own : v = variant
    · rw [own, Function.update_self, Function.update_self, single]
    · rw [Function.update_of_ne own, Function.update_of_ne own]
      exact shares.clean v clear
  case dirty =>
    rw [view, lams, pushed]
    intro v waiting
    by_cases own : v = variant
    · subst own
      exact absurd (calm.symm.trans waiting) Bool.false_ne_true
    · rw [Function.update_of_ne own]
      exact shares.dirty v waiting
  case pinned =>
    rw [pushed]
    intro v waiting command sent
    obtain earlier | rfl := mem_drop_send sent
    · exact shares.pinned v waiting command earlier
    · exact nofun
  case counted => rw [view, pushed]; exact shares.counted
  case numbered =>
    rw [pushed]
    exact fun number listed => numbered_host shares listed
  case ledger =>
    rw [outcomes, view, lams]
    refine shares.ledger.snoc_single ⟨⟨variant, confs, kmax⟩, false, _, _, _⟩ single
      (by rw [single]; exact price) (fun _ p same held => ?_) fun v n different => ?_
    · have tables := (shares.tables variant).symm.trans same
      obtain ⟨length, produced⟩ :=
        tables.choose_eq confs kmax (by rw [single]; exact price.trans held.symm)
      rw [← single]
      exact ⟨congrArg _ length, produced⟩
    · rw [pols]
      by_cases own : v = variant
      · rw [own, Function.update_self, choose_lam, if_neg (single ▸ different)]
      · rw [Function.update_of_ne own]

/-- A policy as it is deployed: tables of one width, positive costs, `1 ** 0.7`, no price yet. -/
structure Deployed (policy : Policy F) (nb : ℕ) : Prop where
  tabled : Tabled policy nb
  priced : Priced policy 1 kMax
  power_one : policy.power 1 = 1
  unpriced : policy.lam 1 = none

/-- Where a decision passes, the selector makes it as any policy with the tables and the price. -/
theorem selects_alike [IsStrictOrderedRing F] (deployed : Deployed policy nb) {p : Policy F}
    (same : SameTables policy p) {st : SetState F} (price : p.price 1 = st.lam) {conf : List F}
    (seven : conf.length = kMax) {valid : ℤ} (use : valid ≠ 0)
    (passes : (∃ L, 1 ≤ L ∧ L ≤ kMax ∧ -10 ^ 30 < policy.value st.lam [policy.expect conf] L) ∨
      (policy.expect conf).getD kMax 0 = 1) :
    (selectKernel (devTensors policy nb conf valid (-1)) st).1 = (p.choose [conf] kMax).1 ∧
      (selectKernel (devTensors policy nb conf valid (-1)) st).2.lam =
        (p.choose [conf] kMax).2.price 1 := by
  have tensors : devTensors policy nb conf valid (-1) = devTensors p nb conf valid (-1) := by
    rw [devTensors, devTensors, same.g, same.edges, same.t1]
  have expected : policy.expect conf = p.expect conf := by
    rw [Policy.expect, Policy.expect, same.expectFrom]
  have tabled : Tabled p nb :=
    ⟨same.g ▸ deployed.tabled.rows, same.g ▸ deployed.tabled.widths,
      same.edges ▸ deployed.tabled.buckets⟩
  have priced : Priced p 1 kMax :=
    fun L low high => same.cost 1 (L + 1) ▸ deployed.priced L low high
  rw [tensors]
  simp only [expected, same.value] at passes
  exact
    ((select_agrees_iff tabled priced seven valid (by decide) price.symm).mpr (.inr passes)).1 use

/-- What the device shows after a parent run with publishing: the parent's update, then the copy of
its result. -/
theorem view_runParent (host : Host ι F) (set : ι) :
    (host.runParent set true).view = (host.view.exec (.parent set)).exec (.publish set) := by
  rw [Host.runParent, if_pos rfl]
  change (((host.send (.parent set)).send (.publish set))).view = _
  rw [view_send, view_send]

/-- A parent adds one decision, on the confidences the device holds. -/
theorem outcomes_runParent (shares : Shares policy nb host) (set : ι) :
    (host.runParent set true).outcomes = host.outcomes ++
      [⟨⟨set, [host.view.shared.conf], kMax⟩, true, host.view.lam set,
        (selectKernel host.view.shared (host.view.sets set)).1,
        (selectKernel host.view.shared (host.view.sets set)).2.lam⟩] := by
  have picks : ((host.view.exec (.parent set)).exec (.publish set)).picks = host.view.picks ++
      [⟨set, host.view.shared.conf, host.view.lam set,
        (selectKernel host.view.shared (host.view.sets set)).1,
        (selectKernel host.view.shared (host.view.sets set)).2.lam⟩] := rfl
  rw [Host.outcomes, view_runParent, picks]
  change (host.decided ++ [Decided.device host.steps]).filterMap _ = _
  rw [List.filterMap_append, outcomes_stable shares, List.filterMap_cons, List.filterMap_nil,
    resolve, List.getElem?_append_right shares.counted.le, shares.counted, Nat.sub_self]
  rfl

/-- A parent decides for its variant and publishes the price it ends with. -/
theorem Shares.runParent [IsStrictOrderedRing F] (deployed : Deployed policy nb)
    (shares : Shares policy nb host) (set : ι) (use : host.view.shared.valid ≠ 0) :
    Shares policy nb (host.runParent set true) := by
  have view := view_runParent host set
  have outcomes := outcomes_runParent shares set
  have lams : ((host.view.exec (.parent set)).exec (.publish set)).lam =
      Function.update host.view.lam set
        (selectKernel host.view.shared (host.view.sets set)).2.lam := lam_parent host.view set
  have pins : ((host.view.exec (.parent set)).exec (.publish set)).pins =
      Function.update host.view.pins set ((host.view.exec (.parent set)).lam set) := rfl
  have entries : (host.runParent set true).entries = Function.update host.entries set
      ⟨(host.runParent set true).stream.sent.length, true⟩ := rfl
  have sent : (host.runParent set true).stream.sent =
      host.stream.sent ++ [.parent set] ++ [.publish set] := rfl
  constructor
  case tables => exact shares.tables
  case shared => rw [view]; exact shares.shared
  case drafts => rw [view]; exact shares.drafts
  case clean =>
    rw [view, lams, entries]
    intro v calm
    by_cases own : v = set
    · rw [own, Function.update_self] at calm
      exact absurd calm (Ne.symm Bool.false_ne_true)
    · rw [Function.update_of_ne own] at calm ⊢
      exact shares.clean v calm
  case dirty =>
    rw [view, lams, pins, entries]
    intro v waiting
    by_cases own : v = set
    · rw [own, Function.update_self, Function.update_self, lam_parent, Function.update_self]
    · rw [Function.update_of_ne own] at waiting ⊢
      rw [Function.update_of_ne own]
      exact shares.dirty v waiting
  case pinned =>
    rw [entries]
    intro v waiting command later
    by_cases own : v = set
    · rw [own, Function.update_self, List.drop_length] at later
      exact absurd later List.not_mem_nil
    · rw [Function.update_of_ne own] at waiting later
      rw [sent] at later
      obtain later | rfl := mem_drop_send later
      · obtain earlier | rfl := mem_drop_send later
        · exact shares.pinned v waiting command earlier
        · exact nofun
      · exact fun same => own (Command.publish.inj same).symm
  case counted =>
    rw [view]
    change (host.view.picks ++ [_]).length = host.steps + 1
    rw [List.length_append, shares.counted]
    rfl
  case numbered =>
    intro number listed
    obtain earlier | last := List.mem_append.mp listed
    · exact Nat.lt_succ_of_lt (shares.numbered number earlier)
    · obtain rfl : number = host.steps := Decided.device.inj (List.mem_singleton.mp last)
      exact Nat.lt_succ_self _
  case ledger =>
    rw [outcomes, view, lams]
    refine shares.ledger.snoc_single ⟨⟨set, [host.view.shared.conf], kMax⟩, true, _, _, _⟩ rfl rfl
      (fun passes p same held => ?_) fun _ _ _ => rfl
    have passed := passes rfl
    rw [Passes, List.map_singleton, total_single] at passed
    rw [shares.shared]
    exact selects_alike deployed same held shares.drafts use passed

/-- A decision of the host keeps the price shared. -/
theorem Shares.choose (shares : Shares policy nb host) (variant : ι) (confs : List (List F))
    (kmax : ℕ) : Shares policy nb (Host.choose variant host confs kmax).2 := by
  rw [Host.choose]
  split
  next single =>
    obtain ⟨pulled, calm⟩ := shares.lamPull variant
    exact pulled.choose_single kmax single calm
  next several => exact shares.choose_batch variant kmax several

omit [DecidableEq ι] in
/-- Nor does it touch what the graph sets share. -/
theorem choose_shared [DecidableEq ι] (host : Host ι F) (variant : ι) (confs : List (List F))
    (kmax : ℕ) : (Host.choose variant host confs kmax).2.view.shared = host.view.shared := by
  have pulled : (host.lamPull variant).view.shared = host.view.shared := by
    rw [Host.lamPull]
    split <;> rfl
  have pushed : ∀ host : Host ι F, (host.lamPush variant).view.shared = host.view.shared := by
    intro host
    rw [Host.lamPush]
    split
    next => rw [view_send]; rfl
    next => rfl
  rw [Host.choose]
  split
  next => exact (pushed _).trans pulled
  next => rfl

end Handover

section Worker

variable [Field F] [LinearOrder F] {policy : Policy F} {nb : ℕ}

/-- Truncation asks the policy once or not at all. -/
theorem truncate_state {κ : Type w} {σ : Type u} (choose : σ → List (List κ) → ℕ → ℕ × σ)
    (output : SchedulerOutput ρ) (confsByReq : ρ → Option (List κ)) (state : σ) :
    (truncate choose output confsByReq state).2.2 = state ∨
      ∃ confs kmax,
        (truncate choose output confsByReq state).2.2 = (choose state confs kmax).2 := by
  rw [truncate]
  split
  · exact .inl rfl
  · dsimp only
    split
    · exact .inl rfl
    · split
      · exact .inl rfl
      · split <;> exact .inr ⟨_, _, rfl⟩

/-- The price is shared, and while a single request's draft waits the device has the confidences
that the host would read. -/
structure Sound (policy : Policy F) (nb : ℕ) (world : World ι ρ F) : Prop where
  shares : Shares policy nb world.host
  drafted : ∀ pend, world.pend = some pend → pend.n = 1 → world.host.view.shared.valid = 1 ∧
    world.read pend.slot pend.n = [world.host.view.shared.conf]

omit [DecidableEq ρ] in
/-- A draft keeps the price shared. Its rows are copied to the ring, and no price is touched. -/
theorem Sound.propose {world : World ι ρ F} (sound : Sound policy nb world) {call : ProposeCall ρ F}
    (drafted : ∀ entry ∈ call.batch, entry.2.length = kMax) :
    Sound policy nb (world.propose call) := by
  rw [World.propose]
  split
  next => exact ⟨sound.shares, nofun⟩
  next =>
    refine ⟨sound.shares.notePropose fun row listed => ?_, fun pend waiting single => ?_⟩
    · obtain ⟨entry, member, rfl⟩ := List.mem_map.mp listed
      exact drafted entry member
    · obtain rfl := Option.some.inj waiting
      obtain ⟨entry, only⟩ := List.length_eq_one_iff.mp single
      obtain ⟨valid, conf⟩ := notePropose_single world.host entry.2
      simp only [World.read, GatedTruncation.Ring.copy, only, List.map_singleton]
      refine ⟨valid, ?_⟩
      rw [conf, Function.update_self]
      rfl

omit [DecidableEq ρ] in
/-- A late score is a decision of the host, or nothing. -/
theorem scoreUnscored_host (world : World ι ρ F) (v : ι) :
    (world.scoreUnscored v).pend = world.pend ∧ ((world.scoreUnscored v).host = world.host ∨
      ∃ confs kmax, (world.scoreUnscored v).host = (world.host.choose v confs kmax).2) := by
  rw [World.scoreUnscored]
  split
  next => exact ⟨rfl, .inl rfl⟩
  next => exact ⟨rfl, .inr ⟨_, _, rfl⟩⟩

/-- A late decision either leaves the host alone or makes one choice, and takes nothing from what is
pending. -/
theorem decide_host (world : World ι ρ F) (v : ι) (output : SchedulerOutput ρ) (pend : Pend ρ) :
    (world.decide v output pend).1.pend = world.pend ∧
      ((world.decide v output pend).1.host = world.host ∨
        ∃ confs kmax,
          (world.decide v output pend).1.host = (world.host.choose v confs kmax).2) := by
  have asked := truncate_state (Host.choose v) output
    (dictOf (pend.rids.zip (world.read pend.slot pend.n))) world.host
  rw [World.decide]
  split
  next answer =>
    rw [answer] at asked
    exact ⟨rfl, asked⟩
  next answer =>
    rw [answer] at asked
    exact ⟨rfl, asked⟩

/-- So is a step that the device does not decide. -/
theorem step_host (world : World ι ρ F) (v : ι) (call : ExecuteCall ρ F) (pend : Pend ρ) :
    (world.step v call pend).1.pend = world.pend ∧ ((world.step v call pend).1.host = world.host ∨
      ∃ confs kmax, (world.step v call pend).1.host = (world.host.choose v confs kmax).2) := by
  rw [World.step]
  split
  next =>
    split
    next => exact ⟨rfl, .inl rfl⟩
    next => exact decide_host world v call.output pend
  next =>
    split
    next => exact ⟨rfl, .inl rfl⟩
    next => exact decide_host world v call.output pend

/-- A host that decided once or not at all. -/
theorem Shares.decides {host after : Host ι F} (shares : Shares policy nb host) {v : ι}
    (decides : after = host ∨ ∃ confs kmax, after = (host.choose v confs kmax).2) :
    Shares policy nb after ∧ after.view.shared = host.view.shared := by
  obtain rfl | ⟨confs, kmax, rfl⟩ := decides
  · exact ⟨shares, rfl⟩
  · exact ⟨shares.choose v confs kmax, choose_shared host v confs kmax⟩

omit [Field F] [LinearOrder F] in
/-- The device decides only for a draft of one request. -/
theorem goes_single {call : ExecuteCall ρ F} {pend : Option (Pend ρ)} (go : goes call pend = true) :
    ∃ draft, pend = some draft ∧ draft.n = 1 := by
  unfold goes at go
  split at go
  next draft _ =>
    simp only [Bool.and_eq_true, beq_iff_eq] at go
    exact ⟨draft, rfl, go.1.1.1.1.2⟩
  next => exact absurd go Bool.false_ne_true

omit [DecidableEq ρ] [Field F] [LinearOrder F] in
/-- Noticing a switch of the variant decides nothing and leaves alone what is pending. -/
theorem follow_host (world : World ι ρ F) :
    world.follow.host = world.host ∧ world.follow.pend = world.pend := by
  rw [World.follow]
  split <;> exact ⟨rfl, rfl⟩

/-- A step keeps the price shared, whoever decides. -/
theorem Sound.executeModel [IsStrictOrderedRing F] (deployed : Deployed policy nb)
    {world : World ι ρ F} (sound : Sound policy nb world) (call : ExecuteCall ρ F) :
    Sound policy nb (world.executeModel call).1 := by
  rw [World.executeModel]
  split
  next => exact sound
  next =>
    obtain ⟨followed, waits⟩ := follow_host world
    obtain ⟨kept, scored⟩ := scoreUnscored_host world.follow world.variant
    rw [followed] at scored
    obtain ⟨shares, shared⟩ := sound.shares.decides scored
    dsimp only
    split
    next go =>
      refine ⟨?_, nofun⟩
      obtain ⟨draft, waiting, single⟩ := goes_single go
      rw [kept, waits] at waiting
      dsimp only
      cases call.runs with
      | true =>
        refine shares.runParent deployed world.variant ?_
        rw [shared, (sound.drafted draft waiting single).1]
        decide
      | false => exact shares
    next =>
      split
      next => exact ⟨shares, nofun⟩
      next pend _ =>
        obtain ⟨used, decides⟩ := step_host
          { world.follow.scoreUnscored world.variant with pend := none } world.variant call pend
        refine ⟨(shares.decides decides).1, fun draft waiting => ?_⟩
        rw [used] at waiting
        exact nomatch waiting

omit [DecidableEq ρ] in
/-- A worker starts with one price for host and device, as both read it from the same configuration.
-/
theorem sound_fresh (deployed : Deployed policy nb) (variant : ι) :
    Sound policy nb (World.fresh policy nb variant : World ι ρ F) := by
  have initial : policy.price 1 = 22 / 10 / policy.cost 1 4 := by
    rw [Policy.price, deployed.unpriced, Option.getD_none, deployed.power_one, mul_one]
  refine ⟨?_, fun outcome absent => absurd absent.symm (Option.some_ne_none outcome)⟩
  constructor
  case tables => exact fun _ => .refl policy
  case shared => rfl
  case drafts => rfl
  case clean => exact fun _ _ => initial
  case dirty => exact fun _ pending => absurd pending Bool.false_ne_true
  case pinned => exact fun _ pending => absurd pending Bool.false_ne_true
  case counted => rfl
  case numbered => exact fun _ listed => absurd listed List.not_mem_nil
  case ledger =>
    constructor
    case chained =>
      exact fun before outcome after split =>
        absurd split (by simp [Host.outcomes, World.fresh])
    case latest => exact fun _ => initial
    case lengths => exact fun _ => rfl
    case policies => exact fun _ _ => ⟨.refl policy, initial, fun _ _ => rfl⟩

/-- In every run the price stays shared. -/
theorem reachable_sound [IsStrictOrderedRing F] (deployed : Deployed policy nb) {variant : ι}
    {world : World ι ρ F} (reachable : Reachable (system policy nb variant) world) :
    Sound policy nb world := by
  refine reachable.invariant (sound_fresh deployed variant) fun world event sound allowed => ?_
  cases event with
  | propose call => exact sound.propose allowed
  | execute call => exact sound.executeModel deployed call
  | switch variant => exact ⟨sound.shares, sound.drafted⟩
  | advance count =>
    exact ⟨⟨sound.shares.tables, sound.shares.shared, sound.shares.drafts, sound.shares.clean,
      sound.shares.dirty, sound.shares.pinned, sound.shares.counted, sound.shares.numbered,
      sound.shares.ledger⟩, sound.drafted⟩

/-- Every decision that was made has an outcome. -/
theorem Shares.outcomes_length {host : Host ι F} (shares : Shares policy nb host) :
    host.outcomes.length = host.decided.length := by
  rw [Host.outcomes, List.filterMap_length_eq_length]
  intro decided listed
  cases decided with
  | host variant confs kmax lam length produced => rfl
  | device number =>
    have made : number < host.view.picks.length := shares.counted ▸ shares.numbered number listed
    rw [resolve, List.getElem?_eq_getElem made]
    rfl

/-- A step that the device decides, or that falls back to the 8-row graph. -/
theorem executeModel_goes (world : World ι ρ F) {call : ExecuteCall ρ F} (real : call.dummy = false)
    (go : goes call world.pend = true) :
    (world.executeModel call).1.host =
      (world.follow.scoreUnscored world.variant).host.runParent world.variant call.runs := by
  have waits : (world.follow.scoreUnscored world.variant).pend = world.pend :=
    (scoreUnscored_host _ _).1.trans (follow_host world).2
  rw [World.executeModel, if_neg (by simp [real])]
  dsimp only
  rw [waits, if_pos go]

/-- The price of a variant is one. In every run each decision for one request uses the price that
its variant's latest one ended with, wherever either was made; if no decision of the device is
below the start of its loop, the lengths are those of one host policy for each variant. A parent
decides on what the host would have read, and a fallback step decides nothing. -/
theorem price_shared [IsStrictOrderedRing F] (deployed : Deployed policy nb) {variant : ι}
    {world : World ι ρ F} (reachable : Reachable (system policy nb variant) world) :
    world.host.outcomes.length = world.host.decided.length ∧
    Chained (policy.price 1) world.host.outcomes ∧
    (AllPass policy world.host.outcomes →
      world.host.outcomes.map Outcome.length =
        (alone policy (world.host.outcomes.map Outcome.toRequest)).2) ∧
    ∀ call pend, call.dummy = false → world.pend = some pend → goes call world.pend = true →
      (call.runs = true → ∃ outcome, outcome.variant = world.variant ∧
        outcome.confs = world.read pend.slot pend.n ∧
        (world.executeModel call).1.host.outcomes =
          (world.follow.scoreUnscored world.variant).host.outcomes ++ [outcome]) ∧
      (call.runs = false → (world.executeModel call).1.host =
        (world.follow.scoreUnscored world.variant).host) := by
  have sound := reachable_sound deployed reachable
  refine ⟨sound.shares.outcomes_length, sound.shares.ledger.chained, sound.shares.ledger.lengths,
    fun call pend real waiting go => ?_⟩
  rw [executeModel_goes world real go]
  refine ⟨fun runs => ?_, fun stays => ?_⟩
  · obtain ⟨draft, drafted, single⟩ := goes_single go
    obtain rfl := Option.some.inj (waiting.symm.trans drafted)
    obtain ⟨_, scored⟩ := scoreUnscored_host world.follow world.variant
    rw [(follow_host world).1] at scored
    obtain ⟨shares, shared⟩ := sound.shares.decides scored
    rw [runs, (sound.drafted pend waiting single).2, outcomes_runParent shares, shared]
    exact ⟨_, rfl, rfl, rfl⟩
  · rw [stays]
    rfl

end Worker

section Samples

/-- A decision passes or not. -/
instance (policy : Policy ℚ) (outcome : Outcome ι ℚ) : Decidable (Passes policy outcome) :=
  decidable_of_iff
    ((∃ L ∈ List.range' 1 kMax,
        -10 ^ 30 < policy.value outcome.lam (outcome.confs.map policy.expect) L) ∨
      total (outcome.confs.map policy.expect) kMax = 1)
    (or_congr_left ⟨fun ⟨L, listed, above⟩ =>
        ⟨L, (List.mem_range'_1.mp listed).1,
          by have := (List.mem_range'_1.mp listed).2; omega, above⟩,
      fun ⟨L, low, high, above⟩ => ⟨L, List.mem_range'_1.mpr ⟨low, by omega⟩, above⟩⟩)

/-- One request with all seven drafts scheduled. -/
def eightRows : SchedulerOutput ℕ where
  scheduledSpecDecodeTokens := [(0, [1, 2, 3, 4, 5, 6, 7])]
  numScheduledTokens := [(0, 8)]
  totalNumScheduledTokens := 8
  hasStructuredOutputRequests := false
  distinct_spec := by decide
  distinct_scheduled := by decide

/-- A draft of one request with one confidence at every position. -/
def draftOf (lq : ℚ) : Event Bool ℕ ℚ := .propose ⟨false, kMax, [(0, List.replicate kMax lq)]⟩

/-- A step without a gate, decided on the device or on the host. -/
def stepOf (selects : Bool) : Event Bool ℕ ℚ :=
  .execute ⟨⟨false, eightRows, 0, false⟩, selects, true⟩

/-- Such drafts have a confidence for each of the seven positions. -/
theorem draftOf_drafted (lq : ℚ) : Drafted (draftOf lq) := by
  intro entry listed
  rw [List.mem_singleton.mp listed]
  exact List.length_replicate

/-- A table of three bins, in which drafts survive more or less often. -/
def gentle : Policy ℚ where
  edges := [1, 2]
  g := List.replicate 7 [1 / 4, 1 / 2, 3 / 4]
  t1 := fun rows => 10 + rows
  rowMs := 1
  power := fun _ => 1
  lam := fun _ => none
  lastMargin := ⊤
  lastKmax := 0

/-- That table is well formed, so its runs are runs of a deployed policy. -/
theorem gentle_deployed : Deployed gentle 3 := by
  refine ⟨⟨rfl, ?_, by decide⟩, ?_, rfl, rfl⟩
  · decide +kernel
  · intro L low high
    rw [kMax] at high
    interval_cases L <;> decide +kernel

/-- The worker after two steps of the device, one of the host, and one of another variant. -/
def afterFour : World Bool ℕ ℚ :=
  (system gentle 3 false).run (World.fresh gentle 3 false)
    [draftOf 1, stepOf true, draftOf 2, stepOf true, draftOf 0, stepOf false, .switch true,
      draftOf 2, stepOf false]

/-- After those calls `price_shared` applies: the outcomes are chained by one price, and they are
what a single policy decides on the same requests. -/
theorem price_shared_four :
    Chained (gentle.price 1) afterFour.host.outcomes ∧
      afterFour.host.outcomes.map Outcome.length =
        (alone gentle (afterFour.host.outcomes.map Outcome.toRequest)).2 :=
  have reachable : Reachable (system gentle 3 false) afterFour :=
    Reachable.initial.run _ ⟨draftOf_drafted 1, trivial, draftOf_drafted 2, trivial,
      draftOf_drafted 0, trivial, trivial, draftOf_drafted 2, trivial, trivial⟩
  have passes : ∀ outcome ∈ afterFour.host.outcomes,
      outcome.onDevice = true → Passes gentle outcome := by
    decide +kernel
  have shared := price_shared gentle_deployed reachable
  ⟨shared.2.1, shared.2.2.1 passes⟩

/-- A table of three bins, scaled so that double precision rounds nothing that matters away: with
seven confidences in the first bin a draft is worth `4.8 * 10 ^ 33` tokens, in the second `10 ^ 35`,
in the third `10 ^ 33`; a second draft survives in the first bin only, and a third never does. -/
def steep : Policy ℚ where
  edges := [1, 2]
  g := [[48 * 10 ^ 32, 10 ^ 35, 10 ^ 33], [3169 / 3200, 0, 0]] ++ List.replicate 5 [0, 0, 0]
  t1 := fun rows => rows - 1
  rowMs := 1
  power := fun _ => 1
  lam := fun _ => none
  lastMargin := ⊤
  lastKmax := 0

/-- Three drafts of one request, all decided on the device: the confidences fall into the second bin,
then into the third, then into the first. -/
def threeSteps : List (Event Bool ℕ ℚ) :=
  [draftOf 1, stepOf true, draftOf 2, stepOf true, draftOf 0, stepOf true]

/-- So is this table. -/
theorem steep_deployed : Deployed steep 3 := by
  refine ⟨⟨rfl, ?_, by decide⟩, ?_, rfl, rfl⟩
  · decide +kernel
  · intro L low high
    rw [kMax] at high
    interval_cases L <;> decide +kernel

/-- The worker after three steps of the device. -/
def afterThree : World Bool ℕ ℚ :=
  (system steep 3 false).run (World.fresh steep 3 false) threeSteps

/-- At the second step every value is below the start of the loop, so both sides keep seven drafts
and the kernel folds one token into the price where the policy folds `10 ^ 33 + 1`. At the third step
the price decides between one draft and two: the device verifies two, the policy one. -/
theorem steep_table_diverges :
    Deployed steep 3 ∧ Reachable (system steep 3 false) afterThree ∧
      afterThree.host.outcomes.map Outcome.length = [1, 7, 2] ∧
      (alone steep (afterThree.host.outcomes.map Outcome.toRequest)).2 = [1, 7, 1] :=
  ⟨steep_deployed,
    Reachable.initial.run threeSteps ⟨draftOf_drafted 1, trivial, draftOf_drafted 2, trivial,
      draftOf_drafted 0, trivial, trivial⟩,
    by decide +kernel, by decide +kernel⟩

end Samples

end GlmSpark.SharedPrice
