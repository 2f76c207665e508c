import GlmSpark.CommandStream
import GlmSpark.DevSelect
import GlmSpark.GatedTruncation

/-!
# One price for the host and the device

The worker decides the draft length of a single request on the host, late or after the
fact, or on the device, by the selector of a parent graph. For every variant there are a
host policy and a graph set with a price each, which are meant to be one. A parent
publishes its price to pinned memory and marks it dirty; the next host decision adopts it,
and writes the price it ends with back to the device.

The device runs the commands of the host in order, at its own pace.
-/

namespace GlmSpark.SharedPrice

open DraftPolicy DraftTruncation GatedTruncation DevSelect CommandStream Runs

universe u v w
variable {ι : Type u} {ρ : Type v} {F : Type w} [DecidableEq ι] [DecidableEq ρ]

/-- What a selector read and wrote: the graph set, confidences, old price, length, new price. -/
structure Pick (ι : Type u) (F : Type w) where
  set : ι
  conf : List F
  lam : F
  length : ℤ
  produced : F
  deriving DecidableEq

/-- The device: what the graph sets share, each one's tensors, its pinned price, and what the
selectors did so far. -/
structure Device (ι : Type u) (F : Type w) where
  shared : Shared F
  sets : ι → SetState F
  pins : ι → F
  picks : List (Pick ι F)

/-- The commands the host puts on the stream. -/
inductive Command (ι : Type u) (F : Type w)
  | conf (row : List F)
  | valid (value : ℤ)
  | parent (set : ι)
  | publish (set : ι)
  | fill (set : ι) (value : F)

/-- `dirty` and `lam_ev` of a graph set. -/
structure Entry where
  lamEv : ℕ
  dirty : Bool
  deriving DecidableEq

/-- A decision, in the order of the program: on the host with what it read and wrote, or by the
parent of that number. -/
inductive Decided (ι : Type u) (F : Type w)
  | host (variant : ι) (confs : List (List F)) (kmax : ℕ) (lam : F) (length : ℕ) (produced : F)
  | device (number : ℕ)

/-- The policies of `_W.pols`, the graph sets of `_D.sets`, `_D.steps`, the stream, and the
decisions so far. -/
structure Host (ι : Type u) (F : Type w) where
  pols : ι → Policy F
  entries : ι → Entry
  steps : ℕ
  stream : Queue (Device ι F) (Command ι F)
  decided : List (Decided ι F)

variable [Field F] [LinearOrder F]

/-- Run a command. -/
def Device.exec (device : Device ι F) : Command ι F → Device ι F
  | .conf row => { device with shared := { device.shared with conf := row } }
  | .valid value => { device with shared := { device.shared with valid := value } }
  | .parent set =>
    let (length, st) := selectKernel device.shared (device.sets set)
    { device with
      sets := Function.update device.sets set st
      picks := device.picks ++
        [⟨set, device.shared.conf, (device.sets set).lam, length, st.lam⟩] }
  | .publish set => { device with pins := Function.update device.pins set (device.sets set).lam }
  | .fill set value =>
    { device with
      sets := Function.update device.sets set { device.sets set with lam := value } }

/-- Send a command. -/
def Host.send (host : Host ι F) (command : Command ι F) : Host ι F :=
  { host with stream := host.stream.send command }

/-- `note_propose`: the confidences of a single request's draft go to the device and count as valid;
those of a larger batch do not. -/
def Host.notePropose (host : Host ι F) (conf : List (List F)) : Host ι F :=
  match conf with
  | [row] => (host.send (.conf row)).send (.valid 1)
  | _ => host.send (.valid 0)

/-- `_lam_publish`: the price of a graph set is copied to its pinned memory. -/
def Host.lamPublish (host : Host ι F) (set : ι) : Host ι F :=
  let host := host.send (.publish set)
  { host with entries := Function.update host.entries set ⟨host.stream.record, true⟩ }

/-- `run_parent`; it `runs` when the 8-row graph is dispatched and its plans are staged. -/
def Host.runParent (host : Host ι F) (set : ι) (runs : Bool) : Host ι F :=
  if runs then
    let host := (host.send (.parent set)).lamPublish set
    { host with steps := host.steps + 1, decided := host.decided ++ [.device host.steps] }
  else host

/-- `pol.lam[1] = …` -/
def setPrice (policy : Policy F) (lam : F) : Policy F :=
  { policy with lam := Function.update policy.lam 1 (some lam) }

/-- `lam_pull`: the host takes over the price the device arrived at, once the copy is known to have
run. -/
def Host.lamPull (host : Host ι F) (set : ι) : Host ι F :=
  if (host.entries set).dirty then
    let stream := host.stream.synchronize (host.entries set).lamEv
    { host with
      stream := stream
      pols := Function.update host.pols set
        (setPrice (host.pols set) ((stream.memory Device.exec).pins set))
      entries := Function.update host.entries set { host.entries set with dirty := false } }
  else host

/-- `lam_push`: the host's price goes to the device. -/
def Host.lamPush (host : Host ι F) (set : ι) : Host ι F :=
  match (host.pols set).lam 1 with
  | some lam => host.send (.fill set lam)
  | none => host

/-- `Policy.choose` of a variant, with the decision noted. -/
def Host.chooseNoted (host : Host ι F) (variant : ι) (confs : List (List F)) (kmax : ℕ) :
    ℕ × Host ι F :=
  let pol := host.pols variant
  let (L, after) := pol.choose confs kmax
  (L, { host with
    pols := Function.update host.pols variant after
    decided := host.decided ++
      [.host variant confs kmax (pol.price confs.length) L (after.price confs.length)] })

/-- `_choose`: a decision for one request shares its price with the device. -/
def Host.choose (variant : ι) (host : Host ι F) (confs : List (List F)) (kmax : ℕ) :
    ℕ × Host ι F :=
  if confs.length = 1 then
    let (L, host) := (host.lamPull variant).chooseNoted variant confs kmax
    (L, host.lamPush variant)
  else host.chooseNoted variant confs kmax

/-- The fields of `_W` and `_D` that decide anything; `variant` is the running one, of the policies
and of the graph sets. -/
structure World (ι : Type u) (ρ : Type v) (F : Type w) where
  host : Host ι F
  variant : ι
  vLast : Option ι
  pend : Option (Pend ρ)
  ring : Option (GatedTruncation.Ring F)
  slotI : ℕ
  unscored : Option Unscored
  last : Option (ℕ × WithTop F × ℕ)

/-- `propose`: a draft is noted for the device and kept in the ring for a late decision of the host.
-/
def World.propose (world : World ι ρ F) (call : ProposeCall ρ F) : World ι ρ F :=
  if call.dummy ∨ call.batch = [] then { world with pend := none }
  else
    let n := call.batch.length
    let conf := call.batch.map Prod.snd
    -- never reallocate under an unread slot
    let lost := ¬ Fits world.ring n call.depth ∧ world.unscored.isSome
    let slot := world.slotI % GatedTruncation.ringSize
    { world with
      unscored := if lost then none else world.unscored
      last := if lost then none else world.last
      slotI := world.slotI + 1
      host := world.host.notePropose conf
      ring := some ((fittedRing world.ring n call.depth).copy slot conf)
      pend := some ⟨world.slotI, n, call.batch.map Prod.fst, slot⟩ }

/-- `arr = _W.ring[slot][:n].tolist()`: the confidences in the ring when they are read. -/
def World.read (world : World ι ρ F) (slot n : ℕ) : List (List F) :=
  match world.ring with
  | some ring => (ring.slots slot).take n
  | none => []

/-- A call of `execute_model`. `selects`: the device selection is built and active, no logprobs are
asked for and the graph set has a parent; `runs` as in `run_parent`. -/
structure ExecuteCall (ρ : Type v) (F : Type w) extends GatedTruncation.ExecuteCall ρ F where
  selects : Bool
  runs : Bool

/-- `eligible` of the device selection: one request, drafted at the last step, all seven drafts. -/
def goes (call : ExecuteCall ρ F) (pend : Option (Pend ρ)) : Bool :=
  match call.output.numScheduledTokens, pend with
  | [(rid, scheduled)], some pend =>
    call.selects && pend.n == 1 && pend.rids == [rid] &&
      !call.output.hasStructuredOutputRequests &&
      (call.output.drafts rid).length == kMax && scheduled == kMax + 1
  | _, _ => false

/-- A draft gated at the last step is scored now. -/
def World.scoreUnscored (world : World ι ρ F) (v : ι) : World ι ρ F :=
  match world.unscored with
  | none => world
  | some late =>
    let arr := world.read late.slot late.n
    let (L, host) := world.host.choose v (late.idx.map fun i => arr.getD i []) late.kmax
    { world with
      unscored := none
      host := host
      last := some (L, (host.pols v).lastMargin, late.kmax) }

/-- The late decision: wait for the draft and truncate. -/
def World.decide (world : World ι ρ F) (v : ι) (output : SchedulerOutput ρ) (pend : Pend ρ) :
    World ι ρ F × SchedulerOutput ρ :=
  let arr := world.read pend.slot pend.n
  match truncate (Host.choose v) output (dictOf (pend.rids.zip arr)) world.host with
  | (none, output, host) => ({ world with host := host, last := none }, output)
  | (some L, output, host) =>
    ({ world with
      host := host
      last := some (L, (host.pols v).lastMargin, (host.pols v).lastKmax) }, output)

/-- A step with a draft that the device does not decide. -/
def World.step (world : World ι ρ F) (v : ι) (call : ExecuteCall ρ F) (pend : Pend ρ) :
    World ι ρ F × SchedulerOutput ρ :=
  match eligible call.output pend.rids with
  | none =>
    if call.earlySkip then ({ world with last := none }, call.output)
    else world.decide v call.output pend
  | some kmax =>
    if opens world.last kmax call.thr then
      let live := (liveRequests call.output).map fun request =>
        (dictOf pend.rids.zipIdx request).getD 0
      ({ world with unscored := some ⟨pend.serial, pend.n, live, pend.slot, kmax⟩ }, call.output)
    else world.decide v call.output pend

/-- A switch of variants forgets what the last decision was. -/
def World.follow (world : World ι ρ F) : World ι ρ F :=
  if world.vLast = some world.variant then world
  else { world with vLast := some world.variant, unscored := none, last := none }

/-- `execute_model`, with the replay of the parent it may lead to. -/
def World.executeModel (world : World ι ρ F) (call : ExecuteCall ρ F) :
    World ι ρ F × SchedulerOutput ρ :=
  if call.dummy then (world, call.output)
  else
    let v := world.variant
    let world := world.follow.scoreUnscored v
    let pend := world.pend
    let world := { world with pend := none }
    if goes call pend then
      ({ world with unscored := none, last := none, host := world.host.runParent v call.runs },
        call.output)
    else
      match pend with
      | none => (world, call.output)
      | some pend => world.step v call pend

/-- What happens to a worker: a draft, a step, a switch of variants, or the device catching up. -/
inductive Event (ι : Type u) (ρ : Type v) (F : Type w)
  | propose (call : ProposeCall ρ F)
  | execute (call : ExecuteCall ρ F)
  | switch (variant : ι)
  | advance (count : ℕ)

/-- A worker takes an event. -/
def World.next (world : World ι ρ F) : Event ι ρ F → World ι ρ F
  | .propose call => world.propose call
  | .execute call => (world.executeModel call).1
  | .switch variant => { world with variant := variant }
  | .advance count =>
    { world with host := { world.host with stream := world.host.stream.advance count } }

/-- The device after its set-up: no confidence, every graph set at the initial price. -/
def Device.fresh (policy : Policy F) (nb : ℕ) : Device ι F where
  shared := devTensors policy nb (List.replicate kMax 0) 0 (-1)
  sets := fun _ => ⟨22 / 10 / policy.cost 1 4, fun _ => false, fun _ => 0, 0, fun _ => 0⟩
  pins := fun _ => 0
  picks := []

/-- A worker before its first draft; every variant starts with a copy of the policy. -/
def World.fresh (policy : Policy F) (nb : ℕ) (variant : ι) : World ι ρ F where
  host := ⟨fun _ => policy, fun _ => ⟨0, false⟩, 0, ⟨.fresh policy nb, [], 0⟩, []⟩
  variant := variant
  vLast := none
  pend := none
  ring := none
  slotI := 0
  unscored := none
  last := none

/-- Every draft has seven confidences for every request. -/
def Drafted : Event ι ρ F → Prop
  | .propose call => ∀ entry ∈ call.batch, entry.2.length = kMax
  | _ => True

/-- All workers of a policy. -/
def system (policy : Policy F) (nb : ℕ) (variant : ι) : System (World ι ρ F) (Event ι ρ F) where
  initial := .fresh policy nb variant
  step := World.next
  allowed := fun _ event => Drafted event

end GlmSpark.SharedPrice
