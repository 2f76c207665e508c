import GlmSpark.Grid
import GlmSpark.RoceLayout
import GlmSpark.Runs
import Mathlib.Data.Nat.Size

/-!
# One-shot collectives over RDMA

Every rank runs the same sequence of collectives, one kernel launch each. The blocks of a
launch stage the input in a pinned send slot; the last one rings a doorbell that a proxy
thread polls. The proxy posts, for every peer and every network card, a write of one
stripe of the payload and a write of a flag behind it. The blocks wait for the flags of
all peers, reduce or concatenate the slots the network cards filled, and the last one
advances the epoch. A wait that takes too long poisons the rank.

All parties take their steps in any order: the threads and blocks of a launch, the proxies,
the network cards that read a payload and deliver it. Packs of one stripe land in any order,
its flag after them. A memory fence of the source is the order of two steps here.

Every thread reads the poison word on its own when it starts. A wait of one block can expire
between the reads of two threads of another, so that a block stages a part of its packs and
still counts as staged. A barrier waits for the threads that have not returned.
-/

namespace GlmSpark.RoceOneshot

open Grid RoceLayout Runs

universe u

/-- A 32-bit word of a control record, a flag or a counter. -/
abbrev Word := BitVec 32

/-- A count as a word of 32 bits, which is what ranks tell each other. -/
def word (count : ℕ) : Word := BitVec.ofNat 32 count

/-- The slot of a sequence number: launches alternate between two. -/
def slotOf (seq : Word) : ℕ := (seq &&& 1).toNat

section Collectives

variable {V : Type u}

/-- The 32-bit float arithmetic of one dtype on packs. -/
structure Arith (V : Type u) where
  Acc : Type u
  first : V → Acc
  add : Acc → V → Acc
  store : Acc → V

/-- The two kernels. -/
inductive Kind (V : Type u)
  | allReduce (arith : Arith V)
  | allGather (rowPacks : ℕ) (positive : 0 < rowPacks)

/-- One collective: its kernel and the packs of every rank's input. -/
structure Op (V : Type u) where
  kind : Kind V
  packs : ℕ
  positive : 0 < packs
  fits : packs * packBytes < 2 ^ 32

/-- A store of the data phase: where it goes, the pack it reads of every rank, and what it
makes of them. -/
structure Store (world : ℕ) (V : Type u) where
  dest : ℕ
  pack : ℕ
  value : (Fin world → V) → V

/-- `_grid_blocks`: a power-of-two grid with about two packs a thread. -/
def gridBlocks (sizePacks threads maxBlocks : ℕ) : ℕ :=
  let packsPerBlock := 2 * threads
  let required := max 1 ((sizePacks + packsPerBlock - 1) / packsPerBlock)
  min (2 ^ Nat.size (required - 1)) maxBlocks

/-- What the ranks share: kernel geometry, the collectives in stream order and how many of
them there are, and the inputs. A launch needs a thread for every stripe flag, and a grid that is
a power of two. -/
structure Setup (world hcas : ℕ) (V : Type u) where
  threads : ℕ
  blocks : ℕ
  ops : ℕ → Op V
  launches : ℕ
  input : Fin world → ℕ → ℕ → V
  someLaunch : 0 < launches
  ranks : 2 ≤ world
  cards : 0 < hcas
  stripes : world * hcas ≤ threads
  power : ∃ width ≤ 31, blocks = 2 ^ width

/-- Add the words of all ranks in rank order. -/
def reduceWords {world : ℕ} (arith : Arith V) (ranks : 2 ≤ world) (words : Fin world → V) : V :=
  arith.store <| (List.finRange world).tail.foldl (fun acc source => arith.add acc (words source))
    (arith.first (words ⟨0, Nat.lt_of_lt_of_le Nat.zero_lt_two ranks⟩))

variable {world hcas : ℕ}

/-- The blocks of a launch, from its packs and the threads of a block. -/
def Setup.grid (setup : Setup world hcas V) (launch : ℕ) : ℕ :=
  gridBlocks (setup.ops launch).packs setup.threads setup.blocks

/-- The arrival counters a launch uses: `int(blocks).bit_length() - 1`. -/
def Setup.counterClass (setup : Setup world hcas V) (launch : ℕ) : ℕ :=
  Nat.size (setup.grid launch) - 1

/-- Bytes of a rank's input. -/
def Setup.nbytes (setup : Setup world hcas V) (launch : ℕ) : ℕ :=
  (setup.ops launch).packs * packBytes

/-- The packs a thread of a block stages and later combines. -/
def Setup.share (setup : Setup world hcas V) (launch block thread : ℕ) : List ℕ :=
  strided (setup.grid launch * setup.threads) (setup.ops launch).packs (setup.ops launch).packs
    (block * setup.threads + thread)

/-- The packs a block stages and later combines: those of its threads. -/
def Setup.items (setup : Setup world hcas V) (launch block : ℕ) : List ℕ :=
  blockItems setup.threads (setup.grid launch) (setup.ops launch).packs block

/-- The stores of a block's data phase. -/
def Setup.stores (setup : Setup world hcas V) (launch block : ℕ) : List (Store world V) :=
  match (setup.ops launch).kind with
  | .allReduce arith =>
    (setup.items launch block).map fun pack => ⟨pack, pack, reduceWords arith setup.ranks⟩
  | .allGather rowPacks _ =>
    (List.finRange world).flatMap fun (source : Fin world) => (setup.items launch block).map fun pack =>
      let row := pack / rowPacks
      let col := pack - row * rowPacks
      ⟨row * (world * rowPacks) + source.val * rowPacks + col, pack, fun words => words source⟩

/-- Every peer with every network card, in the order of the loops. -/
def peersOf (world hcas : ℕ) (rank : Fin world) : List (Fin world × Fin hcas) :=
  (List.finRange world).flatMap fun peer =>
    if peer = rank then [] else (List.finRange hcas).map fun hca => (peer, hca)

end Collectives

section State

/-- A work request on a queue pair. A network card holds a pack of the payload once it has
read it from the send slot. -/
inductive Wr (V : Type u)
  | data (slot pack : ℕ) (held : Option V)
  | flag (slot : ℕ) (seq : Word)
  deriving DecidableEq

/-- How far the last block of the staging phase is with the doorbell. -/
inductive Door
  | arrive | publish | ring | rung
  deriving DecidableEq, Repr

/-- Where a block of a launch is. While it stages, some of its threads have not read the poison word
yet, some have read it set and are gone, and the others have packs to copy. A running block has waits
that go on and waits that expired but are not yet recorded in the poison word. A block that ends
without its first thread, which keeps the counters, has skipped them. -/
inductive Phase (world hcas : ℕ) (V : Type u)
  | idle
  | stage (seq : Word) (unread gone todo : List ℕ)
  | run (seq : Word) (gone : List ℕ) (door : Door) (waits : List (Fin world × Fin hcas))
    (expired : ℕ)
  | reduce (seq : Word) (gone : List ℕ) (todo : List (Store world V))
  | leave (seq : Word) (gone : List ℕ)
  | done (skipped : Bool)

/-- Where the proxy thread is: polling the doorbell, about to post an op while so many are
pending, or posting it. -/
inductive Proxy (world hcas : ℕ)
  | idle
  | next (seq pending : Word)
  | posting (seq pending nbytes : Word) (todo : List (Fin world × Fin hcas))
  | failed
  deriving DecidableEq

/-- One rank: its device words and blocks, its pinned region, its proxy, the queue pairs to
its peers, and the outputs of its launches. -/
structure Node (world hcas : ℕ) (V : Type u) where
  launch : ℕ
  epoch : Word
  poison : Word
  error : Word
  stage : ℕ → Word
  tail : ℕ → Word
  place : ℕ → Phase world hcas V
  send : ℕ → ℕ → V
  size : ℕ → Word
  doorbell : Word
  recv : Fin world → ℕ → ℕ → V
  flag : Fin world → ℕ → Fin hcas → Word
  last : Word
  proxy : Proxy world hcas
  queue : Fin world → Fin hcas → List (Wr V)
  out : ℕ → ℕ → Option V

/-- A step within one rank. A number picks one of the threads, packs or requests that can go
next. -/
inductive Act (world hcas : ℕ)
  | begin (block thread : ℕ)
  | stage (block index : ℕ)
  | staged (block : ℕ)
  | arrive (block : ℕ)
  | publish (block : ℕ)
  | ring (block : ℕ)
  | pass (block index : ℕ)
  | expire (block index : ℕ)
  | poison (block : ℕ)
  | sync (block : ℕ)
  | write (block index : ℕ)
  | skip (block index : ℕ)
  | finish (block : ℕ)
  | leave (block : ℕ)
  | launch
  | poll
  | read
  | post
  | posted
  | fetch (peer : Fin world) (hca : Fin hcas) (index : ℕ)

end State

section Steps

variable {V : Type u} {world hcas : ℕ}

/-- Move a block. -/
def Node.move (node : Node world hcas V) (block : ℕ) (place : Phase world hcas V) :
    Node world hcas V :=
  { node with place := Function.update node.place block place }

/-- Whether a work request carries payload. -/
def Wr.isData : Wr V → Bool
  | .data _ _ _ => true
  | .flag _ _ => false

/-- The thread that waits for a stripe of a peer. -/
def waiter (pair : Fin world × Fin hcas) : ℕ := pair.1.val * hcas + pair.2.val

/-- The thread that keeps the counters and the doorbell of its block. -/
def lead : ℕ := 0

/-- Whether a block has left the launch. -/
def Phase.isDone : Phase world hcas V → Bool
  | .done _ => true
  | _ => false

/-- The work requests of one stripe: the packs of the payload, then the flag. -/
def stripeRequests (hcas : ℕ) (seq nbytes : Word) (hca : ℕ) : List (Wr V) :=
  (stripe (nbytes.toNat / packBytes) hcas hca).map (fun pack => .data (slotOf seq) pack none) ++
    [.flag (slotOf seq) seq]

/-- A step of the kernel, the proxy or a reading network card; `none` when it cannot be taken. -/
def act (setup : Setup world hcas V) (rank : Fin world) (node : Node world hcas V) :
    Act world hcas → Option (Node world hcas V)
  | .begin block thread =>
    match node.place block with
    | .idle =>
      if setup.grid node.launch ≤ block ∨ setup.threads ≤ thread then none
      -- every block reads the epoch before any block can advance it
      else if node.poison = 0 then
        some (node.move block (.stage (node.epoch + 1) ((List.range setup.threads).erase thread) []
          (setup.share node.launch block thread)))
      -- the word stays set, so the other threads find it set as well
      else some (node.move block (.done true))
    | .stage seq unread gone todo =>
      if thread ∈ unread then
        if node.poison = 0 then
          some (node.move block (.stage seq (unread.erase thread) gone
            (todo ++ setup.share node.launch block thread)))
        else some (node.move block (.stage seq (unread.erase thread) (thread :: gone) todo))
      else none
    | _ => none
  | .stage block index =>
    match node.place block with
    | .stage seq unread gone todo => todo[index]?.map fun pack =>
      { node.move block (.stage seq unread gone (todo.eraseIdx index)) with
        send := Function.update node.send (slotOf seq)
          (Function.update (node.send (slotOf seq)) pack (setup.input rank node.launch pack)) }
    | _ => none
  | .staged block =>
    match node.place block with
    | .stage seq [] gone [] =>
      some (node.move block (.run seq gone (if lead ∈ gone then .rung else .arrive)
        ((peersOf world hcas rank).filter fun pair => waiter pair ∉ gone) 0))
    | _ => none
  | .arrive block =>
    match node.place block with
    | .run seq gone .arrive waits expired =>
      let prior := node.stage (setup.counterClass node.launch)
      let door := if lastArrival prior (setup.grid node.launch) then .publish else .rung
      some { node.move block (.run seq gone door waits expired) with
        stage := Function.update node.stage (setup.counterClass node.launch) (prior + 1) }
    | _ => none
  | .publish block =>
    match node.place block with
    | .run seq gone .publish waits expired =>
      some { node.move block (.run seq gone .ring waits expired) with
        size := Function.update node.size (slotOf seq) (word (setup.nbytes node.launch)) }
    | _ => none
  | .ring block =>
    match node.place block with
    | .run seq gone .ring waits expired =>
      some { node.move block (.run seq gone .rung waits expired) with doorbell := seq }
    | _ => none
  | .pass block index =>
    match node.place block with
    | .run seq gone door waits expired => waits[index]?.bind fun (peer, hca) =>
      if node.flag peer (slotOf seq) hca = seq then
        some (node.move block (.run seq gone door (waits.eraseIdx index) expired))
      else none
    | _ => none
  | .expire block index =>
    match node.place block with
    | .run seq gone door waits expired => waits[index]?.map fun _ =>
      { node.move block (.run seq gone door (waits.eraseIdx index) (expired + 1)) with error := seq }
    | _ => none
  | .poison block =>
    match node.place block with
    | .run seq gone door waits (expired + 1) =>
      some { node.move block (.run seq gone door waits expired) with poison := seq }
    | _ => none
  | .sync block =>
    match node.place block with
    | .run seq gone .rung [] 0 =>
      if node.poison = 0 then
        some (node.move block (.reduce seq gone ((setup.stores node.launch block).filter
          fun store => store.pack % setup.threads ∉ gone)))
      else some (node.move block (.leave seq gone))
    | _ => none
  | .write block index =>
    match node.place block with
    | .reduce seq gone todo => todo[index]?.map fun store =>
      let words := fun source => if source = rank then setup.input rank node.launch store.pack
        else node.recv source (slotOf seq) store.pack
      { node.move block (.reduce seq gone (todo.eraseIdx index)) with
        out := Function.update node.out node.launch
          (Function.update (node.out node.launch) store.dest (some (store.value words))) }
    | _ => none
  | .skip block index =>
    -- a thread that reads the poison after another block's wait has expired stores nothing
    match node.place block with
    | .reduce seq gone todo => todo[index]?.bind fun _ =>
      if node.poison = 0 then none
      else some (node.move block (.reduce seq gone (todo.eraseIdx index)))
    | _ => none
  | .finish block =>
    match node.place block with
    | .reduce seq gone [] => some (node.move block (.leave seq gone))
    | _ => none
  | .leave block =>
    match node.place block with
    | .leave seq gone =>
      let prior := node.tail (setup.counterClass node.launch)
      let after := { node.move block (.done false) with
        tail := Function.update node.tail (setup.counterClass node.launch) (prior + 1) }
      if lead ∈ gone then some (node.move block (.done true))
      -- a failed sequence keeps the epoch
      else if lastArrival prior (setup.grid node.launch) = true ∧ node.error = 0 then
        some { after with epoch := seq }
      else some after
    | _ => none
  | .launch =>
    if (List.range (setup.grid node.launch)).all (fun block => (node.place block).isDone) = true ∧
        node.launch + 1 < setup.launches then
      some { node with launch := node.launch + 1, place := fun _ => .idle }
    else none
  | .poll =>
    match node.proxy with
    | .idle =>
      if node.doorbell = node.last then none
      else if (slots : ℕ) < (node.doorbell - node.last).toNat then
        some { node with proxy := .failed }
      else some { node with proxy := .next (node.last + 1) (node.doorbell - node.last) }
    | _ => none
  | .read =>
    match node.proxy with
    | .next seq pending =>
      let nbytes := node.size (slotOf seq)
      if nbytes = 0 ∨ nbytes.toNat % packBytes ≠ 0 then some { node with proxy := .failed }
      else some { node with proxy := .posting seq pending nbytes (peersOf world hcas rank) }
    | _ => none
  | .post =>
    match node.proxy with
    | .posting seq pending nbytes ((peer, hca) :: todo) =>
      some { node with
        proxy := .posting seq pending nbytes todo
        queue := Function.update node.queue peer (Function.update (node.queue peer) hca
          (node.queue peer hca ++ stripeRequests hcas seq nbytes hca)) }
    | _ => none
  | .posted =>
    match node.proxy with
    | .posting seq pending _ [] =>
      some { node with
        last := seq
        proxy := if pending - 1 = 0 then .idle else .next (seq + 1) (pending - 1) }
    | _ => none
  | .fetch peer hca index =>
    match (node.queue peer hca)[index]? with
    | some (.data slot pack none) =>
      some { node with
        queue := Function.update node.queue peer (Function.update (node.queue peer) hca
          ((node.queue peer hca).set index (.data slot pack (some (node.send slot pack))))) }
    | _ => none

/-- What can happen: a step within a rank, or a work request that lands at a peer. -/
inductive Event (world hcas : ℕ)
  | act (rank : Fin world) (act : Act world hcas)
  | deliver (rank peer : Fin world) (hca : Fin hcas) (index : ℕ)

/-- The sender's queue without a request. -/
def Node.dequeue (node : Node world hcas V) (peer : Fin world) (hca : Fin hcas) (index : ℕ) :
    Node world hcas V :=
  { node with
    queue := Function.update node.queue peer (Function.update (node.queue peer) hca
      ((node.queue peer hca).eraseIdx index)) }

/-- The receiver's region after a pack of a payload has landed. -/
def Node.land (node : Node world hcas V) (source : Fin world) (slot pack : ℕ) (value : V) :
    Node world hcas V :=
  { node with
    recv := Function.update node.recv source (Function.update (node.recv source) slot
      (Function.update (node.recv source slot) pack value)) }

/-- The receiver's region after a flag has landed. -/
def Node.raise (node : Node world hcas V) (source : Fin world) (slot : ℕ) (hca : Fin hcas)
    (seq : Word) : Node world hcas V :=
  { node with
    flag := Function.update node.flag source (Function.update (node.flag source) slot
      (Function.update (node.flag source slot) hca seq)) }

/-- One step of the ranks together. A queue pair is reliable and ordered: payload may land when
no flag is queued before it, a flag when it is first. -/
def next (setup : Setup world hcas V) (nodes : Fin world → Node world hcas V) :
    Event world hcas → Option (Fin world → Node world hcas V)
  | .act rank action => (act setup rank (nodes rank) action).map (Function.update nodes rank)
  | .deliver rank peer hca index =>
    let queue := (nodes rank).queue peer hca
    match queue[index]? with
    | some (.data slot pack (some value)) =>
      if peer ≠ rank ∧ (queue.take index).all Wr.isData = true then
        some (Function.update (Function.update nodes rank ((nodes rank).dequeue peer hca index))
          peer ((nodes peer).land rank slot pack value))
      else none
    | some (.flag slot seq) =>
      if peer ≠ rank ∧ index = 0 then
        some (Function.update (Function.update nodes rank ((nodes rank).dequeue peer hca index))
          peer ((nodes peer).raise rank slot hca seq))
      else none
    | _ => none

/-- A rank at the first launch: a zeroed region, nothing posted. -/
def Node.fresh (zero : V) : Node world hcas V where
  launch := 0
  epoch := 0
  poison := 0
  error := 0
  stage := fun _ => 0
  tail := fun _ => 0
  place := fun _ => .idle
  send := fun _ _ => zero
  size := fun _ => 0
  doorbell := 0
  recv := fun _ _ _ => zero
  flag := fun _ _ _ => 0
  last := 0
  proxy := .idle
  queue := fun _ _ => []
  out := fun _ _ => none

/-- Whether a step expires a wait of a launch whose sequence number is zero. The error and poison
words use zero for no error, so that every `2 ^ 32` launches an expiry goes unrecorded: the block
reduces what its receive slots hold, and the rank may use the send slot again before its network cards
have read it. No statement here covers such an expiry; `expiry_unnoticed` shows what it does. -/
def unrecorded (nodes : Fin world → Node world hcas V) : Event world hcas → Bool
  | .act rank (.expire block _) =>
    match (nodes rank).place block with
    | .run seq _ _ _ _ => seq == 0
    | _ => false
  | _ => false

/-- The ranks, with every interleaving of their steps but for expiries at sequence number zero:
in these runs every expired wait is recorded. -/
def oneshot (setup : Setup world hcas V) (zero : V) :
    System (Fin world → Node world hcas V) (Event world hcas) where
  initial := fun _ => Node.fresh zero
  step := fun nodes event => (next setup nodes event).getD nodes
  allowed := fun nodes event => (next setup nodes event).isSome = true ∧
    unrecorded nodes event = false

/-- Whether an event may happen can be decided. -/
instance decidableAllowed (setup : Setup world hcas V) (zero : V)
    (nodes : Fin world → Node world hcas V) (event : Event world hcas) :
    Decidable ((oneshot setup zero).allowed nodes event) :=
  inferInstanceAs (Decidable ((next setup nodes event).isSome = true ∧ unrecorded nodes event = false))

end Steps

end GlmSpark.RoceOneshot
