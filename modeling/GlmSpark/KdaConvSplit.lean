import Mathlib.Data.List.Basic
import Mathlib.Data.List.Induction
import Mathlib.Logic.Function.Basic
import Mathlib.Order.Nat

/-!
# The split prefill convolution

`glm_kda_conv_split.py` wraps two functions of the KDA module. An eligible merged
convolution is run on the q, k and v channels apart; the caller gets an uninitialised
carrier, and the three dense results stay pending. The wrapped chunk kernel is handed the
dense results where its arguments are the carrier's column views, and else the carrier is
filled first.

A caller is a sequence of calls whose tensors are columns of earlier results or tensors of
its own. It is run against the stock functions and against the wrappers, and what the chunk
function receives is compared. A cell of the wrapped world may be uninitialised.
-/

namespace GlmSpark.KdaConvSplit

universe u
variable {γ ω β σ κ ρ δ α ε : Type u}

/-- A run of entries of a list: `list[lo : lo + P]`. -/
def slice (lo P : Nat) (list : List α) : List α := (list.drop lo).take P

/-- A tensor, by its number of dimensions and its channels. -/
structure Channels (γ : Type u) where
  ndim : Nat
  channels : List γ

/-- The input of a convolution: channels, then tokens; `stride0` steps over channels. -/
structure Input (γ : Type u) extends Channels γ where
  tokens : Nat
  stride0 : Nat

/-- A result, one column a channel, as the caller sees it after its transpose. -/
structure Output (δ ε : Type u) where
  dtype : δ
  tokens : Nat
  columns : List (Nat → ε)

/-- What a kernel reads of a tensor: its type, its shape and its elements in order. -/
structure Value (δ ε : Type u) where
  dtype : δ
  shape : List Nat
  data : List ε

/-- The columns `lo` to `lo + P` of a tensor with channels. -/
def Channels.slice (tensor : Channels γ) (lo P : Nat) : Channels γ :=
  { tensor with channels := KdaConvSplit.slice lo P tensor.channels }

/-- A column slice of an input: its own columns, the same metadata. -/
def Input.slice (x : Input γ) (lo P : Nat) : Input γ :=
  { x with channels := KdaConvSplit.slice lo P x.channels }

/-- A column slice of an output. -/
def Output.slice (out : Output δ ε) (lo P : Nat) : Output δ ε :=
  { out with columns := KdaConvSplit.slice lo P out.columns }

/-- An output with every value replaced. -/
def Output.map (f : α → ε) (out : Output δ α) : Output δ ε :=
  { out with columns := out.columns.map fun column t => f (column t) }

/-- A value with its data replaced and everything else kept. -/
def Value.map (f : α → ε) (value : Value δ α) : Value δ ε := { value with data := value.data.map f }

/-- The columns `off : off + width` under a shape, read token by token. -/
def Output.read (out : Output δ ε) (off width : Nat) (shape : List Nat) : Value δ ε :=
  ⟨out.dtype, shape, (List.range out.tokens).flatMap fun t =>
    (KdaConvSplit.slice off width out.columns).map fun column => column t⟩

/-! ### The convolution -/

/-- The arguments of `causal_conv1d_fn`; `positional` are arguments after the bias. -/
structure ConvArgs (γ ω β σ κ : Type u) where
  x : Option (Input γ)
  weight : Option (Channels ω)
  bias : Option (Channels β)
  convStates : Option (Channels σ)
  positional : Bool
  kw : κ

/-- The arguments on some channels only: inputs, weights, bias and states are cut alike. -/
def ConvArgs.slice (args : ConvArgs γ ω β σ κ) (lo P : Nat) : ConvArgs γ ω β σ κ :=
  { args with
    x := args.x.map (·.slice lo P)
    weight := args.weight.map (·.slice lo P)
    bias := args.bias.map (·.slice lo P)
    convStates := args.convStates.map (·.slice lo P) }

/-- The channels of all tensors are of one number. -/
structure ConvArgs.Fits (args : ConvArgs γ ω β σ κ) (dim : Nat) : Prop where
  x : ∃ x, args.x = some x ∧ x.channels.length = dim
  weight : ∃ weight, args.weight = some weight ∧ weight.channels.length = dim
  bias : ∀ bias, args.bias = some bias → bias.channels.length = dim
  convStates : ∃ states, args.convStates = some states ∧ states.channels.length = dim

/-- The stock convolution works channel by channel: its result and the states it writes on some
channels are those of the call on these channels alone. -/
structure Independent (prevConv : ConvArgs γ ω β σ κ → Output δ α × List σ) : Prop where
  shaped : ∀ args dim, args.Fits dim → ∀ x, args.x = some x →
    (prevConv args).1.tokens = x.tokens ∧ (prevConv args).1.columns.length = dim ∧
      (prevConv args).2.length = dim
  sliced : ∀ args dim, args.Fits dim → ∀ lo P, lo + P ≤ dim →
    prevConv (args.slice lo P) = ((prevConv args).1.slice lo P, slice lo P (prevConv args).2)

/-- `eligible`: the width of a channel block when the call may be split, and zero when it may not.
-/
def eligible (args : ConvArgs γ ω β σ κ) : Nat :=
  match args.x, args.weight, args.convStates with
  | some x, some weight, some convStates =>
    if x.ndim ≠ 2 ∨ weight.ndim ≠ 2 then 0
    else
      let dim := x.channels.length
      if dim % 3 ≠ 0 ∨ weight.channels.length ≠ dim ∨ convStates.ndim ≠ 3 ∨
          convStates.channels.length ≠ dim then 0
      else if args.bias.any (fun bias => bias.ndim ≠ 1 ∨ bias.channels.length ≠ dim) then 0
      else if x.stride0 ≠ 1 then 0
      else dim / 3
  | _, _, _ => 0

/-- A call of the convolution: the states are a cache of the world, and the three gates are
what the switch, the graph capture and the chain of wrappers say at this call. -/
structure ConvCall (γ ω β κ : Type u) where
  x : Option (Input γ)
  weight : Option (Channels ω)
  bias : Option (Channels β)
  convStates : Option (Nat × Nat)
  positional : Bool
  kw : κ
  callOn : Bool
  capturing : Bool
  chainOk : Bool

/-- The states a caller reads and the results it holds. -/
structure World (σ δ ε : Type u) where
  caches : Nat → List σ
  results : List (Output δ ε)

/-- The arguments of a call in a world; the states are a number of dimensions and a cache. -/
def ConvCall.args (call : ConvCall γ ω β κ) (caches : Nat → List σ) : ConvArgs γ ω β σ κ :=
  ⟨call.x, call.weight, call.bias, call.convStates.map fun (ndim, cache) => ⟨ndim, caches cache⟩,
    call.positional, call.kw⟩

/-- The caches after a call wrote its states. -/
def ConvCall.store (call : ConvCall γ ω β κ) (caches : Nat → List σ) (content : List σ) :
    Nat → List σ :=
  match call.convStates with
  | none => caches
  | some (_, cache) => Function.update caches cache content

variable (prevConv : ConvArgs γ ω β σ κ → Output δ α × List σ)

/-- The stock convolution in a world. -/
def World.conv (lift : α → ε) (world : World σ δ ε) (call : ConvCall γ ω β κ) : World σ δ ε :=
  let (out, content) := prevConv (call.args world.caches)
  ⟨call.store world.caches content, world.results ++ [out.map lift]⟩

/-- `S["pending"]`: the carrier's result, the channels of a slice, the dense results. -/
structure Pending (δ α : Type u) where
  carrier : Nat
  P : Nat
  dense : Output δ α × Output δ α × Output δ α

/-- The world of the wrappers; a cell holds nothing while it is uninitialised. -/
structure Wrapped (σ δ α : Type u) extends World σ δ (Option α) where
  pending : Option (Pending δ α)

/-- `_fill`: the carrier gets the dense results side by side. -/
def Pending.fill (pend : Pending δ α) (results : List (Output δ (Option α))) :
    List (Output δ (Option α)) :=
  results.modify pend.carrier fun carrier =>
    let (d0, d1, d2) := pend.dense
    { carrier with
      columns := (d0.columns ++ d1.columns ++ d2.columns).map fun column t => some (column t) }

/-- A pending carrier is made real: the blocks of the split convolution are written into it. -/
def Wrapped.flush (world : Wrapped σ δ α) : Wrapped σ δ α :=
  match world.pending with
  | none => world
  | some pend => { world with results := pend.fill world.results, pending := none }

/-- One of the three calls on a slice, which writes its channels of the states. -/
def part (args : ConvArgs γ ω β σ κ) (P j : Nat) (content : List σ) : Output δ α × List σ :=
  let current := args.convStates.map fun states => Channels.mk states.ndim content
  let (out, written) := prevConv ({ args with convStates := current }.slice (j * P) P)
  (out, content.take (j * P) ++ written ++ content.drop (j * P + written.length))

/-- The wrapper `conv`: an eligible call is made in three blocks, with a carrier for the result that
stays unwritten until someone needs it. -/
def Wrapped.conv (world : Wrapped σ δ α) (call : ConvCall γ ω β κ) : Wrapped σ δ α :=
  let world := world.flush
  let args := call.args world.caches
  let P := if call.positional then 0 else eligible args
  if P = 0 ∨ ¬ call.callOn ∨ call.capturing ∨ ¬ call.chainOk then
    { world with toWorld := world.toWorld.conv prevConv some call }
  else
    let content := (args.convStates.map Channels.channels).getD []
    let (d0, content) := part prevConv args P 0 content
    let (d1, content) := part prevConv args P 1 content
    let (d2, content) := part prevConv args P 2 content
    let n := (args.x.map Input.tokens).getD 0
    { caches := call.store world.caches content
      results := world.results ++ [⟨d0.dtype, n, List.replicate (3 * P) fun _ => none⟩]
      pending := some ⟨world.results.length, P, (d0, d1, d2)⟩ }

/-! ### The chunk kernel -/

/-- An argument: `None`, columns of a result reshaped per token, or a tensor of the caller's own,
whose storage is empty or one that no result has. -/
inductive Arg (δ α : Type u) where
  | absent
  | column (result off width : Nat) (shape : List Nat)
  | tensor (storage : Option Nat) (offset : Nat) (value : Value δ α)

/-- The address of a storage; empty storages share one. -/
inductive Address where
  | null
  | result (index : Nat)
  | foreign (storage : Nat)
deriving DecidableEq

/-- The address of a result. -/
def Output.address (out : Output δ ε) (index : Nat) : Address :=
  if out.tokens * out.columns.length = 0 then .null else .result index

/-- What the wrapper reads of a tensor without its elements. -/
structure View (δ : Type u) where
  address : Address
  offset : Nat
  numel : Nat
  dtype : δ
  shape : List Nat

/-- The view of an argument; an argument that is no tensor has none. -/
def Arg.view (results : List (Output δ ε)) : Arg δ α → Option (View δ)
  | .absent => none
  | .column result off width shape => results[result]?.map fun out =>
      ⟨out.address result, off, out.tokens * width, out.dtype, shape⟩
  | .tensor storage offset value =>
      some ⟨(storage.map Address.foreign).getD .null, offset, value.data.length, value.dtype,
        value.shape⟩

/-- The value an argument has when it is read. -/
def Arg.read (lift : α → ε) (results : List (Output δ ε)) : Arg δ α → Option (Value δ ε)
  | .absent => none
  | .column result off width shape => results[result]?.map fun out => out.read off width shape
  | .tensor _ _ value => some (value.map lift)

/-- A call of `chunk_kda_with_fused_gate`; `rest` are its other keywords, none of them made from
a convolution's result. -/
structure ChunkCall (ρ δ α : Type u) where
  args : List (Arg δ α)
  q : Option (Arg δ α)
  k : Option (Arg δ α)
  v : Option (Arg δ α)
  rest : ρ

/-- What the chunk function receives, and the states it could read. A keyword that is missing has
the value `None`, as the defaults of the function give it. -/
structure Received (σ ρ δ ε : Type u) where
  args : List (Option (Value δ ε))
  q : Option (Value δ ε)
  k : Option (Value δ ε)
  v : Option (Value δ ε)
  rest : ρ
  caches : Nat → List σ

/-- What a caller received, with every value of the outputs replaced. Errors and call results are
kept. -/
def Received.map (f : α → ε) (received : Received σ ρ δ α) : Received σ ρ δ ε :=
  { received with
    args := received.args.map (Option.map (Value.map f))
    q := received.q.map (Value.map f)
    k := received.k.map (Value.map f)
    v := received.v.map (Value.map f) }

/-- A call of the chunk function in a world. -/
def World.receive (lift : α → ε) (world : World σ δ ε) (call : ChunkCall ρ δ α) :
    Received σ ρ δ ε where
  args := call.args.map (Arg.read lift world.results)
  q := call.q.bind (Arg.read lift world.results)
  k := call.k.bind (Arg.read lift world.results)
  v := call.v.bind (Arg.read lift world.results)
  rest := call.rest
  caches := world.caches

variable [DecidableEq δ]

/-- `_is_split_view`: whether an argument is the view of a channel block of the pending carrier, by
its address, offset, number of elements and type. -/
def isSplitView (t : View δ) (carrier : Output δ (Option α)) (index off P : Nat) : Bool :=
  decide (t.address = carrier.address index ∧ t.offset = 0 + off ∧
    t.numel = carrier.tokens * P ∧ t.dtype = carrier.dtype)

/-- A dense result under a view's shape. -/
def Output.viewed (dense : Output δ α) (t : View δ) : Arg δ α :=
  .tensor none 0 (dense.read 0 dense.columns.length t.shape)

/-- The views of q, k and v, if these are the three split views of a pending carrier. -/
def Wrapped.splitViews (world : Wrapped σ δ α) (pend : Pending δ α) (q k v : Arg δ α) :
    Option (View δ × View δ × View δ) := do
  let tq ← q.view world.results
  let tk ← k.view world.results
  let tv ← v.view world.results
  let carrier ← world.results[pend.carrier]?
  if isSplitView tq carrier pend.carrier 0 pend.P ∧
      isSplitView tk carrier pend.carrier pend.P pend.P ∧
      isSplitView tv carrier pend.carrier (2 * pend.P) pend.P then some (tq, tk, tv)
  else none

/-- `take`: where all three arguments are views of the pending carrier the blocks are given instead;
otherwise the carrier is made real. -/
def Wrapped.take (world : Wrapped σ δ α) (q k v : Arg δ α) :
    Wrapped σ δ α × Arg δ α × Arg δ α × Arg δ α :=
  match world.pending with
  | none => (world, q, k, v)
  | some pend =>
    match world.splitViews pend q k v with
    | some (tq, tk, tv) =>
      let (d0, d1, d2) := pend.dense
      ({ world with pending := none }, d0.viewed tq, d1.viewed tk, d2.viewed tv)
    | none => (world.flush, q, k, v)

/-- `_chunk_wrapper`, with what the previous chunk function receives. -/
def Wrapped.chunk (world : Wrapped σ δ α) (call : ChunkCall ρ δ α) :
    Wrapped σ δ α × Received σ ρ δ (Option α) :=
  if world.pending.isSome then
    if call.args ≠ [] then (world.flush, world.flush.toWorld.receive some call)
    else
      let (world, q, k, v) := world.take (call.q.getD .absent) (call.k.getD .absent)
        (call.v.getD .absent)
      (world, world.toWorld.receive some { call with q := some q, k := some k, v := some v })
  else (world, world.toWorld.receive some call)

/-! ### Runs of a caller -/

/-- What a caller does next. -/
inductive Event (γ ω β κ ρ δ α : Type u) where
  | conv (call : ConvCall γ ω β κ)
  | chunk (call : ChunkCall ρ δ α)

/-- The stock world and what its chunk function received, after one more call. -/
def stockStep (state : World σ δ α × List (Received σ ρ δ α)) :
    Event γ ω β κ ρ δ α → World σ δ α × List (Received σ ρ δ α)
  | .conv call => (state.1.conv prevConv id call, state.2)
  | .chunk call => (state.1, state.2 ++ [state.1.receive id call])

/-- A run against the stock functions: the world it leaves and what each chunk call received. -/
def stockRun (caches : Nat → List σ) (events : List (Event γ ω β κ ρ δ α)) :
    World σ δ α × List (Received σ ρ δ α) :=
  events.foldl (stockStep prevConv) (⟨caches, []⟩, [])

/-- The pending carrier, if a keyword call passes just its three views. -/
def Wrapped.taken (world : Wrapped σ δ α) (call : ChunkCall ρ δ α) : List Nat :=
  match world.pending with
  | none => []
  | some pend =>
    if call.args = [] ∧ (world.splitViews pend (call.q.getD .absent) (call.k.getD .absent)
      (call.v.getD .absent)).isSome then [pend.carrier] else []

/-- A run against the wrappers: the world, the carriers that chunk calls were given the views of
while they were pending, and what the wrapped chunk function received. -/
structure Trace (σ ρ δ α : Type u) where
  world : Wrapped σ δ α
  spent : List Nat
  received : List (Received σ ρ δ (Option α))

/-- One more call against the wrappers. -/
def wrappedStep (trace : Trace σ ρ δ α) : Event γ ω β κ ρ δ α → Trace σ ρ δ α
  | .conv call => { trace with world := trace.world.conv prevConv call }
  | .chunk call =>
    { world := (trace.world.chunk call).1
      spent := trace.spent ++ trace.world.taken call
      received := trace.received ++ [(trace.world.chunk call).2] }

/-- A run against the wrappers, from a world with nothing pending. -/
def wrappedRun (caches : Nat → List σ) (events : List (Event γ ω β κ ρ δ α)) : Trace σ ρ δ α :=
  events.foldl (wrappedStep prevConv) ⟨⟨⟨caches, []⟩, none⟩, [], []⟩

/-- An argument has no element in a spent carrier. -/
def Arg.Avoids (spent : List Nat) (results : List (Output δ (Option α))) : Arg δ α → Prop
  | .column result off width _ => result ∈ spent → ∀ out, results[result]? = some out →
      out.tokens * min width (out.columns.length - off) = 0
  | _ => True

/-- A chunk call has no element in a carrier that an earlier one was given the views of. -/
structure Trace.Avoids (trace : Trace σ ρ δ α) (call : ChunkCall ρ δ α) : Prop where
  args : ∀ arg ∈ call.args, arg.Avoids trace.spent trace.world.results
  q : ∀ arg ∈ call.q, arg.Avoids trace.spent trace.world.results
  k : ∀ arg ∈ call.k, arg.Avoids trace.spent trace.world.results
  v : ∀ arg ∈ call.v, arg.Avoids trace.spent trace.world.results

/-! ### Slices -/

section Slices

omit [DecidableEq δ]

/-- A slice and what stands before it join to a longer front. -/
theorem slice_append (lo P : Nat) (list : List α) :
    list.take lo ++ slice lo P list = list.take (lo + P) := (List.take_add ..).symm

/-- The three slices of a list make it up. -/
theorem slices_three {P : Nat} {list : List α} (length : list.length = 3 * P) :
    slice 0 P list ++ slice P P list ++ slice (2 * P) P list = list := by
  have first : slice 0 P list = list.take P := rfl
  have second := slice_append P P list
  have third := slice_append (P + P) P list
  have double : 2 * P = P + P := by omega
  rw [first, second, double, third, List.take_of_length_le (by omega)]

/-- An eligible call fits, with three times as many channels as a slice. -/
theorem eligible_fits (args : ConvArgs γ ω β σ κ) :
    eligible args = 0 ∨ args.Fits (3 * eligible args) := by
  rw [eligible]
  split
  next x weight convStates hasX hasWeight hasStates =>
    split
    next => exact Or.inl rfl
    next =>
      dsimp only
      split
      next => exact Or.inl rfl
      next shapes =>
        split
        next => exact Or.inl rfl
        next biased =>
          split
          next => exact Or.inl rfl
          next strided =>
            simp only [not_or, not_not] at shapes
            obtain ⟨thirds, weights, _, states⟩ := shapes
            have dim : 3 * (x.channels.length / 3) = x.channels.length := by omega
            rw [dim]
            refine Or.inr ⟨⟨x, hasX, rfl⟩, ⟨weight, hasWeight, weights⟩, fun bias has => ?_,
              ⟨convStates, hasStates, states⟩⟩
            rw [has] at biased
            by_contra other
            exact biased (by simp [other])
  next => exact Or.inl rfl

end Slices

/-! ### The wrapped world simulates the stock world -/

section Simulation

variable {prevConv : ConvArgs γ ω β σ κ → Output δ α × List σ}

omit [DecidableEq δ]

/-- The carrier for a result: the right type and shape, and no cell written. -/
def Output.carrier (out : Output δ α) (P : Nat) : Output δ (Option α) :=
  ⟨out.dtype, out.tokens, List.replicate (3 * P) fun _ => none⟩

/-- The wrapped world holds the stock results, but for spent carriers and a pending one, whose
dense results are the slices of the stock one. -/
structure Simulates (spent : List Nat) (world : Wrapped σ δ α) (stock : World σ δ α) : Prop where
  caches : world.caches = stock.caches
  length : world.results.length = stock.results.length
  alike : ∀ (k : Nat) (out : Output δ α) (held : Output δ (Option α)), stock.results[k]? = some out →
    world.results[k]? = some held → held.dtype = out.dtype ∧ held.tokens = out.tokens ∧
      held.columns.length = out.columns.length
  real : ∀ (k : Nat) (out : Output δ α), stock.results[k]? = some out → k ∉ spent →
    (∀ pend, world.pending = some pend → pend.carrier ≠ k) →
    world.results[k]? = some (out.map some)
  carried : ∀ pend, world.pending = some pend → pend.carrier ∉ spent ∧ ∃ out,
    stock.results[pend.carrier]? = some out ∧ pend.P ≠ 0 ∧ out.columns.length = 3 * pend.P ∧
    pend.dense = (out.slice 0 pend.P, out.slice pend.P pend.P, out.slice (2 * pend.P) pend.P) ∧
    world.results[pend.carrier]? = some (out.carrier pend.P)

/-- Replacing every value by itself changes nothing. -/
@[simp] theorem Output.map_id (out : Output δ α) : out.map id = out := by
  simp [Output.map]

/-- Filling a carrier puts the stock result there and changes no other result. -/
theorem fill_carrier {pend : Pending δ α} {out : Output δ α}
    {results : List (Output δ (Option α))}
    (there : results[pend.carrier]? = some (out.carrier pend.P))
    (length : out.columns.length = 3 * pend.P)
    (dense : pend.dense =
      (out.slice 0 pend.P, out.slice pend.P pend.P, out.slice (2 * pend.P) pend.P)) (k : Nat) :
    (pend.fill results)[k]? = if pend.carrier = k then some (out.map some) else results[k]? := by
  rw [Pending.fill, dense, List.getElem?_modify]
  split
  next here =>
    have whole := slices_three length
    rw [← here, there, Output.map, ← whole]
    simp only [Option.map_eq_map, Option.map_some]
    rfl
  next => simp only [Option.map_eq_map, Option.map_id']

/-- After a flush nothing is pending and the worlds agree, but for spent carriers. -/
theorem Simulates.flush {spent : List Nat} {world : Wrapped σ δ α} {stock : World σ δ α}
    (simulates : Simulates spent world stock) :
    Simulates spent world.flush stock ∧ world.flush.pending = none := by
  rw [Wrapped.flush]
  cases pended : world.pending with
  | none => exact ⟨simulates, pended⟩
  | some pend =>
    obtain ⟨fresh, out, there, _, length, dense, held⟩ := simulates.carried pend pended
    refine ⟨⟨simulates.caches, ?_, ?_, ?_, fun pend' pended' =>
      Option.noConfusion rfl (heq_of_eq pended')⟩, rfl⟩
    · rw [← simulates.length]
      exact List.length_modify ..
    · intro k out' held' stored found
      dsimp only at found
      rw [fill_carrier held length dense] at found
      split at found
      next here =>
        subst here
        obtain rfl := Option.some.inj (there.symm.trans stored)
        obtain rfl := Option.some.inj found
        exact ⟨rfl, rfl, List.length_map _⟩
      next => exact simulates.alike k out' held' stored found
    · intro k out' stored unspent _
      dsimp only
      rw [fill_carrier held length dense]
      split
      next here =>
        subst here
        rw [there] at stored
        rw [Option.some.inj stored]
      next elsewhere =>
        refine simulates.real k out' stored unspent fun other pended' => ?_
        rw [pended] at pended'
        obtain rfl := Option.some.inj pended'
        exact elsewhere

/-- The call on slice `j`, after the earlier ones wrote their channels. -/
theorem part_eq (independent : Independent prevConv) {args : ConvArgs γ ω β σ κ} {P j : Nat}
    (fits : args.Fits (3 * P)) {states : Channels σ} (has : args.convStates = some states)
    (inside : j < 3) :
    part prevConv args P j ((prevConv args).2.take (j * P) ++ states.channels.drop (j * P)) =
      ((prevConv args).1.slice (j * P) P,
        (prevConv args).2.take ((j + 1) * P) ++ states.channels.drop ((j + 1) * P)) := by
  obtain ⟨x, hasX, _⟩ := fits.x
  obtain ⟨_, _, written⟩ := independent.shaped args _ fits x hasX
  have room : j * P + P ≤ 3 * P := by
    rw [← Nat.succ_mul]
    exact Nat.mul_le_mul_right P inside
  have early : ((prevConv args).2.take (j * P)).length = j * P := by
    rw [List.length_take, written]
    omega
  have sliced := independent.sliced args _ fits (j * P) P room
  -- the earlier slices' writes are not among the channels this one reads
  have current : ({ args with
      convStates := args.convStates.map fun other => Channels.mk other.ndim
        ((prevConv args).2.take (j * P) ++ states.channels.drop (j * P)) } :
        ConvArgs γ ω β σ κ).slice (j * P) P = args.slice (j * P) P := by
    rw [ConvArgs.slice, ConvArgs.slice, has]
    simp only [Option.map_some, Channels.slice, slice]
    rw [List.drop_left' early]
  have count : (slice (j * P) P (prevConv args).2).length = P := by
    rw [slice, List.length_take, List.length_drop, written]
    omega
  rw [part]
  dsimp only
  rw [current, sliced]
  dsimp only
  rw [count, List.take_left' early, ← List.drop_drop, List.drop_left' early, List.drop_drop,
    slice_append, Nat.succ_mul]

/-- One more result keeps the worlds together, if it is the stock one or a fresh carrier. -/
theorem Simulates.push {spent : List Nat} {world : Wrapped σ δ α} {stock : World σ δ α}
    (simulates : Simulates spent world stock) (nothing : world.pending = none)
    (known : ∀ k ∈ spent, k < stock.results.length) {next : Wrapped σ δ α}
    {out : Output δ α} {held : Output δ (Option α)} {caches : Nat → List σ}
    (caches' : next.caches = caches) (results : next.results = world.results ++ [held])
    (shape : held.dtype = out.dtype ∧ held.tokens = out.tokens ∧
      held.columns.length = out.columns.length)
    (filled : next.pending = none → held = out.map some)
    (carried : ∀ pend, next.pending = some pend → pend.carrier = stock.results.length ∧
      pend.P ≠ 0 ∧ out.columns.length = 3 * pend.P ∧
      pend.dense = (out.slice 0 pend.P, out.slice pend.P pend.P, out.slice (2 * pend.P) pend.P) ∧
      held = out.carrier pend.P) :
    Simulates spent next ⟨caches, stock.results ++ [out]⟩ := by
  have last : ∀ (k : Nat) (found : Output δ α), (stock.results ++ [out])[k]? = some found →
      stock.results[k]? = some found ∧ k < stock.results.length ∨
        k = stock.results.length ∧ found = out := by
    intro k found stored
    obtain early | late := Nat.lt_or_ge k stock.results.length
    · rw [List.getElem?_append_left early] at stored
      exact Or.inl ⟨stored, early⟩
    · rw [List.getElem?_append_right late] at stored
      have only := (List.getElem?_eq_some_iff.mp stored).1
      rw [List.length_singleton] at only
      have zero : k - stock.results.length = 0 := by omega
      rw [zero] at stored
      exact Or.inr ⟨by omega, (Option.some.inj stored).symm⟩
  have earlier : ∀ k, k < stock.results.length → next.results[k]? = world.results[k]? := by
    intro k early
    rw [results, List.getElem?_append_left (by rwa [simulates.length])]
  have newest : next.results[stock.results.length]? = some held := by
    rw [results, ← simulates.length, List.getElem?_append_right le_rfl, Nat.sub_self]
    rfl
  refine ⟨caches', ?_, ?_, ?_, ?_⟩
  · rw [results, List.length_append, List.length_append, simulates.length]
    rfl
  · intro k found held' stored there
    obtain ⟨old, early⟩ | ⟨rfl, rfl⟩ := last k found stored
    · rw [earlier k early] at there
      exact simulates.alike k found held' old there
    · rw [newest] at there
      obtain rfl := Option.some.inj there
      exact shape
  · intro k found stored unspent apart
    obtain ⟨old, early⟩ | ⟨rfl, rfl⟩ := last k found stored
    · rw [earlier k early]
      refine simulates.real k found old unspent fun pend pended => ?_
      rw [nothing] at pended
      exact Option.noConfusion rfl (heq_of_eq pended)
    · rw [newest]
      congr 1
      cases pended : next.pending with
      | none => exact filled pended
      | some pend => exact absurd (carried pend pended).1 (apart pend pended)
  · intro pend pended
    obtain ⟨index, nonzero, length, dense, empty⟩ := carried pend pended
    refine ⟨fun old => absurd (known _ old) (by omega), out, ?_, nonzero, length, dense, ?_⟩
    · dsimp only
      rw [index, List.getElem?_append_right le_rfl, Nat.sub_self]
      rfl
    · rw [index, newest, empty]

/-- The stock world's convolution, on the caches of the wrapped one. -/
theorem Simulates.stocked {spent : List Nat} {world : Wrapped σ δ α} {stock : World σ δ α}
    (simulates : Simulates spent world stock) (call : ConvCall γ ω β κ) :
    stock.conv prevConv id call =
      ⟨call.store world.caches (prevConv (call.args world.caches)).2,
        stock.results ++ [(prevConv (call.args world.caches)).1]⟩ := by
  rw [World.conv, simulates.caches]
  dsimp only
  rw [Output.map_id]

/-- The stock convolution keeps the worlds together while nothing is pending. -/
theorem Simulates.stockConv {spent : List Nat} {world : Wrapped σ δ α} {stock : World σ δ α}
    (simulates : Simulates spent world stock) (nothing : world.pending = none)
    (known : ∀ k ∈ spent, k < stock.results.length) (call : ConvCall γ ω β κ) :
    Simulates spent { world with toWorld := world.toWorld.conv prevConv some call }
      (stock.conv prevConv id call) := by
  rw [simulates.stocked call]
  have shape : ((prevConv (call.args world.caches)).1.map some).columns.length =
      (prevConv (call.args world.caches)).1.columns.length := List.length_map _
  refine simulates.push nothing known rfl rfl ⟨rfl, rfl, shape⟩ (fun _ => rfl) fun pend pended => ?_
  change world.pending = some pend at pended
  rw [nothing] at pended
  exact Option.noConfusion rfl (heq_of_eq pended)

/-- Every convolution, split or not, keeps the worlds together. -/
theorem Simulates.conv (independent : Independent prevConv) {spent : List Nat}
    {world : Wrapped σ δ α} {stock : World σ δ α} (simulates : Simulates spent world stock)
    (known : ∀ k ∈ spent, k < stock.results.length) (call : ConvCall γ ω β κ) :
    Simulates spent (world.conv prevConv call) (stock.conv prevConv id call) := by
  obtain ⟨flushed, nothing⟩ := simulates.flush
  rw [Wrapped.conv]
  generalize world.flush = world at flushed nothing
  dsimp only
  by_cases keyword : call.positional = true
  · rw [if_pos keyword, if_pos (Or.inl rfl)]
    exact flushed.stockConv nothing known call
  rw [if_neg keyword]
  by_cases zero : eligible (call.args world.caches) = 0
  · rw [if_pos (Or.inl zero)]
    exact flushed.stockConv nothing known call
  split
  next => exact flushed.stockConv nothing known call
  next =>
    have fits := (eligible_fits (call.args world.caches)).resolve_left zero
    generalize eligible (call.args world.caches) = P at zero fits
    obtain ⟨x, hasX, _⟩ := fits.x
    obtain ⟨states, hasStates, length⟩ := fits.convStates
    obtain ⟨tokens, columns, written⟩ := independent.shaped _ _ fits x hasX
    have first := part_eq independent fits hasStates (show 0 < 3 by decide)
    have second := part_eq independent fits hasStates (show 1 < 3 by decide)
    have third := part_eq independent fits hasStates (show 2 < 3 by decide)
    rw [Nat.zero_mul, List.take_zero, List.nil_append, List.drop_zero] at first
    rw [hasStates, hasX, Option.map_some, Option.getD_some, Option.map_some, Option.getD_some,
      first]
    dsimp only
    rw [second]
    dsimp only
    rw [third]
    dsimp only
    have content : (prevConv (call.args world.caches)).2.take ((2 + 1) * P) ++
        states.channels.drop ((2 + 1) * P) = (prevConv (call.args world.caches)).2 := by
      rw [List.take_of_length_le (by omega), List.drop_of_length_le (by omega), List.append_nil]
    rw [content, flushed.stocked call, ← tokens]
    refine flushed.push nothing known rfl rfl ⟨rfl, rfl, ?_⟩
      (fun pended => Option.noConfusion rfl (heq_of_eq pended)) fun pend pended => ?_
    · rw [List.length_replicate, columns]
    · obtain rfl := Option.some.inj pended
      refine ⟨flushed.length, zero, columns, ?_, rfl⟩
      dsimp only
      rw [Nat.one_mul]

/-- What a slice reads has no element where there are no tokens or no columns. -/
theorem read_empty (out : Output δ ε) (off width : Nat) (shape : List Nat)
    (none : out.tokens * min width (out.columns.length - off) = 0) :
    out.read off width shape = ⟨out.dtype, shape, []⟩ := by
  rw [Output.read]
  congr 1
  obtain few | narrow := Nat.mul_eq_zero.mp none
  · rw [few]
    rfl
  · have empty : slice off width out.columns = [] := by
      rw [← List.length_eq_zero_iff, slice, List.length_take, List.length_drop]
      exact narrow
    rw [empty]
    simp

/-- With nothing pending, an argument that avoids spent carriers reads the stock value. -/
theorem Simulates.read {spent : List Nat} {world : Wrapped σ δ α} {stock : World σ δ α}
    (simulates : Simulates spent world stock) (nothing : world.pending = none) (arg : Arg δ α)
    (avoids : arg.Avoids spent world.results) :
    arg.read some world.results = (arg.read id stock.results).map (Value.map some) := by
  cases arg with
  | absent => rfl
  | column k off width shape =>
    rw [Arg.read, Arg.read, Option.map_map]
    cases stored : stock.results[k]? with
    | none =>
      have outside := List.getElem?_eq_none_iff.mp stored
      rw [List.getElem?_eq_none_iff.mpr (by rwa [simulates.length])]
      rfl
    | some out =>
      by_cases gone : k ∈ spent
      · have inside := (List.getElem?_eq_some_iff.mp stored).1
        obtain ⟨held, found⟩ : ∃ held, world.results[k]? = some held :=
          ⟨_, List.getElem?_eq_getElem (by rwa [simulates.length])⟩
        obtain ⟨dtype, tokens, columns⟩ := simulates.alike k out _ stored found
        have none := avoids gone _ found
        have stockNone : out.tokens * min width (out.columns.length - off) = 0 := by
          rwa [← tokens, ← columns]
        rw [found, Option.map_some, Option.map_some, Function.comp_apply, read_empty _ _ _ _ none,
          read_empty _ _ _ _ stockNone, dtype]
        rfl
      · rw [simulates.real k out stored gone fun pend pended => by
          rw [nothing] at pended
          exact Option.noConfusion rfl (heq_of_eq pended)]
        rw [Option.map_some, Option.map_some, Function.comp_apply]
        congr 1
        simp only [Output.read, Output.map, Value.map, slice, List.map_flatMap,
          ← List.map_drop, ← List.map_take, List.map_map]
        rfl
  | tensor storage offset value =>
    rw [Arg.read, Arg.read, Option.map_some]
    congr 1
    simp [Value.map]

/-- A view of the slice of a pending carrier reads, by its dense result, the stock value. -/
theorem Simulates.viewed [DecidableEq δ] {spent : List Nat} {world : Wrapped σ δ α}
    {stock : World σ δ α} (simulates : Simulates spent world stock) {index off P : Nat}
    {out : Output δ α} (there : stock.results[index]? = some out) (nonzero : P ≠ 0)
    (held : world.results[index]? = some (out.carrier P)) (arg : Arg δ α) {t : View δ}
    (viewed : arg.view world.results = some t)
    (split : isSplitView t (out.carrier P) index off P)
    (inside : (slice off P out.columns).length = P) (later : List (Output δ (Option α))) :
    ((out.slice off P).viewed t).read some later =
      (arg.read id stock.results).map (Value.map some) := by
  obtain ⟨address, offset, numel, dtype⟩ := of_decide_eq_true split
  rw [Nat.zero_add] at offset
  have dense : ((out.slice off P).viewed t).read some later =
      some ((⟨out.dtype, t.shape, (out.read off P t.shape).data⟩ : Value δ α).map some) := by
    have whole : slice 0 P (slice off P out.columns) = slice off P out.columns := by
      rw [slice, List.drop_zero, List.take_of_length_le inside.le]
    rw [Output.viewed, Arg.read, Output.read, Output.slice]
    simp only [inside, whole]
    rfl
  rw [dense]
  have addressed : (out.carrier P).address index =
      if out.tokens = 0 then .null else .result index := by
    rw [Output.address]
    have count : (out.carrier P).tokens * (out.carrier P).columns.length = out.tokens * (3 * P) := by
      rw [Output.carrier, List.length_replicate]
    have three : 3 * P ≠ 0 := by omega
    rw [count]
    simp only [Nat.mul_eq_zero, three, or_false]
  have empty : out.tokens = 0 → (out.read off P t.shape).data = [] := by
    intro none
    rw [Output.read, none]
    rfl
  cases arg with
  | absent => exact Option.noConfusion rfl (heq_of_eq viewed)
  | column result start width shape =>
    rw [Arg.view] at viewed
    obtain ⟨shown, found, rfl⟩ := Option.map_eq_some_iff.mp viewed
    rw [Arg.read, Option.map_map]
    by_cases here : index = result
    · subst here
      obtain rfl := Option.some.inj (held.symm.trans found)
      rw [there, Option.map_some]
      dsimp only [Function.comp_apply] at numel offset ⊢
      subst offset
      congr 2
      rw [Output.read, Output.read]
      congr 1
      obtain zero | positive := Nat.eq_zero_or_pos out.tokens
      · rw [zero]
        rfl
      · rw [Nat.eq_of_mul_eq_mul_left positive numel]
    · obtain ⟨other, stored⟩ : ∃ other, stock.results[result]? = some other := by
        have bound := (List.getElem?_eq_some_iff.mp found).1
        exact ⟨_, List.getElem?_eq_getElem (by rwa [← simulates.length])⟩
      obtain ⟨kind, tokens, _⟩ := simulates.alike result other shown stored found
      rw [stored, Option.map_some]
      dsimp only [Function.comp_apply] at address numel dtype ⊢
      -- another result has the carrier's address only where both are empty
      have zero : out.tokens = 0 := by
        rw [addressed] at address
        by_contra some
        rw [if_neg some, Output.address] at address
        split at address
        next => exact Address.noConfusion address
        next => exact here (Address.result.inj address).symm
      have none : (out.carrier P).tokens * P = 0 := by rw [Output.carrier, zero, Nat.zero_mul]
      rw [none, tokens] at numel
      have data : other.read start width shape = ⟨other.dtype, shape, []⟩ := by
        refine read_empty other start width shape (Nat.mul_eq_zero.mpr ?_)
        exact (Nat.mul_eq_zero.mp numel).imp_right fun narrow => by rw [narrow, Nat.zero_min]
      rw [empty zero, data, ← kind]
      congr 3
      exact dtype.symm
  | tensor storage start value =>
    obtain rfl := Option.some.inj viewed
    dsimp only at address numel dtype ⊢
    have zero : out.tokens = 0 := by
      rw [addressed] at address
      by_contra some
      rw [if_neg some] at address
      cases storage with
      | none => exact Address.noConfusion address
      | some storage => exact Address.noConfusion address
    have none : (out.carrier P).tokens * P = 0 := by rw [Output.carrier, zero, Nat.zero_mul]
    rw [none] at numel
    rw [empty zero, Arg.read, Option.map_some]
    congr 2
    have read : value.map id = value := by simp [Value.map]
    rw [read]
    obtain ⟨kind, shape, data⟩ := value
    obtain rfl := List.length_eq_zero_iff.mp numel
    congr 1
    exact dtype.symm

/-- A carrier whose views were handed over stays as it is, and counts as spent. -/
theorem Simulates.spend {spent : List Nat} {world : Wrapped σ δ α} {stock : World σ δ α}
    (simulates : Simulates spent world stock) {pend : Pending δ α}
    (pended : world.pending = some pend) :
    Simulates (spent ++ [pend.carrier]) { world with pending := none } stock := by
  refine ⟨simulates.caches, simulates.length, simulates.alike, fun k out stored unspent _ => ?_,
    fun other absent => Option.noConfusion rfl (heq_of_eq absent)⟩
  obtain ⟨before, apart⟩ := not_or.mp (fun either => unspent (List.mem_append.mpr either))
  refine simulates.real k out stored before fun other pended' => ?_
  rw [pended] at pended'
  obtain rfl := Option.some.inj pended'
  exact fun same => apart (List.mem_singleton.mpr same.symm)

/-- Flushing does not change what an argument avoids. -/
theorem Simulates.avoids_flush {spent : List Nat} {world : Wrapped σ δ α} {stock : World σ δ α}
    (simulates : Simulates spent world stock) {arg : Arg δ α}
    (avoids : arg.Avoids spent world.results) : arg.Avoids spent world.flush.results := by
  cases arg with
  | absent => trivial
  | tensor storage offset value => trivial
  | column result off width shape =>
    intro gone held found
    have flushed := simulates.flush.1
    have bound := (List.getElem?_eq_some_iff.mp found).1
    rw [flushed.length] at bound
    obtain ⟨before, earlier⟩ : ∃ before, world.results[result]? = some before :=
      ⟨_, List.getElem?_eq_getElem (by rwa [simulates.length])⟩
    obtain ⟨_, tokens, columns⟩ :=
      flushed.alike result _ held (List.getElem?_eq_getElem bound) found
    obtain ⟨_, tokens', columns'⟩ :=
      simulates.alike result _ before (List.getElem?_eq_getElem bound) earlier
    rw [tokens, columns, ← tokens', ← columns']
    exact avoids gone before earlier

/-- Receiving in a world with nothing pending, when all arguments avoid spent carriers. -/
theorem Simulates.receive {spent : List Nat} {world : Wrapped σ δ α} {stock : World σ δ α}
    (simulates : Simulates spent world stock) (nothing : world.pending = none)
    {call : ChunkCall ρ δ α} (avoids : ∀ arg, arg ∈ call.args ∨ arg ∈ call.q ∨ arg ∈ call.k ∨
      arg ∈ call.v → arg.Avoids spent world.results) :
    world.receive some call = (stock.receive id call).map some := by
  have keyword : ∀ arg : Option (Arg δ α), (∀ given ∈ arg, given.Avoids spent world.results) →
      arg.bind (Arg.read some world.results) =
        (arg.bind (Arg.read id stock.results)).map (Value.map some) := by
    intro arg avoids
    cases arg with
    | none => rfl
    | some given => exact simulates.read nothing given (avoids given rfl)
  rw [World.receive, World.receive, Received.map]
  dsimp only
  rw [keyword call.q fun given has => avoids given (Or.inr (Or.inl has)),
    keyword call.k fun given has => avoids given (Or.inr (Or.inr (Or.inl has))),
    keyword call.v fun given has => avoids given (Or.inr (Or.inr (Or.inr has))),
    simulates.caches, List.map_map]
  congr 1
  exact List.map_congr_left fun arg listed =>
    simulates.read nothing arg (avoids arg (Or.inl listed))

/-- A missing keyword reads as the absent argument. -/
theorem read_getD (lift : α → ε) (results : List (Output δ ε)) (arg : Option (Arg δ α)) :
    (some (arg.getD .absent)).bind (Arg.read lift results) = arg.bind (Arg.read lift results) := by
  cases arg with
  | none => rfl
  | some given => rfl

variable [DecidableEq δ]

/-- A chunk call receives what the stock call receives, and leaves nothing pending. -/
theorem Simulates.chunk {spent : List Nat} {world : Wrapped σ δ α} {stock : World σ δ α}
    (simulates : Simulates spent world stock) {call : ChunkCall ρ δ α}
    (avoids : ∀ arg, arg ∈ call.args ∨ arg ∈ call.q ∨ arg ∈ call.k ∨ arg ∈ call.v →
      arg.Avoids spent world.results) :
    Simulates (spent ++ world.taken call) (world.chunk call).1 stock ∧
      (world.chunk call).1.pending = none ∧
      (world.chunk call).2 = (stock.receive id call).map some := by
  obtain ⟨flushed, nothing⟩ := simulates.flush
  have avoided := fun arg listed => simulates.avoids_flush (avoids arg listed)
  rw [Wrapped.chunk, Wrapped.taken]
  cases pended : world.pending with
  | none =>
    rw [if_neg (by simp)]
    dsimp only
    rw [List.append_nil]
    exact ⟨simulates, pended, simulates.receive pended avoids⟩
  | some pend =>
    rw [if_pos (by simp)]
    dsimp only
    by_cases given : call.args ≠ []
    · rw [if_pos given, if_neg fun both => given both.1, List.append_nil]
      exact ⟨flushed, nothing, flushed.receive nothing avoided⟩
    rw [if_neg given, Wrapped.take, pended]
    dsimp only
    cases views : world.splitViews pend (call.q.getD .absent) (call.k.getD .absent)
        (call.v.getD .absent) with
    | none =>
      rw [if_neg (by simp), List.append_nil]
      refine ⟨flushed, nothing, ?_⟩
      have same : world.flush.receive some { call with
          q := some (call.q.getD .absent), k := some (call.k.getD .absent)
          v := some (call.v.getD .absent) } = world.flush.receive some call := by
        rw [World.receive, World.receive]
        dsimp only
        rw [read_getD, read_getD, read_getD]
      exact same.trans (flushed.receive nothing avoided)
    | some found =>
      obtain ⟨tq, tk, tv⟩ := found
      rw [if_pos ⟨not_not.mp given, rfl⟩]
      obtain ⟨fresh, out, there, nonzero, length, dense, held⟩ := simulates.carried pend pended
      rw [Wrapped.splitViews] at views
      simp only [Option.bind_eq_bind, Option.bind_eq_some_iff] at views
      obtain ⟨tq', viewQ, tk', viewK, tv', viewV, carrier, stored, chosen⟩ := views
      obtain rfl := Option.some.inj (held.symm.trans stored)
      split at chosen
      next matched =>
        obtain ⟨rfl, rfl, rfl⟩ : tq' = tq ∧ tk' = tk ∧ tv' = tv := by
          simpa using Option.some.inj chosen
        obtain ⟨splitQ, splitK, splitV⟩ := matched
        have width : ∀ j, j < 3 → (slice (j * pend.P) pend.P out.columns).length = pend.P := by
          intro j inside
          have room := Nat.mul_le_mul_right pend.P (Nat.succ_le_of_lt inside)
          rw [Nat.succ_mul] at room
          rw [slice, List.length_take, List.length_drop, length]
          omega
        have first := width 0 (by decide)
        have second := width 1 (by decide)
        have third := width 2 (by decide)
        rw [Nat.zero_mul] at first
        rw [Nat.one_mul] at second
        have readQ := fun later => simulates.viewed there nonzero held _ viewQ splitQ first later
        have readK := fun later => simulates.viewed there nonzero held _ viewK splitK second later
        have readV := fun later => simulates.viewed there nonzero held _ viewV splitV third later
        refine ⟨simulates.spend pended, rfl, ?_⟩
        obtain ⟨index, P, trio⟩ := pend
        dsimp only at dense readQ readK readV
        subst dense
        rw [World.receive, World.receive, Received.map, not_not.mp given]
        dsimp only [Option.bind_some]
        rw [readQ, readK, readV, ← simulates.caches, ← read_getD id stock.results call.q,
          ← read_getD id stock.results call.k, ← read_getD id stock.results call.v]
        rfl
      next => exact Option.noConfusion rfl (heq_of_eq chosen)

/-! ### Every run -/

omit [DecidableEq δ] in
/-- A chunk call that avoids spent carriers, by argument. -/
theorem Trace.Avoids.all {trace : Trace σ ρ δ α} {call : ChunkCall ρ δ α}
    (avoids : trace.Avoids call) (arg : Arg δ α)
    (given : arg ∈ call.args ∨ arg ∈ call.q ∨ arg ∈ call.k ∨ arg ∈ call.v) :
    arg.Avoids trace.spent trace.world.results := by
  rcases given with listed | has | has | has
  · exact avoids.args arg listed
  · exact avoids.q arg has
  · exact avoids.k arg has
  · exact avoids.v arg has

/-- The runs stay together: their worlds, and what the chunk functions received. -/
structure Follows (trace : Trace σ ρ δ α) (stock : World σ δ α × List (Received σ ρ δ α)) :
    Prop where
  worlds : Simulates trace.spent trace.world stock.1
  known : ∀ k ∈ trace.spent, k < stock.1.results.length
  received : trace.received = stock.2.map (Received.map some)

/-- One more call keeps the runs together, if a chunk call avoids spent carriers. -/
theorem Follows.step (independent : Independent prevConv) {trace : Trace σ ρ δ α}
    {stock : World σ δ α × List (Received σ ρ δ α)} (follows : Follows trace stock)
    (event : Event γ ω β κ ρ δ α)
    (avoids : ∀ call, event = .chunk call → trace.Avoids call) :
    Follows (wrappedStep prevConv trace event) (stockStep prevConv stock event) := by
  obtain ⟨worlds, known, received⟩ := follows
  cases event with
  | conv call =>
    refine ⟨worlds.conv independent known call, fun k spent => ?_, received⟩
    have grown : (stock.1.conv prevConv id call).results.length = stock.1.results.length + 1 := by
      rw [World.conv]
      exact List.length_append
    exact (known k spent).trans (by rw [stockStep, grown]; exact Nat.lt_succ_self _)
  | chunk call =>
    obtain ⟨kept, _, same⟩ := worlds.chunk (avoids call rfl).all
    refine ⟨kept, fun k spent => ?_, ?_⟩
    · obtain before | taken := List.mem_append.mp spent
      · exact known k before
      · rw [Wrapped.taken] at taken
        split at taken
        next => exact absurd taken List.not_mem_nil
        next pend pended =>
          split at taken
          next =>
            obtain rfl := List.mem_singleton.mp taken
            obtain ⟨_, out, there, _⟩ := worlds.carried pend pended
            exact (List.getElem?_eq_some_iff.mp there).1
          next => exact absurd taken List.not_mem_nil
    · change trace.received ++ _ = (stock.2 ++ _).map _
      rw [List.map_append, received, same]
      rfl

/-- A run stays with the stock run as long as its chunk calls avoid spent carriers. -/
theorem run_follows (independent : Independent prevConv) (caches : Nat → List σ)
    (events : List (Event γ ω β κ ρ δ α))
    (unspent : ∀ before call after, events = before ++ .chunk call :: after →
      (wrappedRun prevConv caches before).Avoids call) :
    Follows (wrappedRun prevConv caches events) (stockRun prevConv caches events) := by
  induction events using List.reverseRecOn with
  | nil =>
    exact ⟨⟨rfl, rfl, fun k out held stored => Option.noConfusion rfl (heq_of_eq stored),
      fun k out stored => Option.noConfusion rfl (heq_of_eq stored),
      fun pend pended => Option.noConfusion rfl (heq_of_eq pended)⟩,
      fun k spent => absurd spent List.not_mem_nil, rfl⟩
  | append_singleton events event ih =>
    have before := ih fun front call after split => unspent front call (after ++ [event]) (by
      rw [split, List.append_assoc]
      rfl)
    rw [wrappedRun, stockRun, List.foldl_append, List.foldl_append]
    refine before.step independent event fun call chunk => unspent events call [] ?_
    rw [chunk]

omit [DecidableEq δ] in
/-- A flush leaves nothing pending: the carrier is filled or the record dropped. -/
theorem Wrapped.flush_pending (world : Wrapped σ δ α) : world.flush.pending = none := by
  rw [Wrapped.flush]
  cases pended : world.pending with
  | none => exact pended
  | some pend => rfl

/-- `take` leaves nothing pending either, whether it substitutes the views or flushes. -/
theorem Wrapped.take_pending (world : Wrapped σ δ α) (q k v : Arg δ α) :
    (world.take q k v).1.pending = none := by
  rw [Wrapped.take]
  split
  next nothing => exact nothing
  next pend _ =>
    split
    next => rfl
    next => exact world.flush_pending

/-- After a chunk call nothing is pending. -/
theorem Wrapped.chunk_pending (world : Wrapped σ δ α) (call : ChunkCall ρ δ α) :
    (world.chunk call).1.pending = none := by
  rw [Wrapped.chunk]
  by_cases some : world.pending.isSome
  · rw [if_pos some]
    by_cases given : call.args ≠ []
    · rw [if_pos given]
      exact world.flush_pending
    · rw [if_neg given]
      exact world.take_pending _ _ _
  · rw [if_neg some]
    simpa using some

/-- In every run whose chunk calls have no element in a carrier that an earlier chunk call was
given the views of, the wrapped chunk function receives what it receives without the wrappers,
with no uninitialised cell; and after every chunk call of any run nothing is pending. -/
theorem split_receives_stock (independent : Independent prevConv) (caches : Nat → List σ)
    (events : List (Event γ ω β κ ρ δ α))
    (unspent : ∀ before call after, events = before ++ .chunk call :: after →
      (wrappedRun prevConv caches before).Avoids call) :
    (wrappedRun prevConv caches events).received =
        (stockRun prevConv caches events).2.map (Received.map some) ∧
      ∀ (before : List (Event γ ω β κ ρ δ α)) (call : ChunkCall ρ δ α),
        (wrappedRun prevConv caches (before ++ [.chunk call])).world.pending = none := by
  refine ⟨(run_follows independent caches events unspent).received, fun before call => ?_⟩
  rw [wrappedRun, List.foldl_append]
  exact Wrapped.chunk_pending _ call

end Simulation

/-- A convolution whose results and states are those of its input channels. -/
def copyConv (args : ConvArgs Nat Unit Unit Nat Unit) : Output Unit Nat × List Nat :=
  (⟨(), (args.x.map Input.tokens).getD 0,
    ((args.x.map fun x => x.channels).getD []).map fun c t => c + t⟩,
    (args.x.map fun x => x.channels).getD [])

/-- The convolution that copies its columns treats every channel on its own, as the split assumes of
the real one. -/
theorem copyConv_independent : Independent copyConv := by
  constructor
  · intro args dim fits x hasX
    obtain ⟨x', hasX', length⟩ := fits.x
    obtain rfl := Option.some.inj (hasX.symm.trans hasX')
    rw [copyConv, hasX]
    exact ⟨rfl, (List.length_map _).trans length, length⟩
  · intro args dim fits lo P _
    obtain ⟨x, hasX, _⟩ := fits.x
    rw [copyConv, copyConv, ConvArgs.slice, hasX]
    simp only [Option.map_some, Option.getD_some, Input.slice, Output.slice, slice, List.map_take,
      List.map_drop]

/-- An eligible call on three channels and two tokens. -/
def threeChannels : ConvCall Nat Unit Unit Unit :=
  ⟨some ⟨⟨2, [10, 20, 30]⟩, 2, 1⟩, some ⟨2, [(), (), ()]⟩, none, some (3, 0), false, (), true,
    false, true⟩

/-- A keyword call with the three slices of the first result, reshaped per token. -/
def sliceViews : ChunkCall Unit Unit Nat :=
  ⟨[], some (.column 0 0 1 [1, 2, 1, 1]), some (.column 0 1 1 [1, 2, 1, 1]),
    some (.column 0 2 1 [1, 2, 1, 1]), ()⟩

/-- The slices are handed over once, in the order of the call. -/
theorem split_receives_stock_slices :
    (wrappedRun copyConv (fun _ => [0, 0, 0]) [.conv threeChannels, .chunk sliceViews]).received =
      (stockRun copyConv (fun _ => [0, 0, 0]) [.conv threeChannels, .chunk sliceViews]).2.map
        (Received.map some) := by
  refine (split_receives_stock copyConv_independent _ _ fun before call after split => ?_).1
  have early : (wrappedRun copyConv (fun _ => [0, 0, 0]) before).spent = [] := by
    cases before with
    | nil => rfl
    | cons first rest =>
      obtain ⟨rfl, later⟩ := List.cons.inj split
      cases rest with
      | nil => rfl
      | cons second rest =>
        have impossible := (List.cons.inj later).2
        exact absurd impossible.symm (List.append_ne_nil_of_right_ne_nil _ (List.cons_ne_nil _ _))
  have any : ∀ arg : Arg Unit Nat,
      arg.Avoids []
        (wrappedRun (ρ := Unit) copyConv (fun _ => [0, 0, 0]) before).world.results := by
    intro arg
    cases arg with
    | absent => trivial
    | tensor storage offset value => trivial
    | column result off width shape => exact fun gone => absurd gone List.not_mem_nil
  constructor <;> intro arg _ <;> rw [early] <;> exact any arg

/-- A second chunk call with the slices of the same result receives the uninitialised carrier. -/
theorem second_call_receives_carrier :
    Independent copyConv ∧
      (wrappedRun copyConv (fun _ => [0, 0, 0])
        [.conv threeChannels, .chunk sliceViews, .chunk sliceViews]).received ≠
      (stockRun copyConv (fun _ => [0, 0, 0])
        [.conv threeChannels, .chunk sliceViews, .chunk sliceViews]).2.map (Received.map some) := by
  refine ⟨copyConv_independent, fun same => ?_⟩
  have elements := congrArg (List.map fun received => received.q.map Value.data) same
  revert elements
  decide

end GlmSpark.KdaConvSplit
