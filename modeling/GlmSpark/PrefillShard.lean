import GlmSpark.RowOwnership
import Mathlib.Data.Finset.Basic

/-!
# The sharded prefill forward

`layer_forward` and `model_forward` of `glm_prefill_shard.py` run the model of
`glm5next_model.py` with the residual state kept as owned rows. The hyper-connection
operations, the expansion, the contraction and the norms are functions of one row;
attention and the feed-forward part are functions of all rows that give every rank a
partial result, and the stock forward adds these up. Rows of every shape are elements of
one type, and the ranks run in lockstep from collective to collective.
-/

namespace GlmSpark.PrefillShard

open RowOwnership

universe u
variable {V : Type u}

/-- Attention or the feed-forward part: the partial results of the ranks. -/
structure Sublayer (V : Type u) (world : ℕ) where
  part : List V → Fin world → List V
  /-- A partial result has a row for every token. -/
  rows : ∀ x rank, (part x rank).length = x.length

/-- `Glm5NextDecoderLayer` with its weights. -/
structure Layer (V : Type u) (world : ℕ) where
  /-- `hc_pre` with the attention weights and the input norm: `post, comb, x`. -/
  hcPre : V → V × V × V
  /-- `hc_fused_post_pre` with the attention weights: `residual, post, comb, x`. -/
  hcAttn : V → V → V → V → V × V × V × V
  /-- `hc_fused_post_pre` with the feed-forward weights: `residual, post, comb, x`. -/
  hcFfn : V → V → V → V → V × V × V × V
  hcPost : V → V → V → V → V
  selfAttn : List ℤ → Sublayer V world
  mlp : Sublayer V world

/-- `Glm5NextModel`. -/
structure Model (V : Type u) (world : ℕ) where
  layers : List (Layer V world)
  auxHiddenStateLayers : Finset ℕ
  embedInputIds : List ℤ → List V
  hcExpand : V → V
  hcContract : V → V
  norm : V → V

/-- `residual`, `post` and `comb`: what the layers of a hyper-connected model hand on beside the
hidden states. -/
structure Carry (α : Type u) where
  residual : α
  post : α
  comb : α

/-- What the loop over the layers carries. -/
structure Running (α : Type u) where
  hiddenStates : α
  carry : Option (Carry α)
  auxHiddenStates : List α

section Rows

variable {world : ℕ} (layer : Layer V world)

/-- `hc_pre` on the rows of a tensor. -/
def Layer.pre (x : List V) : List V × List V × List V :=
  let out := x.map layer.hcPre
  (out.map (·.1), out.map (·.2.1), out.map (·.2.2))

/-- `hc_fused_post_pre` on matching rows of four tensors. -/
def fused (op : V → V → V → V → V × V × V × V) (x : List V) (carry : Carry (List V)) :
    Carry (List V) × List V :=
  let out := (x.zip (carry.residual.zip (carry.post.zip carry.comb))).map fun
    (x, residual, post, comb) => op x residual post comb
  (⟨out.map (·.1), out.map (·.2.1), out.map (·.2.2.1)⟩, out.map (·.2.2.2))

/-- `hc_post` on matching rows of four tensors. -/
def Layer.postRows (x : List V) (carry : Carry (List V)) : List V :=
  (x.zip (carry.residual.zip (carry.post.zip carry.comb))).map fun
    (x, residual, post, comb) => layer.hcPost x residual post comb

/-- `Glm5NextDecoderLayer.forward` up to the attention input, with the fused operation of the layer
before it. -/
def Model.attnInput (model : Model V world) (idx : ℕ) (layer : Layer V world) (x : List V)
    (carry : Option (Carry (List V))) : Carry (List V) × List V :=
  match carry with
  | none =>
    let x := if idx = 0 then x.map model.hcExpand else x
    let (post, comb, pre) := layer.pre x
    (⟨x, post, comb⟩, pre)
  | some carry => fused layer.hcAttn x carry

end Rows

/-- The embeddings given, or those of the tokens. -/
def Model.entry {world : ℕ} (model : Model V world) (inputIds : List ℤ)
    (inputsEmbeds : Option (List V)) : List V :=
  inputsEmbeds.getD (model.embedInputIds inputIds)

section Stock

variable [AddCommMonoid V] {world : ℕ} (model : Model V world)

/-- A sublayer with its all-reduce. -/
def Sublayer.stock (sublayer : Sublayer V world) (x : List V) : List V :=
  sumRows x.length (sublayer.part x)

/-- `Glm5NextDecoderLayer.forward` of an mHC layer. -/
def Model.layerForward (idx : ℕ) (layer : Layer V world) (positions : List ℤ) (x : List V)
    (carry : Option (Carry (List V))) : List V × Option (Carry (List V)) :=
  let (carry, x) := model.attnInput idx layer x carry
  let x := (layer.selfAttn positions).stock x
  let (carry, x) := fused layer.hcFfn x carry
  let x := layer.mlp.stock x
  if idx = model.layers.length - 1 then
    ((layer.postRows x carry).map model.hcContract, none)
  else (x, some carry)

/-- One round of the loop of `Glm5NextModel.forward`. -/
def Model.round (positions : List ℤ) (run : Running (List V)) (entry : Layer V world × ℕ) :
    Running (List V) :=
  let (layer, idx) := entry
  let (hiddenStates, carry) :=
    model.layerForward idx layer positions run.hiddenStates run.carry
  let aux := match carry with
    | some carry => (layer.postRows hiddenStates carry).map model.hcContract
    | none => hiddenStates
  ⟨hiddenStates, carry,
    if idx + 1 ∈ model.auxHiddenStateLayers then run.auxHiddenStates ++ [aux]
    else run.auxHiddenStates⟩

/-- `Glm5NextModel.forward`: the hidden states and the auxiliary ones. -/
def Model.forward (inputIds positions : List ℤ) (inputsEmbeds : Option (List V)) :
    List V × List (List V) :=
  let run := model.layers.zipIdx.foldl (model.round positions)
    ⟨model.entry inputIds inputsEmbeds, none, []⟩
  (run.hiddenStates.map model.norm, run.auxHiddenStates)

end Stock

section Sharded

variable (own : Ownership V) (model : Model V own.world)

/-- The tensors of all ranks. -/
abbrev Tensors (own : Ownership V) : Type u := Fin own.world → List V

/-- The carried tensors of one rank. -/
def Carry.at {α : Type u} {world : ℕ} (carry : Carry (Fin world → α)) (rank : Fin world) :
    Carry α :=
  ⟨carry.residual rank, carry.post rank, carry.comb rank⟩

/-- A fused operation at every rank. -/
def fusedRanks (op : V → V → V → V → V × V × V × V) (x : Tensors own)
    (carry : Carry (Tensors own)) : Carry (Tensors own) × Tensors own :=
  (⟨fun rank => (fused op (x rank) (carry.at rank)).1.residual,
    fun rank => (fused op (x rank) (carry.at rank)).1.post,
    fun rank => (fused op (x rank) (carry.at rank)).1.comb⟩,
    fun rank => (fused op (x rank) (carry.at rank)).2)

/-- `own.local` at every rank: each keeps the rows it owns. -/
def keep (tensors : Tensors own) : Option (Tensors own) :=
  everyRank fun rank => own.localRows rank (tensors rank)

/-- `layer_forward` up to the attention input: the state, and `x` with all rows. -/
def shardAttnInput (idx : ℕ) (layer : Layer V own.world) (x : Tensors own)
    (carry : Option (Carry (Tensors own))) : Option (Carry (Tensors own) × Tensors own) :=
  match carry with
  | none => do
    let x : Tensors own := fun rank =>
      if idx = 0 then (x rank).map model.hcExpand else x rank
    let residual ← keep own x
    let post ← keep own fun rank => (layer.pre (x rank)).1
    let comb ← keep own fun rank => (layer.pre (x rank)).2.1
    return (⟨residual, post, comb⟩, fun rank => (layer.pre (x rank)).2.2)
  | some carry => do
    let (carry, x) := fusedRanks own layer.hcAttn x carry
    return (carry, ← own.gather x)

variable [AddCommMonoid V]

/-- `layer_forward` at every rank. -/
def shardLayerForward (idx : ℕ) (layer : Layer V own.world) (positions : List ℤ)
    (x : Tensors own) (carry : Option (Carry (Tensors own))) :
    Option (Tensors own × Option (Carry (Tensors own))) := do
  let (carry, x) ← shardAttnInput own model idx layer x carry
  let x ← own.reduce fun rank => (layer.selfAttn positions).part (x rank) rank
  let (carry, x) := fusedRanks own layer.hcFfn x carry
  let x ← own.gather x
  let x ← own.reduce fun rank => layer.mlp.part (x rank) rank
  if idx = model.layers.length - 1 then
    return (fun rank => (layer.postRows (x rank) (carry.at rank)).map model.hcContract, none)
  else return (x, some carry)

/-- One round of the loop of `model_forward`. -/
def shardRound (positions : List ℤ) (run : Running (Tensors own)) (entry : Layer V own.world × ℕ) :
    Option (Running (Tensors own)) := do
  let (layer, idx) := entry
  let (hiddenStates, carry) ←
    shardLayerForward own model idx layer positions run.hiddenStates run.carry
  if idx + 1 ∈ model.auxHiddenStateLayers then
    let aux : Tensors own := match carry with
      | some carry => fun rank =>
        (layer.postRows (hiddenStates rank) (carry.at rank)).map model.hcContract
      | none => hiddenStates
    return ⟨hiddenStates, carry, run.auxHiddenStates ++ [← own.gather aux]⟩
  else return ⟨hiddenStates, carry, run.auxHiddenStates⟩

/-- `model_forward` at every rank: embeddings, all layers on owned rows, and the gather at the end.
-/
def modelForward (inputIds positions : List ℤ) (inputsEmbeds : Option (List V)) :
    Option (Tensors own × List (Tensors own)) := do
  let run ← model.layers.zipIdx.foldlM (shardRound own model positions)
    ⟨fun _ => model.entry inputIds inputsEmbeds, none, []⟩
  let hiddenStates ← own.gather run.hiddenStates
  return (fun rank => (hiddenStates rank).map model.norm, run.auxHiddenStates)

end Sharded

section Tracking

variable {own : Ownership V} (model : Model V own.world)

/-- Every rank carries its rows of the stock state. -/
structure CarryOwned (own : Ownership V) (carry : Carry (Tensors own)) (stock : Carry (List V)) :
    Prop where
  residual : own.Owned carry.residual stock.residual
  post : own.Owned carry.post stock.post
  comb : own.Owned carry.comb stock.comb

/-- A fused operation acts row by row, so it keeps the ownership: applied to the rows of every rank
it gives the owned rows of its result. -/
theorem fusedRanks_owned (op : V → V → V → V → V × V × V × V) {x : Tensors own} {t : List V}
    {carry : Carry (Tensors own)} {stock : Carry (List V)} (owned : own.Owned x t)
    (carried : CarryOwned own carry stock) :
    CarryOwned own (fusedRanks own op x carry).1 (fused op t stock).1 ∧
      own.Owned (fusedRanks own op x carry).2 (fused op t stock).2 := by
  have all := (owned.zip (carried.residual.zip (carried.post.zip carried.comb))).map
    fun (x, residual, post, comb) => op x residual post comb
  exact ⟨⟨all.map _, all.map _, all.map _⟩, all.map _⟩

/-- Materialising the deferred `hc_post` keeps the ownership. -/
theorem postRows_owned (layer : Layer V own.world) {x : Tensors own} {t : List V}
    {carry : Carry (Tensors own)} {stock : Carry (List V)} (owned : own.Owned x t)
    (carried : CarryOwned own carry stock) :
    own.Owned (fun rank => (layer.postRows (x rank) (carry.at rank)).map model.hcContract)
      ((layer.postRows t stock).map model.hcContract) := by
  have all := owned.zip (carried.residual.zip (carried.post.zip carried.comb))
  exact (all.map _).map _

/-- Where a forward is between two layers: before the first one every rank has all rows, then
its own; after the last one nothing is carried. -/
inductive Tracks (own : Ownership V) :
    Tensors own → Option (Carry (Tensors own)) → List V → Option (Carry (List V)) → Prop
  | entry {x t} (held : own.Full x t) : Tracks own x none t none
  | carried {x carry t stock} (owned : own.Owned x t) (carried : CarryOwned own carry stock) :
      Tracks own x (some carry) t (some stock)

/-- Rows kept of full rows that every rank computed alike. -/
theorem keep_owned {x : Tensors own} {t : List V} (held : own.Full x t) :
    ∃ kept, keep own x = some kept ∧ own.Owned kept t :=
  own.localRows_full held

/-- The attention input has all rows, and the state its owned ones. -/
theorem attnInput_full (idx : ℕ) (layer : Layer V own.world) {x : Tensors own} {t : List V}
    {carry : Option (Carry (Tensors own))} {stock : Option (Carry (List V))}
    (tracks : Tracks own x carry t stock) :
    ∃ carry' x', shardAttnInput own model idx layer x carry = some (carry', x') ∧
      CarryOwned own carry' (model.attnInput idx layer t stock).1 ∧
      own.Full x' (model.attnInput idx layer t stock).2 := by
  cases tracks with
  | entry held =>
    have expanded : own.Full (fun rank => if idx = 0 then (x rank).map model.hcExpand else x rank)
        (if idx = 0 then t.map model.hcExpand else t) := by
      split
      · exact held.map model.hcExpand
      · exact held
    have pre := expanded.map layer.hcPre
    obtain ⟨residual, keepResidual, ownedResidual⟩ := keep_owned expanded
    obtain ⟨post, keepPost, ownedPost⟩ := keep_owned (pre.map (·.1))
    obtain ⟨comb, keepComb, ownedComb⟩ := keep_owned (pre.map (·.2.1))
    refine ⟨⟨residual, post, comb⟩, _, ?_, ⟨ownedResidual, ownedPost, ownedComb⟩, pre.map (·.2.2)⟩
    rw [shardAttnInput]
    dsimp only [Layer.pre]
    rw [keepResidual, Option.bind_eq_bind, Option.bind_some]
    erw [keepPost, Option.bind_some, keepComb, Option.bind_some]
    rfl
  | carried owned carried =>
    obtain ⟨after, gathers⟩ := fusedRanks_owned layer.hcAttn owned carried
    obtain ⟨x', gathered, held⟩ := own.gather_owned gathers
    refine ⟨_, x', ?_, after, held⟩
    rw [shardAttnInput]
    dsimp only
    rw [gathered]
    rfl

/-- What a forward carries after a layer. -/
inductive CarryTracks (own : Ownership V) :
    Option (Carry (Tensors own)) → Option (Carry (List V)) → Prop
  | done : CarryTracks own none none
  | carried {carry stock} (carried : CarryOwned own carry stock) :
      CarryTracks own (some carry) (some stock)

/-- The loop of the sharded forward has captured the stock auxiliary states. -/
def AuxFull (own : Ownership V) (aux : List (Tensors own)) (stock : List (List V)) : Prop :=
  List.Forall₂ own.Full aux stock

/-- Every rank has captured the same states, those of the stock run. -/
theorem auxFull_at {aux : List (Tensors own)} {stock : List (List V)} (full : AuxFull own aux stock)
    (rank : Fin own.world) : (aux.map fun tensors => tensors rank) = stock := by
  induction full with
  | nil => rfl
  | cons held _ ih => rw [List.map_cons, held.same, ih]

variable [AddCommMonoid V]

/-- The reduced partial results of a sublayer on full rows are the owned rows of its stock
output. -/
theorem reduce_stock (sublayer : Sublayer V own.world) {x : Tensors own} {t : List V}
    (held : own.Full x t) :
    ∃ reduced, own.reduce (fun rank => sublayer.part (x rank) rank) = some reduced ∧
      own.Owned reduced (sublayer.stock t) := by
  have same : (fun rank => sublayer.part (x rank) rank) = sublayer.part t := by
    funext rank
    rw [held.same]
  have rows : ∀ rank, (sublayer.part t rank).length = own.rows := by
    intro rank
    rw [sublayer.rows, held.rows]
  rw [same, Sublayer.stock, held.rows]
  exact own.reduce_owned _ rows

/-- A layer leaves every rank its rows of the stock result. -/
theorem shardLayerForward_owned (idx : ℕ) (layer : Layer V own.world) (positions : List ℤ)
    {x : Tensors own} {t : List V} {carry : Option (Carry (Tensors own))}
    {stock : Option (Carry (List V))} (tracks : Tracks own x carry t stock) :
    ∃ x' carry', shardLayerForward own model idx layer positions x carry = some (x', carry') ∧
      own.Owned x' (model.layerForward idx layer positions t stock).1 ∧
      CarryTracks own carry' (model.layerForward idx layer positions t stock).2 ∧
      ((model.layerForward idx layer positions t stock).2.isSome ↔
        idx ≠ model.layers.length - 1) := by
  obtain ⟨carry₁, x₁, input, carried₁, held₁⟩ := attnInput_full model idx layer tracks
  obtain ⟨x₂, attends, owned₂⟩ := reduce_stock (layer.selfAttn positions) held₁
  obtain ⟨carried₃, owned₃⟩ := fusedRanks_owned layer.hcFfn owned₂ carried₁
  obtain ⟨x₄, gathers, held₄⟩ := own.gather_owned owned₃
  obtain ⟨x₅, feeds, owned₅⟩ := reduce_stock layer.mlp held₄
  simp only [shardLayerForward, Model.layerForward, input, attends, gathers, feeds,
    Option.bind_eq_bind, Option.bind_some]
  by_cases last : idx = model.layers.length - 1
  · rw [if_pos last, if_pos last]
    refine ⟨_, none, rfl, postRows_owned model layer owned₅ carried₃, .done, ?_⟩
    simp [last]
  · rw [if_neg last, if_neg last]
    refine ⟨x₅, some _, rfl, owned₅, .carried carried₃, ?_⟩
    simp [last]

/-- A round of the sharded loop leaves every rank its rows of the stock round's states, and
captures the same auxiliary state. -/
theorem shardRound_owned (positions : List ℤ) (layer : Layer V own.world) (idx : ℕ)
    {run : Running (Tensors own)} {stock : Running (List V)}
    (tracks : Tracks own run.hiddenStates run.carry stock.hiddenStates stock.carry)
    (aux : AuxFull own run.auxHiddenStates stock.auxHiddenStates) :
    ∃ run', shardRound own model positions run (layer, idx) = some run' ∧
      own.Owned run'.hiddenStates (model.round positions stock (layer, idx)).hiddenStates ∧
      CarryTracks own run'.carry (model.round positions stock (layer, idx)).carry ∧
      ((model.round positions stock (layer, idx)).carry.isSome ↔
        idx ≠ model.layers.length - 1) ∧
      AuxFull own run'.auxHiddenStates (model.round positions stock (layer, idx)).auxHiddenStates := by
  obtain ⟨x, carry, forward, owned, carries, last⟩ :=
    shardLayerForward_owned model idx layer positions tracks
  rw [shardRound, forward, Option.bind_eq_bind, Option.bind_some, Model.round]
  dsimp only
  by_cases captured : idx + 1 ∈ model.auxHiddenStateLayers
  · rw [if_pos captured, if_pos captured]
    generalize (model.layerForward idx layer positions stock.hiddenStates stock.carry) = after
      at owned carries last ⊢
    obtain ⟨hidden, stockCarry⟩ := after
    cases carries with
    | done =>
      obtain ⟨full, gathers, held⟩ := own.gather_owned owned
      dsimp only
      rw [gathers]
      exact ⟨_, rfl, owned, .done, last, List.rel_append aux (.cons held .nil)⟩
    | carried carried =>
      obtain ⟨full, gathers, held⟩ := own.gather_owned (postRows_owned model layer owned carried)
      dsimp only
      rw [gathers]
      exact ⟨_, rfl, owned, .carried carried, last, List.rel_append aux (.cons held .nil)⟩
  · rw [if_neg captured, if_neg captured]
    exact ⟨_, rfl, owned, carries, last, aux⟩

/-- The loop over the layers that are left. -/
theorem shardLoop_owned (positions : List ℤ) (rest : List (Layer V own.world)) (start : ℕ)
    (total : start + rest.length = model.layers.length) (left : rest ≠ [])
    {run : Running (Tensors own)} {stock : Running (List V)}
    (tracks : Tracks own run.hiddenStates run.carry stock.hiddenStates stock.carry)
    (aux : AuxFull own run.auxHiddenStates stock.auxHiddenStates) :
    ∃ run', (rest.zipIdx start).foldlM (shardRound own model positions) run = some run' ∧
      own.Owned run'.hiddenStates
        ((rest.zipIdx start).foldl (model.round positions) stock).hiddenStates ∧
      AuxFull own run'.auxHiddenStates
        ((rest.zipIdx start).foldl (model.round positions) stock).auxHiddenStates := by
  induction rest generalizing start run stock with
  | nil => exact absurd rfl left
  | cons layer rest ih =>
    obtain ⟨run', round, owned, carries, last, aux'⟩ :=
      shardRound_owned model positions layer start tracks aux
    rw [List.zipIdx_cons, List.foldlM_cons, round, Option.bind_eq_bind, Option.bind_some,
      List.foldl_cons]
    cases rest with
    | nil => exact ⟨run', rfl, owned, aux'⟩
    | cons next rest =>
      have further : start ≠ model.layers.length - 1 := by
        rw [List.length_cons, List.length_cons] at total
        omega
      have carried := last.mpr further
      apply ih (start + 1)
      · rw [List.length_cons] at total
        omega
      · exact List.cons_ne_nil _ _
      · generalize run'.carry = carry at carries ⊢
        generalize (model.round positions stock (layer, start)).carry = after at carries carried ⊢
        cases carries with
        | done => exact nomatch carried
        | carried carries => exact .carried owned carries
      · exact aux'

end Tracking

/-- The sharded forward succeeds, and on every rank returns the hidden states and the
auxiliary states of the stock forward: for either mode, exact or not, with or without
padding, and whatever padding rows hold. -/
theorem modelForward_eq_stock [AddCommMonoid V] (own : Ownership V) (model : Model V own.world)
    (layers : model.layers ≠ []) (inputIds positions : List ℤ) (inputsEmbeds : Option (List V))
    (chunk : (model.entry inputIds inputsEmbeds).length = own.rows) :
    ∃ hiddenStates auxHiddenStates,
      modelForward own model inputIds positions inputsEmbeds =
        some (hiddenStates, auxHiddenStates) ∧
      ∀ rank, (hiddenStates rank, auxHiddenStates.map fun tensors => tensors rank) =
        model.forward inputIds positions inputsEmbeds := by
  let run : Running (Tensors own) := ⟨fun _ => model.entry inputIds inputsEmbeds, none, []⟩
  let stock : Running (List V) := ⟨model.entry inputIds inputsEmbeds, none, []⟩
  have tracks : Tracks own run.hiddenStates run.carry stock.hiddenStates stock.carry :=
    .entry ⟨chunk, fun _ => rfl⟩
  have captured : AuxFull own run.auxHiddenStates stock.auxHiddenStates := .nil
  obtain ⟨run', loop, owned, aux⟩ := shardLoop_owned model positions model.layers 0
    (Nat.zero_add _) layers tracks captured
  obtain ⟨full, gathers, held⟩ := own.gather_owned owned
  refine ⟨fun rank => (full rank).map model.norm, run'.auxHiddenStates, ?_, fun rank => ?_⟩
  · rw [modelForward, loop, Option.bind_eq_bind, Option.bind_some, gathers]
    rfl
  · dsimp only
    rw [held.same, auxFull_at aux rank]
    rfl

/-- A layer whose attention mixes all rows. -/
def mixing : Layer ℤ 3 where
  hcPre v := (1, 2, v + 1)
  hcAttn x residual post comb := (residual + post * x, post + 1, comb, x + residual)
  hcFfn x residual post comb := (residual - x, post, comb + 1, x * comb)
  hcPost x residual post comb := x + residual + post + comb
  selfAttn positions :=
    ⟨fun x rank => x.map fun v => v * (rank : ℤ) + x.sum + positions.sum, fun _ _ => by simp⟩
  mlp := ⟨fun x rank => x.map (· + (rank : ℤ)), fun _ _ => by simp⟩

/-- Two such layers; the output of both is captured. -/
def twoLayers : Model ℤ 3 where
  layers := [mixing, mixing]
  auxHiddenStateLayers := {1, 2}
  embedInputIds ids := ids
  hcExpand v := v
  hcContract v := 2 * v
  norm v := v - 1

/-- Four rows over three ranks: the last rank owns no real row. -/
def fourOverThree : Ownership ℤ := ⟨3, 4, .shard, false, 0, by decide⟩

/-- The sharded forward of four rows over three ranks is the stock one. -/
theorem modelForward_eq_stock_padded :
    Ownership.init 3 4 .shard false true (0 : ℤ) (by decide) = some fourOverThree ∧
    (twoLayers.forward [5, 6, 7, 8] [0, 1, 2, 3] none).2.length = 2 ∧
    ∃ hiddenStates auxHiddenStates,
      modelForward fourOverThree twoLayers [5, 6, 7, 8] [0, 1, 2, 3] none =
        some (hiddenStates, auxHiddenStates) ∧
      ∀ rank, (hiddenStates rank, auxHiddenStates.map fun tensors => tensors rank) =
        twoLayers.forward [5, 6, 7, 8] [0, 1, 2, 3] none :=
  ⟨rfl, by decide, modelForward_eq_stock fourOverThree twoLayers (List.cons_ne_nil _ _)
    [5, 6, 7, 8] [0, 1, 2, 3] none rfl⟩

end GlmSpark.PrefillShard
