import GlmSpark.Blocks
import GlmSpark.Launch
import GlmSpark.Ragged
import Mathlib.Data.Nat.Size

/-!
# The kernels of the pooled indexer cache

The indexer compresses every `kpool` consecutive tokens of a request into one entry of
its K cache. Tokens of a pool that is not complete yet wait in a tail ring, one block per
request, addressed by the position modulo the ring. Prefill compresses the pools inside a
batch and seeds the ring with the last tokens of every request; decode stashes its tokens,
drafts included, and compresses a pool when its last token comes.

Programs of a launch are programs over one memory of ring cells and pool entries. A word
is what the kernels keep of a token, its key and gate score, or of a pool; the float
arithmetic that makes the second from the first is a parameter.
-/

namespace GlmSpark.KpoolTail

open Blocks Launch Program Ragged

universe u

section Geometry

/-- `next_power_of_2`: the least power of two that is as large. -/
def nextPowerOfTwo (n : ℕ) : ℕ := if n < 1 then 1 else 2 ^ Nat.size (n - 1)

/-- `Glm5NextTailCache.get_kv_cache_spec`: slots of a tail ring, a power of two of pools that holds
the open pool and the drafts. -/
def tailRing (kpool numSpec : ℕ) : ℕ := kpool * nextPowerOfTwo (cdiv (kpool + numSpec) kpool)

end Geometry

section Mapping

/-- One token of `_kpool_tail_slot_mapping_kernel`: a real token with a generic slot goes to its
request's own block, everything else is copied through. -/
def tailSlotKernel (slotIn : List ℤ) (blockTable : ℕ → ℕ) (qsl : List ℕ) (positions : ℕ → ℤ)
    (numActualTokens numReqs ring i : ℕ) : ℤ :=
  let slot := slotIn.getD i (-1)
  let low := qsl.getD 0 0
  let high := qsl.getD numReqs 0
  let counted := (List.range' 1 numReqs).countP fun r => decide (qsl.getD r 0 ≤ i)
  let req := min counted (numReqs - 1)
  if low ≤ i ∧ i < high ∧ i < numActualTokens ∧ 0 ≤ slot then
    -- `%` truncates in the kernel, which then adds the ring to a negative remainder
    let rem := (positions i).tmod ring
    blockTable req * ring + if rem < 0 then rem + ring else rem
  else slot

/-- `compute_kpool_tail_slot_mapping` on the builder's buffer: a ring slot for each token of the
batch, pads copied through. -/
def tailSlotMapping (slotIn : List ℤ) (blockTable : ℕ → ℕ) (qsl : List ℕ) (positions : ℕ → ℤ)
    (numActualTokens numReqs ring : ℕ) : List ℤ :=
  if numReqs = 0 then slotIn
  else (List.range slotIn.length).map
    (tailSlotKernel slotIn blockTable qsl positions numActualTokens numReqs ring)

/-- `compute_kpool_tail_slot_mapping_reference`, the same with tensor operations. -/
def tailSlotReference (slotIn : List ℤ) (blockTable : ℕ → ℕ) (qsl : List ℕ) (positions : ℕ → ℤ)
    (numActualTokens numReqs kpool : ℕ) : List ℤ :=
  if slotIn.length = 0 ∨ numReqs = 0 then slotIn
  else
    let starts := qsl.take (numReqs + 1)
    (List.range slotIn.length).map fun token =>
      let found : ℤ := searchsortedRight starts token - 1
      let req := (min (max found 0) (numReqs - 1)).toNat
      if starts.getD 0 0 ≤ token ∧ token < starts.getD numReqs 0 ∧ token < numActualTokens ∧
          0 ≤ slotIn.getD token (-1) then
        blockTable req * kpool + positions token % kpool
      else slotIn.getD token (-1)

end Mapping

section Grouping

variable {α : Type u}

/-- `_build_decode_scatter_indices`: request and index within the request of every token. -/
def buildDecodeScatterIndices (decodeLens : List ℕ) : List (ℕ × ℕ) :=
  let reqId := decodeLens.zipIdx.flatMap fun entry => List.replicate entry.1 entry.2
  let reqStarts := (List.range decodeLens.length).map fun req => (decodeLens.take req).sum
  let starts := (reqStarts.zip decodeLens).flatMap fun entry => List.replicate entry.2 entry.1
  (reqId.zip starts).zipIdx.map fun entry => (entry.1.1, entry.2 - entry.1.2)

/-- `_scatter_decode_tokens_by_request`: the tokens of a request in its row, pads behind. -/
def scatterDecodeTokensByRequest (tokens : List α) (pad : α) (indices : List (ℕ × ℕ)) : ℕ → ℕ → α :=
  (indices.zip tokens).foldl
    (fun out (at', token) => Function.update out at'.1 (Function.update (out at'.1) at'.2 token))
    fun _ _ => pad

/-- The grid of a batch whose requests bring equally many tokens: `view`. -/
def viewTokens (tokens : List α) (pad : α) (nextN : ℕ) : ℕ → ℕ → α :=
  fun req t => tokens.getD (req * nextN + t) pad

/-- The decode tokens by request, as the write path groups them. -/
def groupTokens (tokens : List α) (pad : α) (decodeLens : List ℕ) : ℕ → ℕ → α :=
  let maxLen := decodeLens.max?.getD 0
  let minLen := decodeLens.min?.getD 0
  if minLen = maxLen ∧ tokens.length = decodeLens.length * maxLen then
    viewTokens tokens pad (tokens.length / decodeLens.length)
  else scatterDecodeTokensByRequest tokens pad (buildDecodeScatterIndices decodeLens)

/-- `_decode_topk_seq_lens`: tokens up to and including its own for every row of the grid. -/
def decodeTopkSeqLens (positions : List ℤ) (decodeLens : List ℕ) (numDecodeTokens batchSize nextN : ℕ)
    (requiresPadding : Bool) : List ℤ :=
  if requiresPadding then
    let padded := scatterDecodeTokensByRequest (positions.take numDecodeTokens) (-1)
      (buildDecodeScatterIndices decodeLens)
    (List.range batchSize).flatMap fun b => (List.range nextN).map fun t => padded b t + 1
  else (positions.take (batchSize * nextN)).map (· + 1)

end Grouping

section Kernels

/-- A slot of a request's tail block, and a pool's entry in the K cache. -/
inductive Cell
  | tail (block phys : ℕ)
  | pool (loc : ℕ)
  deriving DecidableEq, Repr

variable {V : Type}

/-- A program of a launch. -/
abbrev Kernel (V α : Type) := Program Cell V α

/-- Store one word. -/
def put (target : Cell) (value : V) : Kernel V Unit :=
  .store (fun cell => if cell = target then some value else none) (pure ())

/-- One row of `_kpool_softmax_rotate_write_cache_kernel` as `_kpool_compress_insert` launches it:
every token could end a pool, those without a slot are masked off. -/
def insertProgram [Inhabited V] (compress : List V → V) (kpool : ℕ) (entries : List V)
    (slots : List ℤ) (pos : ℕ) : Kernel V Unit :=
  let slot := slots.getD pos (-1)
  if 0 ≤ slot ∧ kpool - 1 ≤ pos then
    put (.pool slot.toNat) (compress
      ((List.range kpool).map fun off => entries.getD (pos - (kpool - 1) + off) default))
  else pure ()

/-- `_kpool_compress_insert`; a batch smaller than a pool launches nothing. -/
def compressInsert [Inhabited V] (compress : List V → V) (kpool : ℕ) (entries : List V)
    (slots : List ℤ) (pos : Fin slots.length) : Kernel V Unit :=
  if slots.length < kpool then pure () else insertProgram compress kpool entries slots pos

/-- `_kpool_tail_seed_kernel`: a token is among its request's last ones unless the token `kpool`
ahead goes to the same block. -/
def tailSeed [Inhabited V] (kpool ring : ℕ) (entries : List V) (tslots : List ℤ)
    (i : Fin tslots.length) : Kernel V Unit :=
  let t := tslots.getD i (-1)
  if t < 0 then pure ()
  else
    let blk := t / ring
    let ahead := if i + kpool < tslots.length then tslots.getD (i + kpool) (-1) else -1
    if 0 ≤ ahead ∧ ahead / ring = blk then pure ()
    else put (.tail blk.toNat (t % ring).toNat) (entries.getD i default)

/-- What the decode kernel reads of a token. -/
structure Token (V : Type) where
  tailSlot : ℤ
  entry : V
  slot : ℤ
  pos : ℤ

/-- One turn of `_kpool_decode_update_batched_kernel`: the completion read first, the stash
second. -/
def decodeTurn (compress : List V → V) (kpool ring : ℕ) (token : Token V) : Kernel V Unit := do
  let safePos := (max token.pos 0).toNat
  let slot := safePos % kpool
  let block := ((max token.tailSlot 0) / ring).toNat
  if 0 ≤ token.slot ∧ 0 ≤ token.pos ∧ slot = kpool - 1 then
    let start := safePos - slot
    .load (fun cell => (List.range kpool).any fun i => cell = .tail block ((start + i) % ring))
      fun memory => put (.pool token.slot.toNat) (compress ((List.range kpool).map fun i =>
        if i = slot then token.entry else memory (.tail block ((start + i) % ring))))
  if 0 ≤ token.pos ∧ 0 ≤ token.tailSlot then
    put (.tail block (safePos % ring)) token.entry

/-- A program of `_kpool_decode_update_batched_kernel`: the tokens of a request in order. -/
def decodeTurns (compress : List V → V) (kpool ring : ℕ) : List (Token V) → Kernel V Unit
  | [] => pure ()
  | token :: rest => do
    decodeTurn compress kpool ring token
    decodeTurns compress kpool ring rest

end Kernels

end GlmSpark.KpoolTail
