import Mathlib.Logic.Function.Basic
import GlmSpark.Continuation
import GlmSpark.ContextTier
import GlmSpark.Runs
import Mathlib.Algebra.Ring.Nat
import Mathlib.Algebra.Ring.Int.Defs

/-!
# The per-request context index

`ContextIndex` of `glm_lookup_draft.py` indexes a growing token list. Every
position from `n` to the last one is stored under the 64-bit key of the `n`
tokens before it: in a dictionary for single pushes, frozen into tiers at a
limit, or in a tier at once for long chunks. Tiers are merged geometrically.

The index is an explicit state; tiers are listed newest first, in the order the
source scans them. What the index answers is stated over the token list alone.
-/

namespace GlmSpark.LookupIndex

open Continuation LatestTable ContextTier

/-- 64-bit keys. -/
abbrev Key := Fin (2 ^ 64)

/-- `_P`, the multiplier of the rolling key. -/
def multiplier : ℤ := 0x9E3779B97F4A7C15

/-- `x & _M64`, and the conversion of an `int32` to `uint64`. -/
def mask64 (value : ℤ) : Key := Fin.ofNat (2 ^ 64) (value % 2 ^ 64).toNat

/-- One step of the scalar key: `h = (h * _P + int(t) + 1) & _M64`. -/
def fold (h : Key) (t : ℤ) : Key := mask64 (h.val * multiplier + t + 1)

/-- `gram_key`: the key of a gram, folded from its last token back to its first. -/
def gramKey (gram : List ℤ) : Key := gram.reverse.foldl fold 0

/-- One step of the `uint64` key of a bulk load. -/
def foldBulk (h : Key) (t : ℤ) : Key := h * mask64 multiplier + (mask64 t + 1)

/-- What an index is built with; `ns` is already sorted and without repetitions. -/
structure Settings where
  ns : List ℕ
  increasing : ns.Pairwise (· < ·)
  nonempty : ns ≠ []
  positive : ∀ n ∈ ns, 1 ≤ n
  hotLimit : ℤ
  bulkMin : ℤ
  numpy : Bool

/-- `self.nmax`. -/
def Settings.nmax (settings : Settings) : ℕ := settings.ns.getLast settings.nonempty

/-- `ContextIndex`: the tokens, the hot dictionary of each gram length and its frozen tiers, newest
first. -/
structure ContextIndex where
  tokens : List ℤ
  hot : ℕ → List (Key × ℕ)
  hotCount : ℕ
  tiers : ℕ → List (Tier Key)

/-- `reset`. -/
def ContextIndex.empty : ContextIndex := ⟨[], fun _ => [], 0, fun _ => []⟩

/-- `_push_tier`'s loop: the newest tier takes in older ones at most twice its size. -/
def mergeTiers (numpy : Bool) (newest : Tier Key) : List (Tier Key) → List (Tier Key)
  | [] => [newest]
  | older :: rest =>
    if older.pairs.length ≤ 2 * newest.pairs.length then
      mergeTiers numpy (older.merged numpy newest) rest
    else newest :: older :: rest

/-- `_push_tier`: the newest tier, merged with older ones while they are not much larger. -/
def pushTier (numpy : Bool) (tiers : ℕ → List (Tier Key)) (n : ℕ) (tier : Tier Key) :
    ℕ → List (Tier Key) :=
  Function.update tiers n (mergeTiers numpy tier (tiers n))

/-- `_freeze` for one `n`. -/
def freezeLevel (numpy : Bool) (index : ContextIndex) (n : ℕ) : ContextIndex :=
  if index.hot n ≠ [] then
    { index with
      tiers := pushTier numpy index.tiers n (Tier.fromDict numpy (index.hot n))
      hot := Function.update index.hot n [] }
  else index

/-- `_freeze`: the hot dictionaries of all gram lengths become tiers. -/
def freeze (settings : Settings) (index : ContextIndex) : ContextIndex :=
  { settings.ns.foldl (freezeLevel settings.numpy) index with hotCount := 0 }

/-- The loop of `_push` over `d`, with what is left of it. -/
def pushLoop (ns : List ℕ) (tokens : List ℤ) (i : ℕ) :
    ℕ → ℕ → Key → (ℕ → List (Key × ℕ)) → ℕ → List (Key × ℕ)
  | 0, _, _, hot => hot
  | left + 1, d, h, hot =>
    -- `j = i - d`, the loop ends at the first negative one
    if i < d then hot
    else
      let h := fold h (tokens.getD (i - d) 0)
      pushLoop ns tokens i left (d + 1) h
        (if d ∈ ns then Function.update hot d (Dict.assign h i (hot d)) else hot)

/-- `_push`: one token, and the grams that end at it. -/
def push (settings : Settings) (index : ContextIndex) (t : ℤ) : ContextIndex :=
  let i := index.tokens.length
  let tokens := index.tokens ++ [t]
  let index := { index with
    tokens := tokens
    hot := pushLoop settings.ns tokens i settings.nmax 1 0 index.hot
    hotCount := index.hotCount + 1 }
  if settings.hotLimit ≤ index.hotCount then freeze settings index else index

/-- `h = h * p + t` for every end; a negative `ends - d` reads token 0. -/
def bulkKeys (tokens : List ℤ) (ends : List ℕ) (d : ℕ) (h : List Key) : List Key :=
  List.zipWith (fun h stop => foldBulk h (tokens.getD (stop - d) 0)) h ends

/-- `h[keep], ends[keep]` with `keep = ends - d >= 0`. -/
def keepEnds (ends : List ℕ) (d : ℕ) (h : List Key) : List (Key × ℕ) :=
  (h.zip ends).filter fun pair => d ≤ pair.2

/-- The loop of `_bulk` over `d`, with what is left of it. -/
def bulkLoop (settings : Settings) (tokens : List ℤ) (ends : List ℕ) :
    ℕ → ℕ → List Key → (ℕ → List (Tier Key)) → ℕ → List (Tier Key)
  | 0, _, _, tiers => tiers
  | left + 1, d, h, tiers =>
    let h := bulkKeys tokens ends d h
    bulkLoop settings tokens ends left (d + 1) h
      (if d ∈ settings.ns ∧ keepEnds ends d h ≠ [] then
        pushTier settings.numpy tiers d (Tier.fromPairs settings.numpy (keepEnds ends d h))
      else tiers)

/-- `_bulk`: many tokens at once, sorted into tiers without a hot dictionary. -/
def bulk (settings : Settings) (index : ContextIndex) (new : List ℤ) : ContextIndex :=
  let tokens := index.tokens ++ new
  let ends := List.range' index.tokens.length new.length
  { index with
    tokens := tokens
    tiers := bulkLoop settings tokens ends settings.nmax 1 (ends.map fun _ => 0) index.tiers }

/-- `extend`: token by token, or in bulk where there are many. -/
def extend (settings : Settings) (index : ContextIndex) (new : List ℤ) : ContextIndex :=
  if new = [] then index
  else if settings.numpy ∧ settings.bulkMin ≤ new.length then
    bulk settings (freeze settings index) new
  else new.foldl (push settings) index

/-- Whether `sync` starts over: the list is shorter or differs at a probe position. -/
def rewritten (index : ContextIndex) (src : List ℤ) : Prop :=
  let n := index.tokens.length
  src.length < n ∨ 0 < n ∧ (src[n - 1]? ≠ index.tokens[n - 1]? ∨ src[0]? ≠ index.tokens[0]? ∨
    src[n / 2]? ≠ index.tokens[n / 2]?)

/-- Whether `sync` starts over is decided by the length and the three probes. -/
instance (index : ContextIndex) (src : List ℤ) : Decidable (rewritten index src) := by
  unfold rewritten; infer_instance

/-- What `sync` goes on with: a new index for another history. -/
def startOver (index : ContextIndex) (src : List ℤ) : ContextIndex :=
  if rewritten index src then ContextIndex.empty else index

/-- `sync`: the index, whether it caught up, and the number of tokens added. -/
def sync (settings : Settings) (index : ContextIndex) (src : List ℤ) (budget : ℤ) :
    ContextIndex × Bool × ℕ :=
  let index := startOver index src
  let n := index.tokens.length
  let take := min (src.length - n) budget.toNat
  let index := if 0 < take then extend settings index ((src.drop n).take take) else index
  (index, index.tokens.length = src.length, take)

/-- `get`: the latest position of a key, in the hot dictionary or the first tier that has it. -/
def ContextIndex.get (index : ContextIndex) (n : ℕ) (key : Key) : Option ℕ :=
  match (index.hot n).lookup key with
  | some stop => some stop
  | none => (index.tiers n).findSome? fun tier => tier.get key

/-- `toks[e - n:e]`. -/
def window (tokens : List ℤ) (stop n : ℕ) : List ℤ := (tokens.drop (stop - n)).take n

/-- `Match`: a source position, the gram length it was found by, how far it agrees back and how much
is there to copy. -/
structure Match where
  src : ℕ
  n : ℕ
  agree : ℕ
  avail : ℕ
  length : ℕ
  deriving DecidableEq, Repr

/-- The `agree` loop; `left` is how often it can still go on. -/
def agreeLoop (tokens : List ℤ) (stop maxAgree : ℕ) : ℕ → ℕ → ℕ
  | 0, agree => agree
  | left + 1, agree =>
    if agree < maxAgree ∧ agree + 1 ≤ stop ∧
        tokens.getD (stop - 1 - agree) 0 = tokens.getD (tokens.length - 1 - agree) 0 then
      agreeLoop tokens stop maxAgree left (agree + 1)
    else agree

/-- `match` at one `n`: the latest earlier occurrence of the last `n` tokens, checked token by
token. -/
def ContextIndex.matchAt (settings : Settings) (index : ContextIndex) (maxAgree n : ℕ) :
    Option Match :=
  let length := index.tokens.length
  if n ∉ settings.ns ∨ length < n + 1 then none
  else
    match index.get n (gramKey (window index.tokens length n)) with
    | none => none
    | some stop =>
      if length ≤ stop then none
      else if window index.tokens stop n ≠ window index.tokens length n then none
      else some ⟨stop, n, agreeLoop index.tokens stop maxAgree stop n, length - stop, length⟩

/-- `match`: from the largest `n` down to `n_min`. -/
def ContextIndex.match (settings : Settings) (index : ContextIndex) (nMin nMax maxAgree : ℕ) :
    Option Match :=
  (List.range' nMin (min nMax settings.nmax + 1 - nMin)).reverse.findSome?
    (index.matchAt settings maxAgree)

end GlmSpark.LookupIndex
