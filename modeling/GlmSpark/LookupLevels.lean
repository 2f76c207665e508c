import Mathlib.Data.List.Sort
import GlmSpark.LookupIndex

/-!
# What the context index stores

For every configured `n` the dictionary and the tiers hold, interval by interval,
the latest end of every key below the end of the token list. Single pushes,
freezes, bulk loads and merges keep that, whatever tokens follow.
-/

namespace GlmSpark.LookupLevels

open LatestTable ContextTier LookupIndex

/-- The `n` tokens before a position have the key. -/
def Occurs (tokens : List ℤ) (n : ℕ) (key : Key) (stop : ℕ) : Prop :=
  n ≤ stop ∧ gramKey (window tokens stop n) = key

section Keys

/-- A masked value is the residue of the integer, also of a negative one. -/
theorem mask64_val (value : ℤ) : ((mask64 value).val : ℤ) = value % 2 ^ 64 := by
  simp only [mask64, Fin.ofNat]
  omega

/-- The `uint64` step computes the scalar step. -/
theorem foldBulk_eq_fold (h : Key) (t : ℤ) : foldBulk h t = fold h t := by
  apply Fin.ext
  have factor : (mask64 multiplier).val = 11400714819323198485 := rfl
  have one : ((1 : Key) : ℕ) = 1 := rfl
  have sum := mask64_val (h.val * multiplier + t + 1)
  have token := mask64_val t
  rw [foldBulk, Fin.val_add, Fin.val_mul, Fin.val_add, factor, one, fold]
  simp only [multiplier] at sum ⊢
  omega

/-- The key of a gram that begins one token further back is one more step of the fold. -/
theorem gramKey_cons (t : ℤ) (gram : List ℤ) : gramKey (t :: gram) = fold (gramKey gram) t := by
  simp [gramKey]

/-- The window one longer starts one token earlier. -/
theorem window_succ (tokens : List ℤ) (stop n : ℕ) (inside : n + 1 ≤ stop)
    (stored : stop ≤ tokens.length) :
    window tokens stop (n + 1) = tokens.getD (stop - (n + 1)) 0 :: window tokens stop n := by
  have start : stop - (n + 1) < tokens.length := by omega
  rw [window, List.drop_eq_getElem_cons start, List.take_succ_cons, window]
  have next : stop - (n + 1) + 1 = stop - n := by omega
  rw [next, List.getD_eq_getElem?_getD, List.getElem?_eq_getElem start, Option.getD_some]

/-- Tokens after a position do not matter to the window before it. -/
theorem window_append (tokens more : List ℤ) (stop n : ℕ) (inside : n ≤ stop)
    (stored : stop ≤ tokens.length) : window (tokens ++ more) stop n = window tokens stop n := by
  have room : n ≤ (tokens.drop (stop - n)).length := by
    rw [List.length_drop]
    omega
  rw [window, List.drop_append_of_le_length (by omega), List.take_append_of_le_length room, window]

/-- Later tokens do not change where a key occurs. -/
theorem occurs_append (tokens more : List ℤ) (n : ℕ) (key : Key) (stop : ℕ)
    (stored : stop ≤ tokens.length) :
    Occurs tokens n key stop ↔ Occurs (tokens ++ more) n key stop := by
  constructor
  · rintro ⟨inside, same⟩
    exact ⟨inside, by rwa [window_append tokens more stop n inside stored]⟩
  · rintro ⟨inside, same⟩
    exact ⟨inside, by rwa [window_append tokens more stop n inside stored] at same⟩

end Keys

section Level

/-- What is stored for one `n` below a position: the dictionary from where the tiers end, and the
tiers before. -/
def Level (occurs : Key → ℕ → Prop) (high : ℕ) (hot : List (Key × ℕ)) (tiers : List (Tier Key)) :
    Prop :=
  (hot.map Prod.fst).Nodup ∧ ∃ start, start ≤ high ∧ Represents occurs start high hot ∧
    Stack occurs (tiers.map Tier.pairs) start

variable {occurs : Key → ℕ → Prop} {low high : ℕ} {hot : List (Key × ℕ)} {tiers : List (Tier Key)}

/-- Merging two tiers into one keeps the layers: newer positions still shadow older ones. -/
theorem mergeTiers_stack (numpy : Bool) (newest : Tier Key) (inside : low ≤ high)
    (table : Represents occurs low high newest.pairs)
    (older : Stack occurs (tiers.map Tier.pairs) low) :
    Stack occurs ((mergeTiers numpy newest tiers).map Tier.pairs) high := by
  induction tiers generalizing newest low with
  | nil => exact ⟨low, inside, table, older⟩
  | cons next rest ih =>
    rw [mergeTiers]
    split
    next =>
      obtain ⟨start, before, earlier, further⟩ := older
      have both := (earlier.append table before inside).reduce (fromPairs_reduces numpy _)
      exact ih (next.merged numpy newest) (before.trans inside) both further
    next => exact ⟨low, inside, table, older⟩

/-- An empty dictionary leaves everything to the tiers. -/
theorem Level.tiers_only (level : Level occurs high [] tiers) :
    Stack occurs (tiers.map Tier.pairs) high := by
  obtain ⟨_, start, before, table, stack⟩ := level
  refine stack.widen before fun key position after below there => ?_
  obtain ⟨_, _, listed⟩ := table.latest key position after below there
  exact nomatch listed

/-- A level whose pending part is empty is its tiers. -/
theorem Level.of_tiers (stack : Stack occurs (tiers.map Tier.pairs) high) :
    Level occurs high [] tiers := by
  have nothing : Represents occurs high high [] :=
    ⟨fun _ _ listed => (nomatch listed), fun _ _ after below => absurd below (Nat.not_lt.mpr after)⟩
  exact ⟨List.nodup_nil, high, Nat.le_refl high, nothing, stack⟩

/-- Freezing moves the dictionary into a tier. -/
theorem Level.freeze (numpy : Bool) (level : Level occurs high hot tiers) :
    Level occurs high []
      (if hot ≠ [] then mergeTiers numpy (Tier.fromDict numpy hot) tiers else tiers) := by
  split
  next =>
    obtain ⟨_, start, before, table, stack⟩ := level
    exact Level.of_tiers (mergeTiers_stack numpy _ before
      (table.reduce (fromPairs_reduces numpy hot)) stack)
  next none =>
    obtain rfl : hot = [] := of_not_not none
    exact level

/-- A position is stored under the one key that occurs there. -/
theorem Level.assign (level : Level occurs high hot tiers) (name : Key)
    (only : ∀ key, occurs key high ↔ key = name) :
    Level occurs (high + 1) (Dict.assign name high hot) tiers := by
  obtain ⟨distinct, start, before, table, stack⟩ := level
  have kept := Dict.nodup_assign name high hot distinct
  have stored : ∀ key position, (key, position) ∈ Dict.assign name high hot ↔
      if key = name then position = high else (key, position) ∈ hot := by
    intro key position
    rw [← Dict.lookup_eq_some_iff _ kept, Dict.lookup_assign]
    split
    · rw [Option.some.injEq, eq_comm]
    · exact Dict.lookup_eq_some_iff _ distinct key position
  refine ⟨kept, start, before.trans (Nat.le_succ high), ⟨?_, ?_⟩, stack⟩
  · intro key position listed
    rw [stored] at listed
    split at listed
    next same =>
      subst listed
      exact ⟨before, Nat.lt_succ_self _, (only key).mpr same⟩
    next =>
      obtain ⟨above, below, there⟩ := table.sound key position listed
      exact ⟨above, below.trans (Nat.lt_succ_self _), there⟩
  · intro key position above below there
    by_cases same : key = name
    · exact ⟨high, Nat.lt_succ_iff.mp below, by rw [stored, if_pos same]⟩
    · have earlier : position < high := by
        refine lt_of_le_of_ne (Nat.lt_succ_iff.mp below) fun here => same ?_
        exact (only key).mp (here ▸ there)
      obtain ⟨later, after, listed⟩ := table.latest key position above earlier there
      exact ⟨later, after, by rwa [stored, if_neg same]⟩

/-- A position where nothing occurs is passed. -/
theorem Level.skip (level : Level occurs high hot tiers) (quiet : ∀ key, ¬ occurs key high) :
    Level occurs (high + 1) hot tiers := by
  obtain ⟨distinct, start, before, table, stack⟩ := level
  refine ⟨distinct, start, before.trans (Nat.le_succ high), ?_, stack⟩
  refine table.widen (Nat.le_succ high) fun key position after below => ?_
  obtain rfl : position = high := Nat.le_antisymm (Nat.lt_succ_iff.mp below) after
  exact quiet key

/-- A chunk with all its occurrences becomes a tier. -/
theorem Level.chunk (numpy : Bool) (level : Level occurs low [] tiers) (inside : low ≤ high)
    {pairs : List (Key × ℕ)} (table : Represents occurs low high pairs) :
    Level occurs high []
      (if pairs ≠ [] then mergeTiers numpy (Tier.fromPairs numpy pairs) tiers else tiers) := by
  have stack := level.tiers_only
  apply Level.of_tiers
  split
  next => exact mergeTiers_stack numpy _ inside (table.reduce (fromPairs_reduces numpy pairs)) stack
  next none =>
    obtain rfl : pairs = [] := of_not_not none
    refine stack.widen inside fun key position after below there => ?_
    obtain ⟨_, _, listed⟩ := table.latest key position after below there
    exact nomatch listed

/-- Positions past what is stored do not matter. -/
theorem Level.congr {also : Key → ℕ → Prop} (level : Level occurs high hot tiers)
    (same : ∀ key position, position < high → (occurs key position ↔ also key position)) :
    Level also high hot tiers := by
  obtain ⟨distinct, start, before, table, stack⟩ := level
  refine ⟨distinct, start, before, table.congr same, stack.congr ?_⟩
  exact fun key position below => same key position (below.trans_le before)

/-- The dictionary answers before the tiers, and the newest tier before older ones. -/
theorem Level.answer (level : Level occurs high hot tiers) (key : Key) :
    IsLatest (fun position => position < high ∧ occurs key position)
      ((hot.lookup key).or (tiers.findSome? fun tier => tier.get key)) := by
  obtain ⟨distinct, start, before, table, stack⟩ := level
  have newer := table.answer (Dict.lookup_eq_some_iff hot distinct key)
  have tiered := stack.answer key (fun tier => tier.get key) fun tier _ => get_eq_some_iff tier key
  have both := newer.or tiered fun earlier later before after => by omega
  refine both.congr fun position => ?_
  constructor
  · rintro (⟨_, below, there⟩ | ⟨below, there⟩)
    · exact ⟨below, there⟩
    · exact ⟨below.trans_le before, there⟩
  · rintro ⟨below, there⟩
    rcases Nat.lt_or_ge position start with early | late
    · exact Or.inr ⟨early, there⟩
    · exact Or.inl ⟨late, below, there⟩

end Level

section Freeze

/-- Freezing one `n` keeps every level and empties its own dictionary. -/
theorem freezeLevel_level (numpy : Bool) (index : ContextIndex) (m n : ℕ) {occurs : Key → ℕ → Prop}
    {high : ℕ} (level : Level occurs high (index.hot n) (index.tiers n)) :
    Level occurs high ((freezeLevel numpy index m).hot n) ((freezeLevel numpy index m).tiers n) ∧
      (m = n ∨ index.hot n = [] → (freezeLevel numpy index m).hot n = []) := by
  rw [freezeLevel]
  by_cases same : n = m
  · subst same
    have frozen := level.freeze numpy
    split
    next filled =>
      rw [if_pos filled] at frozen
      simpa [pushTier] using frozen
    next none => exact ⟨level, fun _ => of_not_not none⟩
  · have other : m ≠ n := fun equal => same equal.symm
    split <;> simpa [pushTier, same, other] using level

/-- Freezing a level moves pairs into a tier and keeps the tokens. -/
theorem freezeLevel_tokens (numpy : Bool) (index : ContextIndex) (m : ℕ) :
    (freezeLevel numpy index m).tokens = index.tokens := by
  rw [freezeLevel]
  split <;> rfl

/-- `_freeze` keeps the tokens and every level, and empties the dictionaries. -/
theorem freeze_spec (settings : Settings) (index : ContextIndex) :
    (freeze settings index).tokens = index.tokens ∧ ∀ n, ∀ {occurs : Key → ℕ → Prop} {high : ℕ},
      Level occurs high (index.hot n) (index.tiers n) →
        Level occurs high ((freeze settings index).hot n) ((freeze settings index).tiers n) ∧
          (n ∈ settings.ns → (freeze settings index).hot n = []) := by
  suffices general : ∀ (ms : List ℕ) (index : ContextIndex),
      (ms.foldl (freezeLevel settings.numpy) index).tokens = index.tokens ∧
      ∀ n, ∀ {occurs : Key → ℕ → Prop} {high : ℕ},
        Level occurs high (index.hot n) (index.tiers n) →
          Level occurs high ((ms.foldl (freezeLevel settings.numpy) index).hot n)
            ((ms.foldl (freezeLevel settings.numpy) index).tiers n) ∧
            (n ∈ ms ∨ index.hot n = [] →
              (ms.foldl (freezeLevel settings.numpy) index).hot n = []) by
    obtain ⟨tokens, levels⟩ := general settings.ns index
    refine ⟨tokens, fun n _ _ level => ?_⟩
    obtain ⟨kept, emptied⟩ := levels n level
    exact ⟨kept, fun configured => emptied (Or.inl configured)⟩
  intro ms
  induction ms with
  | nil => exact fun index => ⟨rfl, fun n _ _ level => ⟨level, fun or => or.resolve_left (by simp)⟩⟩
  | cons m ms ih =>
    intro index
    obtain ⟨tokens, levels⟩ := ih (freezeLevel settings.numpy index m)
    refine ⟨tokens.trans (freezeLevel_tokens settings.numpy index m), fun n _ _ level => ?_⟩
    obtain ⟨first, emptied⟩ := freezeLevel_level settings.numpy index m n level
    obtain ⟨later, finally_⟩ := levels n first
    refine ⟨later, fun or => finally_ ?_⟩
    rcases or with listed | none
    · rcases List.mem_cons.mp listed with rfl | further
      · exact Or.inr (emptied (Or.inl rfl))
      · exact Or.inl further
    · exact Or.inr (emptied (Or.inr none))

end Freeze

section Index

variable (settings : Settings)

/-- No configured gram length is beyond `nmax`, the window the source looks back. -/
theorem le_nmax {n : ℕ} (configured : n ∈ settings.ns) : n ≤ settings.nmax := by
  have increasing := settings.increasing
  rw [← List.dropLast_append_getLast settings.nonempty] at increasing configured
  rcases List.mem_append.mp configured with before | last
  · exact ((List.pairwise_append.mp increasing).2.2 n before _ List.mem_cons_self).le
  · exact (List.mem_singleton.mp last).le

/-- Every configured `n` has its level over all tokens. -/
def Indexed (index : ContextIndex) : Prop :=
  ∀ n ∈ settings.ns,
    Level (Occurs index.tokens n) index.tokens.length (index.hot n) (index.tiers n)

/-- What the loop of `_push` stores for one `n`; `d` tokens are folded so far. -/
theorem pushLoop_hot (ns : List ℕ) (tokens : List ℤ) (i left d : ℕ)
    (hot : ℕ → List (Key × ℕ)) (n : ℕ) (stored : i ≤ tokens.length) :
    pushLoop ns tokens i left (d + 1) (gramKey (window tokens i d)) hot n =
      if n ∈ ns ∧ d < n ∧ n ≤ d + left ∧ n ≤ i then
        Dict.assign (gramKey (window tokens i n)) i (hot n)
      else hot n := by
  induction left generalizing d hot with
  | zero => rw [pushLoop, if_neg (by omega)]
  | succ left ih =>
    rw [pushLoop]
    split
    next before => rw [if_neg (by omega)]
    next inside =>
      rw [← gramKey_cons, ← window_succ tokens i d (by omega) stored]
      dsimp only
      rw [ih (d + 1)]
      by_cases here : n = d + 1
      · subst here
        by_cases configured : d + 1 ∈ ns
        · have reached : d + 1 ≤ d + (left + 1) ∧ d + 1 ≤ i := by omega
          simp [configured, reached]
        · simp [configured]
      · have apart : (if d + 1 ∈ ns then Function.update hot (d + 1) (Dict.assign
            (gramKey (window tokens i (d + 1))) i (hot (d + 1))) else hot) n = hot n := by
          split
          · exact Function.update_of_ne here _ _
          · rfl
        have range : (n ∈ ns ∧ d + 1 < n ∧ n ≤ d + 1 + left ∧ n ≤ i) ↔
            (n ∈ ns ∧ d < n ∧ n ≤ d + (left + 1) ∧ n ≤ i) :=
          and_congr_right fun _ => by omega
        rw [apart, if_congr range rfl rfl]

/-- One more token keeps the index right: the grams that end at it are added, and no other key
changes. -/
theorem push_indexed (index : ContextIndex) (t : ℤ) (indexed : Indexed settings index) :
    Indexed settings (push settings index t) ∧
      (push settings index t).tokens = index.tokens ++ [t] := by
  have pushed : Indexed settings
      { index with
        tokens := index.tokens ++ [t]
        hot := pushLoop settings.ns (index.tokens ++ [t]) index.tokens.length settings.nmax 1 0
          index.hot
        hotCount := index.hotCount + 1 } := by
    intro n configured
    have positive := settings.positive n configured
    have bound := le_nmax settings configured
    have level := (indexed n configured).congr fun key position below =>
      occurs_append index.tokens [t] n key position below.le
    have length : (index.tokens ++ [t]).length = index.tokens.length + 1 := by simp
    have start : (0 : Key) = gramKey (window (index.tokens ++ [t]) index.tokens.length 0) := by
      rw [window, List.take_zero]
      rfl
    dsimp only
    rw [length, start, pushLoop_hot _ _ _ _ 0 _ n (by omega)]
    by_cases inside : n ≤ index.tokens.length
    · rw [if_pos ⟨configured, by omega, by omega, inside⟩]
      apply level.assign
      exact fun key => ⟨fun there => there.2.symm, fun same => ⟨inside, same.symm⟩⟩
    · rw [if_neg (by omega)]
      exact level.skip fun key there => inside there.1
  rw [push]
  dsimp only
  split
  · obtain ⟨tokens, levels⟩ := freeze_spec settings
      { index with
        tokens := index.tokens ++ [t]
        hot := pushLoop settings.ns (index.tokens ++ [t]) index.tokens.length settings.nmax 1 0
          index.hot
        hotCount := index.hotCount + 1 }
    refine ⟨fun n configured => ?_, tokens⟩
    rw [tokens]
    exact (levels n (pushed n configured)).1
  · exact ⟨pushed, rfl⟩

/-- All ends with `n` tokens before them, under their keys. -/
def endsOf (tokens : List ℤ) (ends : List ℕ) (n : ℕ) : List (Key × ℕ) :=
  (ends.filter fun stop => n ≤ stop).map fun stop => (gramKey (window tokens stop n), stop)

/-- The kept keys of a bulk step are those of the ends with enough tokens. -/
theorem keepEnds_eq (tokens : List ℤ) (ends : List ℕ) (n : ℕ) (key : ℕ → Key)
    (agrees : ∀ stop ∈ ends, n ≤ stop → key stop = gramKey (window tokens stop n)) :
    keepEnds ends n (ends.map key) = endsOf tokens ends n := by
  rw [keepEnds, endsOf]
  induction ends with
  | nil => rfl
  | cons stop ends ih =>
    have later := ih fun other listed => agrees other (List.mem_cons_of_mem _ listed)
    simp only [List.map_cons, List.zip_cons_cons, List.filter_cons]
    by_cases inside : n ≤ stop
    · simp [inside, later, agrees stop List.mem_cons_self inside]
    · simp [inside, later]

/-- A bulk step folds one more token into every key. -/
theorem bulkKeys_map (tokens : List ℤ) (ends : List ℕ) (d : ℕ) (key : ℕ → Key) :
    bulkKeys tokens ends d (ends.map key) =
      ends.map fun stop => foldBulk (key stop) (tokens.getD (stop - d) 0) := by
  rw [bulkKeys]
  induction ends with
  | nil => rfl
  | cons stop ends ih => rw [List.map_cons, List.zipWith_cons_cons, ih, List.map_cons]

/-- What the loop of `_bulk` pushes for one `n`; `d` tokens are folded so far. -/
theorem bulkLoop_tiers (tokens : List ℤ) (ends : List ℕ) (left d : ℕ) (key : ℕ → Key)
    (tiers : ℕ → List (Tier Key)) (n : ℕ) (stored : ∀ stop ∈ ends, stop ≤ tokens.length)
    (agrees : ∀ stop ∈ ends, d ≤ stop → key stop = gramKey (window tokens stop d)) :
    bulkLoop settings tokens ends left (d + 1) (ends.map key) tiers n =
      if n ∈ settings.ns ∧ d < n ∧ n ≤ d + left then
        if endsOf tokens ends n ≠ [] then
          mergeTiers settings.numpy (Tier.fromPairs settings.numpy (endsOf tokens ends n)) (tiers n)
        else tiers n
      else tiers n := by
  induction left generalizing d key tiers with
  | zero => rw [bulkLoop, if_neg (by omega)]
  | succ left ih =>
    have next : ∀ stop ∈ ends, d + 1 ≤ stop →
        foldBulk (key stop) (tokens.getD (stop - (d + 1)) 0) =
          gramKey (window tokens stop (d + 1)) := by
      intro stop listed inside
      rw [foldBulk_eq_fold, agrees stop listed (by omega),
        window_succ tokens stop d inside (stored stop listed), gramKey_cons]
    rw [bulkLoop, bulkKeys_map, ih (d + 1) _ _ next, keepEnds_eq tokens ends (d + 1) _ next]
    by_cases here : n = d + 1
    · subst here
      by_cases configured : d + 1 ∈ settings.ns
      · by_cases filled : endsOf tokens ends (d + 1) = []
        · simp [configured, filled]
        · simp [configured, filled, pushTier]
      · simp [configured]
    · have apart : (if d + 1 ∈ settings.ns ∧ endsOf tokens ends (d + 1) ≠ [] then
          pushTier settings.numpy tiers (d + 1)
            (Tier.fromPairs settings.numpy (endsOf tokens ends (d + 1))) else tiers) n =
          tiers n := by
        split
        · exact Function.update_of_ne here _ _
        · rfl
      have range : (n ∈ settings.ns ∧ d + 1 < n ∧ n ≤ d + 1 + left) ↔
          (n ∈ settings.ns ∧ d < n ∧ n ≤ d + (left + 1)) :=
        and_congr_right fun _ => by omega
      rw [apart, if_congr range rfl rfl]

/-- The ends of a chunk name all its occurrences. -/
theorem endsOf_represents (tokens : List ℤ) (low count n : ℕ) :
    Represents (Occurs tokens n) low (low + count) (endsOf tokens (List.range' low count) n) := by
  have listed : ∀ key stop, (key, stop) ∈ endsOf tokens (List.range' low count) n ↔
      low ≤ stop ∧ stop < low + count ∧ Occurs tokens n key stop := by
    intro key stop
    simp only [endsOf, List.mem_map, List.mem_filter, List.mem_range'_1, decide_eq_true_eq,
      Prod.mk.injEq, Occurs]
    constructor
    · rintro ⟨_, ⟨⟨above, below⟩, inside⟩, same, rfl⟩
      exact ⟨above, below, inside, same⟩
    · rintro ⟨above, below, inside, same⟩
      exact ⟨stop, ⟨⟨above, below⟩, inside⟩, same, rfl⟩
  constructor
  · exact fun key stop there => (listed key stop).mp there
  · exact fun key stop above below there =>
      ⟨stop, Nat.le_refl stop, (listed key stop).mpr ⟨above, below, there⟩⟩

/-- A chunk loaded at once is indexed. -/
theorem bulk_indexed (index : ContextIndex) (new : List ℤ) (indexed : Indexed settings index)
    (emptied : ∀ n ∈ settings.ns, index.hot n = []) :
    Indexed settings (bulk settings index new) := by
  intro n configured
  have bound := le_nmax settings configured
  have positive := settings.positive n configured
  have level := (indexed n configured).congr fun key position below =>
    occurs_append index.tokens new n key position below.le
  rw [emptied n configured] at level
  have length : (index.tokens ++ new).length = index.tokens.length + new.length := by simp
  have stored : ∀ stop ∈ List.range' index.tokens.length new.length,
      stop ≤ (index.tokens ++ new).length := by
    intro stop listed
    have below := (List.mem_range'_1.mp listed).2
    omega
  have chunk := level.chunk settings.numpy (Nat.le_add_right _ new.length)
    (endsOf_represents (index.tokens ++ new) index.tokens.length new.length n)
  rw [bulk]
  dsimp only
  rw [bulkLoop_tiers settings _ _ _ 0 (fun _ => 0) _ n stored fun stop _ _ => by
    rw [window, List.take_zero]; rfl]
  rw [if_pos ⟨configured, by omega, by omega⟩, emptied n configured, length]
  exact chunk

/-- `extend` appends the chunk and indexes it, on every path. -/
theorem extend_indexed (index : ContextIndex) (new : List ℤ) (indexed : Indexed settings index) :
    Indexed settings (extend settings index new) ∧
      (extend settings index new).tokens = index.tokens ++ new := by
  rw [extend]
  split
  next none => exact ⟨indexed, by rw [none, List.append_nil]⟩
  split
  next =>
    obtain ⟨tokens, levels⟩ := freeze_spec settings index
    have frozen : Indexed settings (freeze settings index) := fun n configured => by
      rw [tokens]
      exact (levels n (indexed n configured)).1
    refine ⟨bulk_indexed settings _ new frozen fun n configured => ?_, by rw [bulk, tokens]⟩
    exact (levels n (indexed n configured)).2 configured
  next =>
    clear * - indexed
    induction new generalizing index with
    | nil => exact ⟨indexed, (List.append_nil _).symm⟩
    | cons t new ih =>
      obtain ⟨pushed, tokens⟩ := push_indexed settings index t indexed
      obtain ⟨later, appended⟩ := ih (push settings index t) pushed
      exact ⟨later, by rw [List.foldl_cons, appended, tokens, List.append_assoc,
        List.singleton_append]⟩

/-- The index of no tokens is right, as no gram occurs. -/
theorem empty_indexed : Indexed settings ContextIndex.empty := by
  intro n configured
  exact Level.of_tiers fun key position below => absurd below (Nat.not_lt_zero position)

/-- What `sync` goes on with is indexed. -/
theorem startOver_indexed (index : ContextIndex) (src : List ℤ)
    (indexed : Indexed settings index) : Indexed settings (startOver index src) := by
  rw [startOver]
  split
  · exact empty_indexed settings
  · exact indexed

/-- `sync` appends the next committed tokens as far as the budget allows, and says whether nothing
is left. -/
theorem sync_spec (index : ContextIndex) (src : List ℤ) (budget : ℤ)
    (indexed : Indexed settings index) :
    Indexed settings (sync settings index src budget).1 ∧
      (sync settings index src budget).1.tokens = (startOver index src).tokens ++
        (src.drop (startOver index src).tokens.length).take budget.toNat ∧
      ((sync settings index src budget).2.1 = true ↔
        (sync settings index src budget).1.tokens.length = src.length) := by
  have start := startOver_indexed settings index src indexed
  have extended := extend_indexed settings (startOver index src)
    ((src.drop (startOver index src).tokens.length).take
      (min (src.length - (startOver index src).tokens.length) budget.toNat)) start
  have chunk : (src.drop (startOver index src).tokens.length).take
      (min (src.length - (startOver index src).tokens.length) budget.toNat) =
      (src.drop (startOver index src).tokens.length).take budget.toNat := by
    rw [← List.length_drop, Nat.min_comm, ← List.take_eq_take_min]
  rw [chunk] at extended
  rw [sync]
  dsimp only
  rw [chunk]
  refine ⟨?_, ?_, decide_eq_true_iff⟩
  · split
    · exact extended.1
    · exact start
  · split
    · exact extended.2
    next none =>
      rw [← chunk, Nat.eq_zero_of_not_pos none, List.take_zero, List.append_nil]

/-- An index of the first committed tokens never starts over. -/
theorem startOver_eq (index : ContextIndex) (src : List ℤ) (same : index.tokens <+: src) :
    startOver index src = index := by
  rw [startOver, if_neg]
  obtain ⟨rest, rfl⟩ := same
  rintro (shorter | ⟨positive, different⟩)
  · rw [List.length_append] at shorter
    omega
  · have probe : ∀ j, j < index.tokens.length →
        (index.tokens ++ rest)[j]? = index.tokens[j]? := fun j inside =>
      List.getElem?_append_left inside
    rcases different with last | first | middle
    · exact last (probe _ (by omega))
    · exact first (probe _ positive)
    · exact middle (probe _ (by omega))

/-- Over an append-only list `sync` keeps a prefix. -/
theorem sync_initial (index : ContextIndex) (src : List ℤ) (budget : ℤ)
    (indexed : Indexed settings index) (same : index.tokens <+: src) :
    (sync settings index src budget).1.tokens <+: src := by
  rw [(sync_spec settings index src budget indexed).2.1, startOver_eq index src same]
  obtain ⟨rest, rfl⟩ := same
  rw [List.drop_left, List.prefix_append_right_inj]
  exact List.take_prefix _ _

end Index

end GlmSpark.LookupLevels
