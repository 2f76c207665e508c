import GlmSpark.LookupLevels

/-!
# What the context index answers

Over an append-only token list, however it is loaded, `get` finds the latest end
of a key and `match` the latest earlier occurrence of the longest suffix whose
candidate really has the suffix's tokens. Both depend on the tokens alone.
-/

namespace GlmSpark.LookupMatch

open Continuation LatestTable ContextTier LookupIndex LookupLevels Runs

/-- The suffix's key occurs last at a position, and the tokens there are the suffix. -/
def Found (tokens : List ℤ) (n stop : ℕ) : Prop :=
  IsLatest (fun position => position < tokens.length ∧
      Occurs tokens n (gramKey (window tokens tokens.length n)) position) (some stop) ∧
    window tokens stop n = window tokens tokens.length n

/-- Length of the common suffix of the tokens before a position and of all tokens. -/
def commonSuffix (tokens : List ℤ) (stop : ℕ) : ℕ :=
  leading (tokens.take stop).reverse tokens.reverse

/-- What `match` should answer over a token list, with the agreement capped at `cap n`. -/
def IsMatch (ns : List ℕ) (tokens : List ℤ) (nMin nMax : ℕ) (cap : ℕ → ℕ) : Option Match → Prop
  | none => ∀ n ∈ ns, nMin ≤ n → n ≤ nMax → ∀ stop, ¬ Found tokens n stop
  | some found => (found.n ∈ ns ∧ nMin ≤ found.n ∧ found.n ≤ nMax) ∧ Found tokens found.n found.src ∧
    (∀ n ∈ ns, found.n < n → n ≤ nMax → ∀ stop, ¬ Found tokens n stop) ∧
    found.agree = min (cap found.n) (commonSuffix tokens found.src) ∧
    found.avail = tokens.length - found.src ∧ found.length = tokens.length

section Agreement

variable (tokens : List ℤ) (stop : ℕ)

/-- A common suffix is no longer than what stands before its end. -/
theorem commonSuffix_le : commonSuffix tokens stop ≤ stop := by
  have bound := leading_le (tokens.take stop).reverse tokens.reverse
  rw [List.length_reverse, List.length_take] at bound
  exact bound.trans (Nat.min_le_left _ _)

/-- One token from the end of what is before a position. -/
theorem take_reverse_getElem? (inside : stop ≤ tokens.length) (i : ℕ) (before : i < stop) :
    (tokens.take stop).reverse[i]? = some (tokens.getD (stop - 1 - i) 0) := by
  have length : (tokens.take stop).length = stop := by rw [List.length_take]; omega
  rw [List.getElem?_reverse (by omega), length, List.getElem?_take_of_lt (by omega),
    List.getElem?_eq_getElem (by omega), List.getD_eq_getElem?_getD,
    List.getElem?_eq_getElem (by omega), Option.getD_some]

/-- The `i`-th tokens before both sites are equal inside the common suffix. -/
theorem commonSuffix_agrees (inside : stop ≤ tokens.length) (i : ℕ)
    (early : i < commonSuffix tokens stop) :
    tokens.getD (stop - 1 - i) 0 = tokens.getD (tokens.length - 1 - i) 0 := by
  have before : i < stop := early.trans_le (commonSuffix_le tokens stop)
  have same := leading_agrees (tokens.take stop).reverse tokens.reverse i early
  have all := take_reverse_getElem? tokens tokens.length (Nat.le_refl _) i (by omega)
  rw [List.take_length] at all
  rw [take_reverse_getElem? tokens stop inside i before, all] at same
  exact Option.some.inj same

/-- The common suffix goes on exactly where the loop goes on. -/
theorem lt_commonSuffix_iff (inside : stop ≤ tokens.length) (agree : ℕ)
    (far : agree ≤ commonSuffix tokens stop) :
    agree < commonSuffix tokens stop ↔ agree + 1 ≤ stop ∧
      tokens.getD (stop - 1 - agree) 0 = tokens.getD (tokens.length - 1 - agree) 0 := by
  constructor
  · intro early
    exact ⟨early.trans_le (commonSuffix_le tokens stop),
      commonSuffix_agrees tokens stop inside agree early⟩
  · rintro ⟨before, same⟩
    refine lt_of_le_of_ne far ?_
    rintro rfl
    have all := take_reverse_getElem? tokens tokens.length (Nat.le_refl _)
      (commonSuffix tokens stop) (by omega)
    rw [List.take_length] at all
    exact leading_stops _ _ _ _ (take_reverse_getElem? tokens stop inside _ before) all same

/-- The loop measures the common suffix, up to the cap or what it started with. -/
theorem agreeLoop_eq (inside : stop ≤ tokens.length) (maxAgree left agree : ℕ)
    (far : agree ≤ commonSuffix tokens stop) (enough : stop ≤ agree + left) :
    agreeLoop tokens stop maxAgree left agree =
      min (max maxAgree agree) (commonSuffix tokens stop) := by
  induction left generalizing agree with
  | zero =>
    have bound := commonSuffix_le tokens stop
    rw [agreeLoop]
    omega
  | succ left ih =>
    have goesOn := lt_commonSuffix_iff tokens stop inside agree far
    rw [agreeLoop]
    split
    next more =>
      have further := goesOn.mpr more.2
      rw [ih (agree + 1) further (by omega)]
      omega
    next ends =>
      by_cases capped : agree < maxAgree
      · have last : ¬ agree < commonSuffix tokens stop := fun further =>
          ends ⟨capped, goesOn.mp further⟩
        omega
      · omega

/-- Equal windows are part of the common suffix. -/
theorem le_commonSuffix (n : ℕ) (before : n ≤ stop) (inside : stop ≤ tokens.length)
    (same : window tokens stop n = window tokens tokens.length n) :
    n ≤ commonSuffix tokens stop := by
  by_contra short
  have stops := lt_commonSuffix_iff tokens stop inside _ (Nat.le_refl (commonSuffix tokens stop))
  refine absurd (stops.mpr ⟨by omega, ?_⟩) (lt_irrefl _)
  have read : ∀ site, n ≤ site → site ≤ tokens.length →
      (window tokens site n).getD (n - 1 - commonSuffix tokens stop) 0 =
        tokens.getD (site - 1 - commonSuffix tokens stop) 0 := by
    intro site above below
    rw [window, List.getD_eq_getElem?_getD, List.getElem?_take_of_lt (by omega),
      List.getElem?_drop, List.getD_eq_getElem?_getD]
    congr 2
    omega
  rw [← read stop before inside, ← read tokens.length (before.trans inside) (Nat.le_refl _), same]

end Agreement

section Answers

variable (settings : Settings) (index : ContextIndex)

/-- `get` answers the latest end with the key. -/
theorem get_latest (indexed : Indexed settings index) {n : ℕ} (configured : n ∈ settings.ns)
    (key : Key) : IsLatest (fun position => position < index.tokens.length ∧
      Occurs index.tokens n key position) (index.get n key) := by
  have answer := (indexed n configured).answer key
  have either : index.get n key =
      ((index.hot n).lookup key).or ((index.tiers n).findSome? fun tier => tier.get key) := by
    rw [ContextIndex.get]
    cases (index.hot n).lookup key <;> rfl
  rwa [either]

/-- `match` at one `n` answers exactly what is found there. -/
theorem matchAt_iff (indexed : Indexed settings index) (maxAgree n : ℕ) (found : Match) :
    index.matchAt settings maxAgree n = some found ↔
      n ∈ settings.ns ∧ Found index.tokens n found.src ∧ found.n = n ∧
        found.agree = min (max maxAgree n) (commonSuffix index.tokens found.src) ∧
        found.avail = index.tokens.length - found.src ∧ found.length = index.tokens.length := by
  have least : ∀ stop, Found index.tokens n stop → n + 1 ≤ index.tokens.length := by
    intro stop there
    have below := there.1.1.1
    have above := there.1.1.2.1
    omega
  rw [ContextIndex.matchAt]
  split
  next skipped =>
    constructor
    · exact fun none => nomatch none
    · rintro ⟨configured, there, _⟩
      rcases skipped with missing | short
      · exact absurd configured missing
      · exact absurd (least _ there) (Nat.not_le.mpr short)
  next considered =>
    obtain ⟨configured, long⟩ := not_or.mp considered
    have latest := get_latest settings index indexed (of_not_not configured)
      (gramKey (window index.tokens index.tokens.length n))
    cases answer : index.get n (gramKey (window index.tokens index.tokens.length n)) with
    | none =>
      rw [answer] at latest
      constructor
      · exact fun none => nomatch none
      · rintro ⟨_, there, _⟩
        exact absurd there.1.1 (latest _)
    | some stop =>
      rw [answer] at latest
      have below : stop < index.tokens.length := latest.1.1
      dsimp only
      rw [if_neg (Nat.not_le.mpr below)]
      have only : ∀ other, Found index.tokens n other → other = stop := fun other there =>
        Option.some.inj (there.1.unique latest)
      split
      next different =>
        constructor
        · exact fun none => nomatch none
        · rintro ⟨_, there, _⟩
          rw [only _ there] at there
          exact absurd there.2 different
      next same =>
        have equal := of_not_not same
        have agreed := agreeLoop_eq index.tokens stop below.le maxAgree stop n
          (le_commonSuffix index.tokens stop n latest.1.2.1 below.le equal) (by omega)
        rw [agreed, Option.some.injEq]
        constructor
        · rintro rfl
          exact ⟨of_not_not configured, ⟨latest, equal⟩, rfl, rfl, rfl, rfl⟩
        · rintro ⟨_, there, length, agree, avail, total⟩
          cases found
          dsimp only at there length agree avail total
          obtain rfl := only _ there
          subst length agree avail total
          rfl

/-- Nothing is answered at an `n` where nothing is found. -/
theorem matchAt_none (indexed : Indexed settings index) (maxAgree n : ℕ)
    (none : index.matchAt settings maxAgree n = none) (configured : n ∈ settings.ns) (stop : ℕ) :
    ¬ Found index.tokens n stop := by
  intro there
  have some := (matchAt_iff settings index indexed maxAgree n
    ⟨stop, n, min (max maxAgree n) (commonSuffix index.tokens stop), index.tokens.length - stop,
      index.tokens.length⟩).mpr ⟨configured, there, rfl, rfl, rfl, rfl⟩
  rw [none] at some
  exact nomatch some

/-- `match` answers for the largest `n` at which something is found. -/
theorem match_isMatch (indexed : Indexed settings index) (nMin nMax maxAgree : ℕ) :
    IsMatch settings.ns index.tokens nMin nMax (max maxAgree)
      (index.match settings nMin nMax maxAgree) := by
  have listed : ∀ n ∈ settings.ns, nMin ≤ n → n ≤ nMax →
      n ∈ (List.range' nMin (min nMax settings.nmax + 1 - nMin)).reverse := by
    intro n configured above below
    have bound := le_nmax settings configured
    rw [List.mem_reverse, List.mem_range'_1]
    omega
  have descending : (List.range' nMin (min nMax settings.nmax + 1 - nMin)).reverse.Pairwise
      (· > ·) := List.pairwise_reverse.mpr List.pairwise_lt_range'
  rw [ContextIndex.match]
  cases answer : (List.range' nMin (min nMax settings.nmax + 1 - nMin)).reverse.findSome?
      (index.matchAt settings maxAgree) with
  | none =>
    intro n configured above below
    have here := List.findSome?_eq_none_iff.mp answer n (listed n configured above below)
    exact matchAt_none settings index indexed maxAgree n here configured
  | some found =>
    obtain ⟨before, n, after, split, here, passed⟩ := List.findSome?_eq_some_iff.mp answer
    obtain ⟨configured, there, rfl, agree, avail, length⟩ :=
      (matchAt_iff settings index indexed maxAgree n found).mp here
    have range : found.n ∈ (List.range' nMin (min nMax settings.nmax + 1 - nMin)).reverse := by
      rw [split]
      simp
    rw [List.mem_reverse, List.mem_range'_1] at range
    refine ⟨⟨configured, by omega, by omega⟩, there, ?_, agree, avail, length⟩
    intro n larger_configured larger below
    have member := listed n larger_configured (by omega) below
    rw [split] at member descending
    have earlier : n ∈ before := by
      rcases List.mem_append.mp member with first | rest
      · exact first
      · rcases List.mem_cons.mp rest with same | later
        · exact absurd same (by omega)
        · have smaller := (List.pairwise_cons.mp (List.pairwise_append.mp descending).2.1).1 n later
          omega
    exact matchAt_none settings index indexed maxAgree n (passed n earlier) larger_configured

end Answers

/-- There is one answer over a token list. -/
theorem IsMatch.unique {ns : List ℕ} {tokens : List ℤ} {nMin nMax : ℕ} {cap : ℕ → ℕ}
    {one other : Option Match} (first : IsMatch ns tokens nMin nMax cap one)
    (second : IsMatch ns tokens nMin nMax cap other) : one = other := by
  cases one with
  | none =>
    cases other with
    | none => rfl
    | some found =>
      obtain ⟨⟨configured, above, below⟩, there, _⟩ := second
      exact absurd there (first _ configured above below _)
  | some found =>
    obtain ⟨⟨configured, above, below⟩, there, largest, agree, avail, length⟩ := first
    cases other with
    | none => exact absurd there (second _ configured above below _)
    | some also =>
      obtain ⟨⟨configured', above', below'⟩, there', largest', agree', avail', length'⟩ := second
      rcases Nat.lt_trichotomy found.n also.n with less | same | more
      · exact absurd there' (largest _ configured' less below' _)
      · have site : found.src = also.src := by
          rw [← same] at there'
          exact Option.some.inj (there.1.unique there'.1)
        cases found
        cases also
        dsimp only at *
        subst same site agree avail length agree' avail' length'
        rfl
      · exact absurd there (largest' _ configured more below _)

section Loading

/-- What happens to a token list and its index. -/
inductive Event
  | append (new : List ℤ)
  | sync (budget : ℤ)
  | extend (count : ℕ)

/-- A growing token list and the index of it. -/
structure World where
  source : List ℤ
  index : ContextIndex

/-- The list grows, or the index takes in more of it. -/
def step (settings : Settings) (world : World) : Event → World
  | .append new => { world with source := world.source ++ new }
  | .sync budget => { world with index := (sync settings world.index world.source budget).1 }
  | .extend count => { world with
      index := extend settings world.index
        ((world.source.drop world.index.tokens.length).take count) }

/-- Every run of appends, `sync` calls and `extend` calls. -/
def loading (settings : Settings) : System World Event where
  initial := ⟨[], ContextIndex.empty⟩
  step := step settings
  allowed _ _ := True

/-- The indexed tokens are the first tokens of the list, and every level is complete. -/
theorem loading_indexed (settings : Settings) {world : World}
    (reachable : Reachable (loading settings) world) :
    Indexed settings world.index ∧ world.index.tokens <+: world.source := by
  apply reachable.invariant ⟨empty_indexed settings, List.nil_prefix⟩
  rintro world event ⟨indexed, same⟩ _
  cases event with
  | append new => exact ⟨indexed, same.trans (List.prefix_append _ _)⟩
  | sync budget =>
    exact ⟨(sync_spec settings world.index world.source budget indexed).1,
      sync_initial settings world.index world.source budget indexed same⟩
  | extend count =>
    obtain ⟨kept, tokens⟩ := extend_indexed settings world.index
      ((world.source.drop world.index.tokens.length).take count) indexed
    refine ⟨kept, ?_⟩
    change (extend settings world.index _).tokens <+: world.source
    rw [tokens]
    obtain ⟨rest, equal⟩ := same
    rw [← equal, List.drop_left, List.prefix_append_right_inj]
    exact List.take_prefix _ _

/-- However a token list is loaded, the index holds its first tokens, `get` and `match` answer the
latest occurrences over them, and two indexes of the same tokens answer alike. -/
theorem context_index_exact (settings : Settings) {world : World}
    (reachable : Reachable (loading settings) world) :
    world.index.tokens <+: world.source ∧
    (∀ n ∈ settings.ns, ∀ key, IsLatest (fun position => position < world.index.tokens.length ∧
      Occurs world.index.tokens n key position) (world.index.get n key)) ∧
    (∀ nMin nMax maxAgree, IsMatch settings.ns world.index.tokens nMin nMax (max maxAgree)
      (world.index.match settings nMin nMax maxAgree)) ∧
    ∀ (other : Settings) (also : World), other.ns = settings.ns → Reachable (loading other) also →
      also.index.tokens = world.index.tokens →
        (∀ n ∈ settings.ns, ∀ key, also.index.get n key = world.index.get n key) ∧
        ∀ nMin nMax maxAgree, also.index.match other nMin nMax maxAgree =
          world.index.match settings nMin nMax maxAgree := by
  obtain ⟨indexed, same⟩ := loading_indexed settings reachable
  refine ⟨same, fun n configured key => get_latest settings world.index indexed configured key,
    match_isMatch settings world.index indexed, ?_⟩
  intro other also sizes reached tokens
  obtain ⟨indexed', _⟩ := loading_indexed other reached
  constructor
  · intro n configured key
    have latest := get_latest other also.index indexed' (sizes ▸ configured) key
    rw [tokens] at latest
    exact latest.unique (get_latest settings world.index indexed configured key)
  · intro nMin nMax maxAgree
    have answer := match_isMatch other also.index indexed' nMin nMax maxAgree
    rw [tokens, sizes] at answer
    exact answer.unique (match_isMatch settings world.index indexed nMin nMax maxAgree)

/-- Keys of two tokens, a freeze every third push, and chunks of four tokens at once. -/
def twoGrams : Settings where
  ns := [2]
  increasing := List.pairwise_singleton _ _
  nonempty := by decide
  positive := by decide
  hotLimit := 3
  bulkMin := 4
  numpy := true

/-- Pushes, a freeze, a bulk load with a merge, and a push again. -/
def mixedLoading : List Event :=
  [.append [5, 6, 7, 5, 6, 7, 5, 6], .extend 3, .sync 4, .sync 1]

/-- The events of `mixedLoading` are permitted one after the other, so its end state is reachable.
-/
theorem mixedLoading_reachable :
    Reachable (loading twoGrams) ((loading twoGrams).run (loading twoGrams).initial mixedLoading) :=
  Reachable.initial.run mixedLoading ⟨trivial, trivial, trivial, trivial, trivial⟩

/-- Both of the mixed loading's answers are the latest occurrences. -/
theorem context_index_exact_mixed :
    let world := (loading twoGrams).run (loading twoGrams).initial mixedLoading
    world.index.tokens = [5, 6, 7, 5, 6, 7, 5, 6] ∧
      world.index.match twoGrams 2 4 64 = some ⟨5, 2, 5, 3, 8⟩ ∧
      IsMatch [2] world.index.tokens 2 4 (max 64) (world.index.match twoGrams 2 4 64) := by
  intro world
  refine ⟨by decide +kernel, by decide +kernel, ?_⟩
  exact (context_index_exact twoGrams mixedLoading_reachable).2.2.1 2 4 64

/-- The agreement starts at `n`: with a cap below `n` it is not capped there. -/
theorem agreement_exceeds_cap :
    let world := (loading twoGrams).run (loading twoGrams).initial mixedLoading
    Reachable (loading twoGrams) world ∧
      ¬ IsMatch [2] world.index.tokens 2 4 (fun _ => 1) (world.index.match twoGrams 2 4 1) := by
  intro world
  refine ⟨mixedLoading_reachable, fun capped => ?_⟩
  have answer : world.index.match twoGrams 2 4 1 = some ⟨5, 2, 2, 3, 8⟩ := by decide +kernel
  rw [answer] at capped
  have bound : (2 : ℕ) ≤ 1 := capped.2.2.2.1.trans_le (Nat.min_le_left _ _)
  exact absurd bound (by decide)

end Loading

end GlmSpark.LookupMatch
