import Mathlib.Data.Finset.Card
import Mathlib.Data.Finset.Range
import Mathlib.Logic.Function.Basic
import Mathlib.Tactic.Ring

/-!
# Blocks that share one loop and count themselves

The threads of a grid divide the indices below a size by striding over them: a thread
starts at its own number and advances by the number of all threads. The blocks that
finish a phase add one to a counter that is never reset; the block that brings it to a
multiple of the grid knows that it is the last. A 32-bit counter wraps, and since the
grid is a power of two the test survives that.
-/

namespace GlmSpark.Grid

/-- The indices a thread visits from `index` on, in order; the fuel bounds the turns. -/
def strided (stride size : ℕ) : ℕ → ℕ → List ℕ
  | 0, _ => []
  | fuel + 1, index =>
    if index < size then index :: strided stride size fuel (index + stride) else []

/-- A thread visits what lies a multiple of the stride ahead. -/
theorem mem_strided {stride size : ℕ} (positive : 0 < stride) {fuel index i : ℕ}
    (enough : size ≤ index + fuel) :
    i ∈ strided stride size fuel index ↔ i < size ∧ ∃ turn, i = index + turn * stride := by
  induction fuel generalizing index with
  | zero =>
    refine ⟨fun none => absurd none List.not_mem_nil, ?_⟩
    rintro ⟨inside, turn, rfl⟩
    omega
  | succ fuel ih =>
    rw [strided]
    split
    next inside =>
      rw [List.mem_cons, ih (by omega)]
      constructor
      · rintro (rfl | ⟨inside, turn, rfl⟩)
        · exact ⟨inside, 0, by rw [Nat.zero_mul, Nat.add_zero]⟩
        · exact ⟨inside, turn + 1, by rw [Nat.succ_mul]; omega⟩
      · rintro ⟨inside, turn, rfl⟩
        cases turn with
        | zero => exact Or.inl (by rw [Nat.zero_mul, Nat.add_zero])
        | succ turn => exact Or.inr ⟨inside, turn, by rw [Nat.succ_mul]; omega⟩
    next outside =>
      refine ⟨fun none => absurd none List.not_mem_nil, ?_⟩
      rintro ⟨inside, turn, rfl⟩
      omega

/-- The indices of a block: those of its threads. -/
def blockItems (threads grid size block : ℕ) : List ℕ :=
  (List.range threads).flatMap fun thread =>
    strided (grid * threads) size size (block * threads + thread)

/-- Every index below the size belongs to the block its group of threads cycles to. -/
theorem mem_blockItems {threads grid size block i : ℕ} (positive : 0 < threads)
    (inside : block < grid) :
    i ∈ blockItems threads grid size block ↔ i < size ∧ i / threads % grid = block := by
  have stride : 0 < grid * threads := Nat.mul_pos (by omega) positive
  rw [blockItems, List.mem_flatMap]
  constructor
  · rintro ⟨thread, own, visited⟩
    obtain ⟨small, turn, rfl⟩ := (mem_strided stride (by omega)).mp visited
    refine ⟨small, ?_⟩
    have regroup : block * threads + thread + turn * (grid * threads) =
        thread + threads * (block + grid * turn) := by ring
    rw [regroup, Nat.add_mul_div_left _ _ positive,
      Nat.div_eq_of_lt (List.mem_range.mp own), Nat.zero_add, Nat.add_mul_mod_self_left,
      Nat.mod_eq_of_lt inside]
  · rintro ⟨small, rfl⟩
    refine ⟨i % threads, List.mem_range.mpr (Nat.mod_lt _ positive), ?_⟩
    refine (mem_strided stride (by omega)).mpr ⟨small, i / threads / grid, ?_⟩
    have whole := Nat.mod_add_div i threads
    have cycles := Nat.mod_add_div (i / threads) grid
    calc i = i % threads + threads * (i / threads) := whole.symm
      _ = i % threads + threads * (i / threads % grid + grid * (i / threads / grid)) := by
        rw [cycles]
      _ = i / threads % grid * threads + i % threads + i / threads / grid * (grid * threads) := by
        ring

/-- The grid leaves no index out: every index below the size is an item of some block. -/
theorem exists_block {threads grid size i : ℕ} (positive : 0 < threads) (blocks : 0 < grid)
    (small : i < size) : ∃ block < grid, i ∈ blockItems threads grid size block :=
  ⟨i / threads % grid, Nat.mod_lt _ blocks,
    (mem_blockItems positive (Nat.mod_lt _ blocks)).mpr ⟨small, rfl⟩⟩

section Counting

universe u
variable {α : Type u} (counted : α → Bool)

/-- How many blocks of the grid are in a counted place. -/
def tally (place : ℕ → α) (grid : ℕ) : ℕ :=
  ((Finset.range grid).filter fun block => counted (place block) = true).card

/-- There are no more blocks than the grid has. -/
theorem tally_le (place : ℕ → α) (grid : ℕ) : tally counted place grid ≤ grid := by
  have bounded := Finset.card_filter_le (Finset.range grid) fun block => counted (place block) = true
  rw [Finset.card_range] at bounded
  exact bounded

/-- The tally is full when every block counts. -/
theorem tally_eq_iff (place : ℕ → α) (grid : ℕ) :
    tally counted place grid = grid ↔ ∀ block < grid, counted (place block) = true := by
  have full := Finset.card_filter_eq_iff (s := Finset.range grid)
    (p := fun block => counted (place block) = true)
  rw [Finset.card_range] at full
  rw [tally, full]
  simp only [Finset.mem_range]

/-- A block that is not counted leaves room. -/
theorem tally_lt {place : ℕ → α} {grid block : ℕ} (inside : block < grid)
    (out : counted (place block) = false) : tally counted place grid < grid := by
  refine Nat.lt_of_le_of_ne (tally_le counted place grid) fun full => ?_
  rw [(tally_eq_iff counted place grid).mp full block inside] at out
  cases out

/-- Where no block counts the tally is zero. -/
theorem tally_eq_zero {place : ℕ → α} {grid : ℕ}
    (none : ∀ block < grid, counted (place block) = false) : tally counted place grid = 0 := by
  rw [tally, Finset.card_eq_zero, Finset.filter_eq_empty_iff]
  intro block listed
  rw [none block (Finset.mem_range.mp listed)]
  exact Bool.false_ne_true

/-- A move between places that count alike changes nothing. -/
theorem tally_update_same {place : ℕ → α} {block : ℕ} {next : α} (grid : ℕ)
    (alike : counted next = counted (place block)) :
    tally counted (Function.update place block next) grid = tally counted place grid := by
  rw [tally, tally]
  congr 1
  refine Finset.filter_congr fun other _ => ?_
  rw [Function.update_apply]
  split
  next same => rw [same, alike]
  next => rfl

/-- A block that starts to count adds one. -/
theorem tally_update_new {place : ℕ → α} {block grid : ℕ} {next : α} (inside : block < grid)
    (out : counted (place block) = false) (now : counted next = true) :
    tally counted (Function.update place block next) grid = tally counted place grid + 1 := by
  have absent : block ∉ (Finset.range grid).filter fun other => counted (place other) = true := by
    rw [Finset.mem_filter, out]
    exact fun listed => Bool.false_ne_true listed.2
  rw [tally, tally, ← Finset.card_insert_of_notMem absent]
  congr 1
  ext other
  rw [Finset.mem_insert, Finset.mem_filter, Finset.mem_filter, Finset.mem_range]
  by_cases same : other = block
  · subst same
    rw [Function.update_self]
    exact ⟨fun _ => Or.inl rfl, fun _ => ⟨inside, now⟩⟩
  · rw [Function.update_of_ne same]
    exact ⟨Or.inr, fun listed => listed.resolve_left same⟩

end Counting

/-- Whether the block that found `prior` in a free-running counter is the last of the grid. -/
def lastArrival (prior : BitVec 32) (grid : ℕ) : Bool := decide ((prior + 1).toNat % grid = 0)

/-- One more arrival, modulo a power of two. -/
theorem counter_succ (prior : BitVec 32) {width : ℕ} (fits : width ≤ 32) :
    (prior + 1).toNat % 2 ^ width = (prior.toNat % 2 ^ width + 1) % 2 ^ width := by
  have divides : 2 ^ width ∣ 2 ^ 32 := Nat.pow_dvd_pow 2 fits
  have one : (1 : BitVec 32).toNat = 1 := rfl
  rw [BitVec.toNat_add, Nat.mod_mod_of_dvd _ divides, one, Nat.mod_add_mod]

/-- The free-running counter finds the last block of a grid, however often it has wrapped. -/
theorem lastArrival_iff {prior : BitVec 32} {width arrived : ℕ} (fits : width ≤ 32)
    (count : prior.toNat % 2 ^ width = arrived % 2 ^ width) (room : arrived < 2 ^ width) :
    lastArrival prior (2 ^ width) = true ↔ arrived + 1 = 2 ^ width := by
  rw [lastArrival, decide_eq_true_iff, counter_succ prior fits, count, Nat.mod_eq_of_lt room]
  constructor
  · intro multiple
    by_contra more
    rw [Nat.mod_eq_of_lt (by omega)] at multiple
    cases multiple
  · intro last
    rw [last, Nat.mod_self]

end GlmSpark.Grid
