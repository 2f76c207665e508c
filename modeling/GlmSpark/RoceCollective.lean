import GlmSpark.RoceOneshot

/-!
# What a collective computes

An all-reduce leaves in every output pack the sum of all ranks in rank order; an
all-gather along the last dimension puts the rows of all ranks side by side. The blocks
of a launch divide this between them, and every block computes each of its packs from the
packs of all ranks. No output pack is left out, and two stores to one output pack agree.
-/

namespace GlmSpark.RoceOneshot

open Grid RoceLayout

universe u
variable {V : Type u} {world hcas : ℕ} (setup : Setup world hcas V)

section Grids

/-- The grid of a launch is a power of two that a counter class stands for. -/
theorem Setup.grid_eq (launch : ℕ) :
    setup.grid launch = 2 ^ setup.counterClass launch ∧ setup.counterClass launch ≤ 31 := by
  obtain ⟨width, small, blocks⟩ := setup.power
  have power : ∃ exponent ≤ 31, setup.grid launch = 2 ^ exponent := by
    rw [Setup.grid, gridBlocks, blocks]
    rcases Nat.le_total (Nat.size (max 1 (((setup.ops launch).packs + 2 * setup.threads - 1) /
      (2 * setup.threads)) - 1)) width with less | more
    · exact ⟨_, Nat.le_trans less small, Nat.min_eq_left (Nat.pow_le_pow_right Nat.two_pos less)⟩
    · exact ⟨width, small, Nat.min_eq_right (Nat.pow_le_pow_right Nat.two_pos more)⟩
  obtain ⟨exponent, below, grid⟩ := power
  have classOf : setup.counterClass launch = exponent := by
    rw [Setup.counterClass, grid, Nat.size_pow, Nat.add_sub_cancel]
  rw [classOf]
  exact ⟨grid, below⟩

/-- Every launch has a block, as it has a pack. -/
theorem Setup.grid_pos (launch : ℕ) : 0 < setup.grid launch := by
  rw [(setup.grid_eq launch).1]
  exact Nat.two_pow_pos _

/-- There is a thread, for there is one for every stripe flag. -/
theorem Setup.warps : 0 < setup.threads :=
  Nat.lt_of_lt_of_le (Nat.mul_pos (Nat.lt_of_lt_of_le Nat.zero_lt_two setup.ranks) setup.cards)
    setup.stripes

/-- The packs of a block are packs of the payload, divided by groups of threads. -/
theorem Setup.mem_items {launch block pack : ℕ} (inside : block < setup.grid launch) :
    pack ∈ setup.items launch block ↔
      pack < (setup.ops launch).packs ∧ pack / setup.threads % setup.grid launch = block :=
  mem_blockItems setup.warps inside

/-- The packs of a block are those of its threads. -/
theorem Setup.mem_items_iff {launch block pack : ℕ} :
    pack ∈ setup.items launch block ↔
      ∃ thread ∈ List.range setup.threads, pack ∈ setup.share launch block thread :=
  List.mem_flatMap

/-- Every pack of a launch is stored by some block: the stride over the grid leaves none out. -/
theorem Setup.exists_item {launch pack : ℕ} (small : pack < (setup.ops launch).packs) :
    ∃ block < setup.grid launch, pack ∈ setup.items launch block :=
  exists_block setup.warps (setup.grid_pos launch) small

end Grids

section Peers

/-- The peers of a rank are all others, with every network card. -/
theorem mem_peersOf {rank peer : Fin world} {hca : Fin hcas} :
    (peer, hca) ∈ peersOf world hcas rank ↔ peer ≠ rank := by
  rw [peersOf, List.mem_flatMap]
  constructor
  · rintro ⟨other, _, listed⟩
    split at listed
    · cases listed
    next different =>
      obtain ⟨_, _, same⟩ := List.mem_map.mp listed
      rw [← (Prod.mk.inj same).1]
      exact different
  · intro different
    refine ⟨peer, List.mem_finRange peer, ?_⟩
    rw [if_neg different]
    exact List.mem_map.mpr ⟨hca, List.mem_finRange hca, rfl⟩

/-- Every peer and network card comes once. -/
theorem nodup_peersOf (rank : Fin world) : (peersOf world hcas rank).Nodup := by
  rw [peersOf, List.nodup_flatMap]
  constructor
  · intro peer _
    split
    · exact List.nodup_nil
    · exact (List.nodup_finRange hcas).map fun _ _ same => (Prod.mk.inj same).2
  · refine (List.nodup_finRange world).imp fun {peer other} different => ?_
    intro pair listed listed'
    dsimp only at listed listed'
    split at listed
    · cases listed
    split at listed'
    · cases listed'
    obtain ⟨_, _, rfl⟩ := List.mem_map.mp listed
    obtain ⟨_, _, same⟩ := List.mem_map.mp listed'
    exact different (Prod.mk.inj same).1.symm

/-- Every rank has a peer, since there are two ranks at least. -/
theorem exists_peer (ranks : 2 ≤ world) (rank : Fin world) : ∃ peer : Fin world, peer ≠ rank := by
  by_cases first : rank.val = 0
  · exact ⟨⟨1, ranks⟩, fun same => by rw [← same] at first; cases first⟩
  · exact ⟨⟨0, Nat.lt_of_lt_of_le Nat.zero_lt_two ranks⟩, fun same => first (by rw [← same])⟩

end Peers

/-- What a launch leaves in an output pack; `none` for a place that is not of the output. -/
def Setup.collective (launch dest : ℕ) : Option V :=
  match (setup.ops launch).kind with
  | .allReduce arith =>
    if dest < (setup.ops launch).packs then
      some (reduceWords arith setup.ranks fun source => setup.input source launch dest)
    else none
  | .allGather rowPacks _ =>
    let row := dest / (world * rowPacks)
    let source := dest % (world * rowPacks) / rowPacks
    let pack := row * rowPacks + dest % rowPacks
    if known : source < world then
      if pack < (setup.ops launch).packs then some (setup.input ⟨source, known⟩ launch pack) else none
    else none

/-- A pack of a row of a rank, and where it goes. -/
theorem gathered_digits {rowPacks pack source : ℕ} (positive : 0 < rowPacks) (known : source < world) :
    let dest := pack / rowPacks * (world * rowPacks) + source * rowPacks +
      (pack - pack / rowPacks * rowPacks)
    dest / (world * rowPacks) = pack / rowPacks ∧ dest % (world * rowPacks) / rowPacks = source ∧
      dest / (world * rowPacks) * rowPacks + dest % rowPacks = pack := by
  intro dest
  have whole := Nat.mod_add_div pack rowPacks
  rw [Nat.mul_comm rowPacks] at whole
  have col : pack - pack / rowPacks * rowPacks = pack % rowPacks := by omega
  have small := Nat.mod_lt pack positive
  have inner : source * rowPacks + pack % rowPacks < world * rowPacks := digits_lt known small
  have shape : dest = (source * rowPacks + pack % rowPacks) + world * rowPacks * (pack / rowPacks) := by
    rw [Nat.mul_comm (world * rowPacks)]
    omega
  have row : dest / (world * rowPacks) = pack / rowPacks := by
    rw [shape, Nat.add_mul_div_left _ _ (by omega), Nat.div_eq_of_lt inner, Nat.zero_add]
  refine ⟨row, ?_, ?_⟩
  · rw [shape, Nat.add_mul_mod_self_left, Nat.mod_eq_of_lt inner, Nat.mul_comm source,
      Nat.mul_add_div positive, Nat.div_eq_of_lt small, Nat.add_zero]
  · have last : dest % rowPacks = pack % rowPacks := by
      rw [shape, show source * rowPacks + pack % rowPacks + world * rowPacks * (pack / rowPacks) =
        pack % rowPacks + rowPacks * (source + world * (pack / rowPacks)) by ring,
        Nat.add_mul_mod_self_left, Nat.mod_mod]
    rw [row, last]
    omega

variable {setup}

/-- A store of a block puts there what the collective asks for, given the packs of all ranks. -/
theorem store_sound {launch block : ℕ} (inside : block < setup.grid launch) {store : Store world V}
    (mine : store ∈ setup.stores launch block) :
    store.pack < (setup.ops launch).packs ∧ setup.collective launch store.dest =
      some (store.value fun source => setup.input source launch store.pack) := by
  rw [Setup.stores] at mine
  rw [Setup.collective]
  cases kind : (setup.ops launch).kind with
  | allReduce arith =>
    rw [kind] at mine
    obtain ⟨pack, item, rfl⟩ := List.mem_map.mp mine
    have small := ((setup.mem_items inside).mp item).1
    exact ⟨small, if_pos small⟩
  | allGather rowPacks positive =>
    rw [kind] at mine
    obtain ⟨source, _, listed⟩ := List.mem_flatMap.mp mine
    obtain ⟨pack, item, rfl⟩ := List.mem_map.mp listed
    have small := ((setup.mem_items inside).mp item).1
    obtain ⟨_, from', back⟩ := @gathered_digits world rowPacks pack source positive source.isLt
    refine ⟨small, ?_⟩
    dsimp only
    rw [dif_pos (by rw [from']; exact source.isLt), if_pos (by rw [back]; exact small)]
    congr 2
    · exact Fin.ext from'

/-- Every output pack is stored by some block. -/
theorem exists_store {launch dest : ℕ} {value : V} (asked : setup.collective launch dest = some value) :
    ∃ block < setup.grid launch, ∃ store ∈ setup.stores launch block, store.dest = dest := by
  rw [Setup.collective] at asked
  simp only [Setup.stores]
  cases kind : (setup.ops launch).kind with
  | allReduce arith =>
    rw [kind] at asked
    dsimp only at asked
    split at asked
    next small =>
      obtain ⟨block, inside, item⟩ := setup.exists_item small
      exact ⟨block, inside, _, List.mem_map.mpr ⟨dest, item, rfl⟩, rfl⟩
    next => cases asked
  | allGather rowPacks positive =>
    rw [kind] at asked
    dsimp only at asked
    split at asked
    next known =>
      split at asked
      next small =>
        obtain ⟨block, inside, item⟩ := setup.exists_item small
        refine ⟨block, inside, _, List.mem_flatMap.mpr ⟨⟨_, known⟩, List.mem_finRange _,
          List.mem_map.mpr ⟨_, item, rfl⟩⟩, ?_⟩
        have last := Nat.mod_lt dest positive
        have row : (dest / (world * rowPacks) * rowPacks + dest % rowPacks) / rowPacks =
            dest / (world * rowPacks) := by
          rw [Nat.mul_comm, Nat.mul_add_div positive, Nat.div_eq_of_lt last, Nat.add_zero]
        have whole := Nat.div_add_mod dest (world * rowPacks)
        have inner := Nat.div_add_mod (dest % (world * rowPacks)) rowPacks
        rw [Nat.mod_mod_of_dvd _ (Dvd.intro_left _ rfl)] at inner
        dsimp only
        rw [Nat.mul_comm] at whole inner
        rw [row, Nat.add_sub_cancel_left, Nat.add_assoc, inner, whole]
      next => cases asked
    next => cases asked

end GlmSpark.RoceOneshot
