import GlmSpark.Ragged
import Mathlib.Data.List.FinRange
import Mathlib.Tactic.Ring

/-!
# The pinned region of a rank

Kernel, proxy and network card of a rank and the network cards of its peers all address
one pinned region: receive slots, stripe flags, send slots and a control record. The
offsets are computed in three places from the world size and the slot size. Every layout
that is accepted keeps all cells inside the region and apart from each other, and the
stripes a payload is cut into for the network cards meet every pack exactly once.
-/

namespace GlmSpark.RoceLayout

/-- Slots of a send or receive buffer. -/
def slots : ℕ := 2

/-- Most network cards of a rank. -/
def maxHcas : ℕ := 2

/-- Most ranks. -/
def maxPeers : ℕ := 16

/-- Bytes between two flags, and of the control record. -/
def flagStride : ℕ := 128

/-- Bytes of a pack. -/
def packBytes : ℕ := 16

/-- The offsets of a region. -/
structure Layout where
  recvOff : ℕ
  flagOff : ℕ
  sendOff : ℕ
  ctrlOff : ℕ
  total : ℕ
  deriving DecidableEq, Repr

/-- A 64-bit multiplication or addition that must not overflow. -/
def checked (value : ℕ) : Option ℕ := if value < 2 ^ 64 then some value else none

/-- The layout for a world and a slot size; geometries the protocol does not support and
sizes whose arithmetic would wrap are refused. -/
def roceLayout (world slotBytes : ℕ) : Option Layout :=
  if world < 2 ∨ maxPeers < world ∨ slotBytes = 0 ∨ slotBytes % 4096 ≠ 0 then
    none
  else if 2 ^ 40 < slotBytes then
    none
  else do
    let recvBytes ← checked (world * slots * slotBytes)
    let flagBytes ← checked (world * slots * maxHcas * flagStride)
    let sendBytes ← checked (slots * slotBytes)
    let sendOff ← checked (recvBytes + flagBytes)
    let ctrlOff ← checked (sendOff + sendBytes)
    let total ← checked (ctrlOff + flagStride)
    pure ⟨0, recvBytes, sendOff, ctrlOff, total⟩

/-- What kernel, proxy and network cards read and write in the region of a rank: packs of
the receive slots, stripe flags, packs of the send slots, words of the control record. -/
inductive Cell
  | recv (source slot pack : ℕ)
  | flag (source slot hca : ℕ)
  | send (slot pack : ℕ)
  | ctrl (word : ℕ)
  deriving DecidableEq, Repr

/-- The bytes of a cell: a pack, or a word of four. -/
def Cell.width : Cell → ℕ
  | .recv _ _ _ | .send _ _ => packBytes
  | .flag _ _ _ | .ctrl _ => 4

/-- Where a cell begins in the registered region. -/
def address (layout : Layout) (slotBytes hcas : ℕ) : Cell → ℕ
  | .recv source slot pack =>
    layout.recvOff + (source * slots + slot) * slotBytes + pack * packBytes
  | .flag source slot hca =>
    layout.flagOff + ((source * slots + slot) * hcas + hca) * flagStride
  | .send slot pack => layout.sendOff + slot * slotBytes + pack * packBytes
  | .ctrl word => layout.ctrlOff + word * 4

/-- The cells a world with so many network cards uses: packs below the slot size and the
seven words of the control record. -/
def Cell.Used (world slotBytes hcas : ℕ) : Cell → Prop
  | .recv source slot pack => source < world ∧ slot < slots ∧ (pack + 1) * packBytes ≤ slotBytes
  | .flag source slot hca => source < world ∧ slot < slots ∧ hca < hcas
  | .send slot pack => slot < slots ∧ (pack + 1) * packBytes ≤ slotBytes
  | .ctrl word => word < 7

/-- Whether a cell is used can be decided. -/
instance Cell.decidableUsed (world slotBytes hcas : ℕ) (cell : Cell) :
    Decidable (cell.Used world slotBytes hcas) :=
  match cell with
  | .recv source slot pack =>
    inferInstanceAs (Decidable (source < world ∧ slot < slots ∧ (pack + 1) * packBytes ≤ slotBytes))
  | .flag source slot hca => inferInstanceAs (Decidable (source < world ∧ slot < slots ∧ hca < hcas))
  | .send slot pack => inferInstanceAs (Decidable (slot < slots ∧ (pack + 1) * packBytes ≤ slotBytes))
  | .ctrl word => inferInstanceAs (Decidable (word < 7))

/-- What a layout that is accepted looks like: the checks it passed and the places of its three
parts, in terms of ranks and slot size. -/
theorem roceLayout_eq {world slotBytes : ℕ} {layout : Layout}
    (accepted : roceLayout world slotBytes = some layout) :
    2 ≤ world ∧ slotBytes % 4096 = 0 ∧ 0 < slotBytes ∧ layout.recvOff = 0 ∧
      layout.flagOff = world * slots * slotBytes ∧
      layout.sendOff = layout.flagOff + world * slots * maxHcas * flagStride ∧
      layout.ctrlOff = layout.sendOff + slots * slotBytes ∧
      layout.total = layout.ctrlOff + flagStride := by
  rw [roceLayout] at accepted
  split at accepted
  · cases accepted
  next supported =>
    split at accepted
    · cases accepted
    · simp only [checked, Option.bind_eq_bind, Option.bind_eq_some_iff, Option.ite_none_right_eq_some,
        Option.some.injEq, Option.pure_def] at accepted
      obtain ⟨_, ⟨_, rfl⟩, _, ⟨_, rfl⟩, _, ⟨_, rfl⟩, _, ⟨_, rfl⟩, _, ⟨_, rfl⟩, _, ⟨_, rfl⟩, rfl⟩ := accepted
      push Not at supported
      obtain ⟨enough, _, positive, aligned⟩ := supported
      exact ⟨enough, aligned, Nat.pos_of_ne_zero positive, rfl, rfl, rfl, rfl, rfl⟩

/-- Cells of one array with equal gaps do not meet. -/
theorem apart {size first second inner other : ℕ} (before : first < second)
    (fits : inner ≤ size) : first * size + inner ≤ second * size + other := by
  have step : (first + 1) * size ≤ second * size := Nat.mul_le_mul_right size before
  rw [Nat.succ_mul] at step
  omega

/-- A pair of digits is determined by the number it spells. -/
theorem digits_eq {base first second low high : ℕ} (low' : low < base) (high' : high < base)
    (same : first * base + low = second * base + high) : first = second ∧ low = high := by
  rcases Nat.lt_trichotomy first second with less | rfl | more
  · have strict : (first + 1) * base ≤ second * base := Nat.mul_le_mul_right base less
    rw [Nat.succ_mul] at strict
    omega
  · exact ⟨rfl, by omega⟩
  · have strict : (second + 1) * base ≤ first * base := Nat.mul_le_mul_right base more
    rw [Nat.succ_mul] at strict
    omega

/-- An index below a product of sizes. -/
theorem digits_lt {count size first low : ℕ} (inside : first < count) (small : low < size) :
    first * size + low < count * size := by
  have step : (first + 1) * size ≤ count * size := Nat.mul_le_mul_right size inside
  rw [Nat.succ_mul] at step
  omega

section Accepted

variable {world slotBytes hcas : ℕ} {layout : Layout}

/-- Where the four areas of an accepted region end. -/
theorem address_bounds (accepted : roceLayout world slotBytes = some layout) (cards : hcas ≤ maxHcas)
    {cell : Cell} (used : cell.Used world slotBytes hcas) :
    match cell with
    | .recv _ _ _ => address layout slotBytes hcas cell + cell.width ≤ layout.flagOff
    | .flag _ _ _ => layout.flagOff ≤ address layout slotBytes hcas cell ∧
        address layout slotBytes hcas cell + cell.width ≤ layout.sendOff
    | .send _ _ => layout.sendOff ≤ address layout slotBytes hcas cell ∧
        address layout slotBytes hcas cell + cell.width ≤ layout.ctrlOff
    | .ctrl _ => layout.ctrlOff ≤ address layout slotBytes hcas cell ∧
        address layout slotBytes hcas cell + cell.width ≤ layout.total := by
  obtain ⟨_, _, _, recv, flag, send, ctrl, total⟩ := roceLayout_eq accepted
  cases cell with
  | recv source slot pack =>
    obtain ⟨known, slot', fits⟩ := used
    have row : (source * slots + slot + 1) * slotBytes ≤ world * slots * slotBytes :=
      Nat.mul_le_mul_right slotBytes (digits_lt known slot')
    rw [Nat.succ_mul] at row
    rw [Nat.succ_mul] at fits
    dsimp only [address, Cell.width]
    omega
  | flag source slot hca =>
    obtain ⟨known, slot', card⟩ := used
    have row : (source * slots + slot) * hcas + hca < world * slots * hcas :=
      digits_lt (digits_lt known slot') card
    have most : world * slots * hcas ≤ world * slots * maxHcas := Nat.mul_le_mul_left _ cards
    dsimp only [address, Cell.width]
    refine ⟨Nat.le_add_right _ _, ?_⟩
    have stop : ((source * slots + slot) * hcas + hca + 1) * flagStride ≤
        world * slots * maxHcas * flagStride := Nat.mul_le_mul_right _ (by omega)
    rw [Nat.succ_mul] at stop
    have wide : 4 ≤ flagStride := by decide
    omega
  | send slot pack =>
    obtain ⟨slot', fits⟩ := used
    have row : (slot + 1) * slotBytes ≤ slots * slotBytes := Nat.mul_le_mul_right slotBytes slot'
    rw [Nat.succ_mul] at row
    rw [Nat.succ_mul] at fits
    dsimp only [address, Cell.width]
    omega
  | ctrl word =>
    have small : word < 7 := used
    dsimp only [address, Cell.width]
    have wide : flagStride = 128 := rfl
    omega

/-- Every used cell of an accepted region lies inside it. -/
theorem address_inside (accepted : roceLayout world slotBytes = some layout) (cards : hcas ≤ maxHcas)
    {cell : Cell} (used : cell.Used world slotBytes hcas) :
    address layout slotBytes hcas cell + cell.width ≤ layout.total := by
  obtain ⟨_, _, _, recv, flag, send, ctrl, total⟩ := roceLayout_eq accepted
  have bounds := address_bounds accepted cards used
  cases cell <;> dsimp only at bounds <;> omega

/-- Two different cells of an accepted region share no byte. -/
theorem address_apart (accepted : roceLayout world slotBytes = some layout) (cards : hcas ≤ maxHcas)
    {cell other : Cell} (used : cell.Used world slotBytes hcas)
    (used' : other.Used world slotBytes hcas) (different : cell ≠ other) :
    address layout slotBytes hcas cell + cell.width ≤ address layout slotBytes hcas other ∨
      address layout slotBytes hcas other + other.width ≤ address layout slotBytes hcas cell := by
  obtain ⟨_, _, _, recv, flag, send, ctrl, total⟩ := roceLayout_eq accepted
  have bounds := address_bounds accepted cards used
  have bounds' := address_bounds accepted cards used'
  -- cells of different areas lie on different sides of a boundary; within an area the digits differ
  cases cell with
  | recv source slot pack =>
    cases other with
    | recv source' slot' pack' =>
      obtain ⟨_, low, fits⟩ := used
      obtain ⟨_, low', fits'⟩ := used'
      rw [Nat.succ_mul] at fits fits'
      dsimp only [address, Cell.width]
      rcases Nat.lt_trichotomy (source * slots + slot) (source' * slots + slot') with less | same | more
      · have gap := @apart slotBytes _ _ _ (pack' * packBytes) less fits
        omega
      · obtain ⟨rfl, rfl⟩ := digits_eq low low' same
        have packs : pack ≠ pack' := fun equal => different (by rw [equal])
        rcases Nat.lt_or_gt_of_ne packs with less | more
        · have gap := @apart packBytes _ _ packBytes 0 less (Nat.le_refl _)
          omega
        · have gap := @apart packBytes _ _ packBytes 0 more (Nat.le_refl _)
          omega
      · have gap := @apart slotBytes _ _ _ (pack * packBytes) more fits'
        omega
    | flag _ _ _ => dsimp only at bounds bounds'; omega
    | send _ _ => dsimp only at bounds bounds'; omega
    | ctrl _ => dsimp only at bounds bounds'; omega
  | flag source slot hca =>
    cases other with
    | recv _ _ _ => dsimp only at bounds bounds'; omega
    | flag source' slot' hca' =>
      obtain ⟨_, low, card⟩ := used
      obtain ⟨_, low', card'⟩ := used'
      have wide : 4 ≤ flagStride := by decide
      have digits : (source * slots + slot) * hcas + hca ≠ (source' * slots + slot') * hcas + hca' := by
        intro same
        obtain ⟨row, rfl⟩ := digits_eq card card' same
        obtain ⟨rfl, rfl⟩ := digits_eq low low' row
        exact different rfl
      dsimp only [address, Cell.width]
      rcases Nat.lt_or_gt_of_ne digits with less | more
      · have gap := @apart flagStride _ _ _ 0 less wide
        omega
      · have gap := @apart flagStride _ _ _ 0 more wide
        omega
    | send _ _ => dsimp only at bounds bounds'; omega
    | ctrl _ => dsimp only at bounds bounds'; omega
  | send slot pack =>
    cases other with
    | recv _ _ _ => dsimp only at bounds bounds'; omega
    | flag _ _ _ => dsimp only at bounds bounds'; omega
    | send slot' pack' =>
      obtain ⟨_, fits⟩ := used
      obtain ⟨_, fits'⟩ := used'
      rw [Nat.succ_mul] at fits fits'
      dsimp only [address, Cell.width]
      rcases Nat.lt_trichotomy slot slot' with less | rfl | more
      · have gap := @apart slotBytes _ _ _ (pack' * packBytes) less fits
        omega
      · have packs : pack ≠ pack' := fun equal => different (by rw [equal])
        rcases Nat.lt_or_gt_of_ne packs with less | more
        · have gap := @apart packBytes _ _ packBytes 0 less (Nat.le_refl _)
          omega
        · have gap := @apart packBytes _ _ packBytes 0 more (Nat.le_refl _)
          omega
      · have gap := @apart slotBytes _ _ _ (pack * packBytes) more fits'
        omega
    | ctrl _ => dsimp only at bounds bounds'; omega
  | ctrl word =>
    cases other with
    | recv _ _ _ => dsimp only at bounds bounds'; omega
    | flag _ _ _ => dsimp only at bounds bounds'; omega
    | send _ _ => dsimp only at bounds bounds'; omega
    | ctrl word' =>
      have words : word ≠ word' := fun equal => different (by rw [equal])
      dsimp only [address, Cell.width]
      omega

/-- Packs begin at multiples of a pack and words at multiples of a word. -/
theorem address_aligned (accepted : roceLayout world slotBytes = some layout) (cell : Cell) :
    cell.width ∣ address layout slotBytes hcas cell := by
  obtain ⟨_, aligned, _, recv, flag, send, ctrl, _⟩ := roceLayout_eq accepted
  have pages : packBytes ∣ slotBytes :=
    Nat.dvd_trans (by decide : packBytes ∣ 4096) (Nat.dvd_of_mod_eq_zero aligned)
  have stride : packBytes ∣ flagStride := by decide
  have flags : packBytes ∣ layout.flagOff := flag ▸ Dvd.dvd.mul_left pages _
  have sends : packBytes ∣ layout.sendOff := send ▸ Nat.dvd_add flags (Dvd.dvd.mul_left stride _)
  have ctrls : packBytes ∣ layout.ctrlOff := ctrl ▸ Nat.dvd_add sends (Dvd.dvd.mul_left pages _)
  have word : 4 ∣ packBytes := by decide
  cases cell with
  | recv source slot pack =>
    rw [address, recv, Nat.zero_add]
    exact Nat.dvd_add (Dvd.dvd.mul_left pages _) (Dvd.intro_left _ rfl)
  | flag source slot hca =>
    exact Nat.dvd_add (Nat.dvd_trans word flags)
      (Dvd.dvd.mul_left (Nat.dvd_trans word stride) _)
  | send slot pack =>
    exact Nat.dvd_add (Nat.dvd_add sends (Dvd.dvd.mul_left pages _)) (Dvd.intro_left _ rfl)
  | ctrl index => exact Nat.dvd_add (Nat.dvd_trans word ctrls) (Dvd.intro_left _ rfl)

/-- The three parties of a region may compute their addresses apart: for every accepted
geometry every cell lies aligned inside the region and no two cells share a byte. -/
theorem region_sound (accepted : roceLayout world slotBytes = some layout)
    (cards : hcas ≤ maxHcas) {cell : Cell} (used : cell.Used world slotBytes hcas) :
    address layout slotBytes hcas cell + cell.width ≤ layout.total ∧
      cell.width ∣ address layout slotBytes hcas cell ∧
      ∀ other : Cell, other.Used world slotBytes hcas → other ≠ cell →
        address layout slotBytes hcas cell + cell.width ≤ address layout slotBytes hcas other ∨
          address layout slotBytes hcas other + other.width ≤
            address layout slotBytes hcas cell :=
  ⟨address_inside accepted cards used, address_aligned accepted cell,
    fun _ used' different => address_apart accepted cards used used' (Ne.symm different)⟩

/-- Four ranks with two network cards each and slots of 16 MiB. -/
theorem region_sound_four :
    address ⟨0, 134217728, 134219776, 167774208, 167774336⟩ 16777216 2 (.flag 3 1 1) + 4 ≤
        167774336 ∧
      4 ∣ address ⟨0, 134217728, 134219776, 167774208, 167774336⟩ 16777216 2 (.flag 3 1 1) := by
  have sound := @region_sound 4 16777216 2 ⟨0, 134217728, 134219776, 167774208, 167774336⟩
    (by decide) (by decide) (.flag 3 1 1) (by decide)
  exact ⟨sound.1, sound.2.1⟩

end Accepted

section Stripes

/-- Packs a network card carries of a payload. -/
def stripePacks (total hcas hca : ℕ) : ℕ := total / hcas + if hca < total % hcas then 1 else 0

/-- The first pack of a network card's stripe: `pack_offset` when the loop reaches it. -/
def stripeOffset (total hcas : ℕ) : ℕ → ℕ
  | 0 => 0
  | hca + 1 => stripeOffset total hcas hca + stripePacks total hcas hca

/-- The packs of a stripe. -/
def stripe (total hcas hca : ℕ) : List ℕ :=
  (List.range (stripePacks total hcas hca)).map (stripeOffset total hcas hca + ·)

/-- A stripe reaches from its offset to the next one's. -/
theorem mem_stripe {total hcas hca pack : ℕ} : pack ∈ stripe total hcas hca ↔
    stripeOffset total hcas hca ≤ pack ∧ pack < stripeOffset total hcas (hca + 1) := by
  rw [stripe, List.mem_map, stripeOffset]
  constructor
  · rintro ⟨index, listed, rfl⟩
    have small := List.mem_range.mp listed
    omega
  · rintro ⟨above, below⟩
    exact ⟨pack - stripeOffset total hcas hca, List.mem_range.mpr (by omega), by omega⟩

/-- The offsets in closed form: the remainder goes to the first network cards. -/
theorem stripeOffset_eq (total hcas hca : ℕ) :
    stripeOffset total hcas hca = hca * (total / hcas) + min hca (total % hcas) := by
  induction hca with
  | zero => rw [stripeOffset, Nat.zero_mul, Nat.zero_min]
  | succ hca ih =>
    rw [stripeOffset, ih, stripePacks, Nat.succ_mul]
    split <;> omega

/-- The stripes end where the payload ends. -/
theorem stripeOffset_last {total hcas : ℕ} (positive : 0 < hcas) :
    stripeOffset total hcas hcas = total := by
  have rest := Nat.mod_lt total positive
  rw [stripeOffset_eq, Nat.min_eq_right (Nat.le_of_lt rest), Nat.div_add_mod]

/-- Stripes of later cards begin later, so the stripes of a payload follow one another. -/
theorem stripeOffset_mono {total hcas lower upper : ℕ} (ordered : lower ≤ upper) :
    stripeOffset total hcas lower ≤ stripeOffset total hcas upper := by
  induction ordered with
  | refl => exact Nat.le_refl _
  | step _ ih =>
    rw [stripeOffset]
    omega

/-- No pack is in the stripes of two network cards. -/
theorem stripe_disjoint {total hcas hca other pack : ℕ} (mine : pack ∈ stripe total hcas hca)
    (yours : pack ∈ stripe total hcas other) : hca = other := by
  rw [mem_stripe] at mine yours
  rcases Nat.lt_trichotomy hca other with less | same | more
  · have ordered := @stripeOffset_mono total hcas _ _ (show hca + 1 ≤ other from less)
    omega
  · exact same
  · have ordered := @stripeOffset_mono total hcas _ _ (show other + 1 ≤ hca from more)
    omega

/-- Every pack of a payload is in some network card's stripe. -/
theorem exists_stripe {total hcas pack : ℕ} (inside : pack < total) (positive : 0 < hcas) :
    ∃ hca < hcas, pack ∈ stripe total hcas hca := by
  have covered : ∀ count, pack < stripeOffset total hcas count →
      ∃ hca < count, pack ∈ stripe total hcas hca := by
    intro count
    induction count with
    | zero => exact fun none => absurd none (Nat.not_lt_zero pack)
    | succ count ih =>
      intro below
      by_cases earlier : pack < stripeOffset total hcas count
      · obtain ⟨hca, less, mine⟩ := ih earlier
        exact ⟨hca, Nat.lt_succ_of_lt less, mine⟩
      · exact ⟨count, Nat.lt_succ_self count, mem_stripe.mpr ⟨Nat.le_of_not_lt earlier, below⟩⟩
  exact covered hcas (by rw [stripeOffset_last positive]; exact inside)

/-- A stripe has no pack beyond the payload. -/
theorem stripe_inside {total hcas hca pack : ℕ} (known : hca < hcas)
    (mine : pack ∈ stripe total hcas hca) : pack < total := by
  have positive : 0 < hcas := Nat.zero_lt_of_lt known
  have ordered := @stripeOffset_mono total hcas _ _ (Nat.succ_le_of_lt known)
  rw [stripeOffset_last positive] at ordered
  exact Nat.lt_of_lt_of_le (mem_stripe.mp mine).2 ordered

end Stripes

end GlmSpark.RoceLayout
