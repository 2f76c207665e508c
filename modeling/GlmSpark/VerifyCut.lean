import GlmSpark.Blocks
import GlmSpark.Launch
import GlmSpark.Ragged

/-!
# The row map of the verify cut

`glm_verify_cut.py` keeps the query rows of a verify batch and maps the rows of drafts that
are not worth verifying to the first row of their request, and padding rows to row 0. A
Triton kernel writes the map block by block, each program going through all requests;
`rows_reference` goes through the rows of one request after another.

Vectors over the rows of a program are functions of the row.
-/

namespace GlmSpark.VerifyCut

open Launch Program Ragged

/-- The kernel's buffers. -/
inductive Cell
  | qsl (i : ℕ)
  | cu (i : ℕ)
  | idx (r : ℕ)
  | live (slot : ℤ)
  | rowSrc (row : ℕ)
  | dead (row : ℕ)
  deriving DecidableEq

section Kernel

/-- A program of the launch. -/
abbrev Kernel (α : Type) := Program Cell ℤ α

/-- Load one word. -/
def loadWord (cell : Cell) : Kernel ℤ :=
  .load (fun other => other = cell) fun memory => pure (memory cell)

/-- `(rows < qe) & (j >= 1) & (j <= nd) & (j > lv)` at a row. -/
def cut (qs qe nd lv row : ℤ) : Bool :=
  row < qe ∧ row - qs ≥ 1 ∧ row - qs ≤ nd ∧ row - qs > lv

/-- `src` and `dead`. -/
@[ext] structure Lanes where
  src : ℕ → ℤ
  dead : ℕ → Bool

/-- One request of the kernel's loop: its bounds are loaded and the rows past its live drafts are
marked. -/
def rowsTurn (lanes : Lanes) (r : ℕ) : Kernel Lanes := do
  let qs ← loadWord (.qsl r)
  let qe ← loadWord (.qsl (r + 1))
  let stop ← loadWord (.cu (r + 1))
  let start ← loadWord (.cu r)
  let nd := stop - start - 1
  let slot ← loadWord (.idx r)
  let length ← loadWord (.live slot)
  let lv := min length nd
  pure {
    src := fun row => if cut qs qe nd lv row then qs else lanes.src row
    dead := fun row => lanes.dead row || cut qs qe nd lv row }

/-- Store the sources of the program's rows. -/
def storeSrc (block nPad pid : ℕ) (lanes : Lanes) : Kernel Unit :=
  .store (fun
    | .rowSrc row =>
      if pid * block ≤ row ∧ row < (pid + 1) * block ∧ row < nPad then some (lanes.src row)
      else none
    | _ => none) (pure ())

/-- Store the dead flags of the program's rows. -/
def storeDead (block nPad pid : ℕ) (lanes : Lanes) : Kernel Unit :=
  .store (fun
    | .dead row =>
      if pid * block ≤ row ∧ row < (pid + 1) * block ∧ row < nPad then
        some (if lanes.dead row then 1 else 0)
      else none
    | _ => none) (pure ())

/-- The vectors before the loop. -/
def Lanes.initial (nTok : ℕ) : Lanes where
  src row := if row < nTok then row else 0
  dead row := (row : ℤ) < 0

/-- `_vc_rows_kernel`: the loop over all requests, then the stores of the program's own rows. -/
def vcRowsKernel (block nReq nTok nPad pid : ℕ) : Kernel Unit := do
  let lanes ← (List.range nReq).foldlM rowsTurn (.initial nTok)
  storeSrc block nPad pid lanes
  storeDead block nPad pid lanes

/-- `launch_rows`: the program of each block of padded rows. -/
def launchRows (block nReq nTok nPad : ℕ) (pid : Fin (Blocks.cdiv nPad block)) : Kernel Unit :=
  vcRowsKernel block nReq nTok nPad pid

end Kernel

section Reference

/-- The arrays `rows_reference` reads. -/
structure Inputs where
  qsl : ℕ → ℤ
  cu : ℕ → ℤ
  idx : ℕ → ℤ
  live : ℤ → ℤ

/-- `nd` of a request: the drafts it was scheduled with. -/
def Inputs.nd (inputs : Inputs) (r : ℕ) : ℤ := inputs.cu (r + 1) - inputs.cu r - 1

/-- `lv` of a request: the drafts that are live, at most those it has. -/
def Inputs.lv (inputs : Inputs) (r : ℕ) : ℤ := min (inputs.live (inputs.idx r)) (inputs.nd r)

/-- `range(start, stop)`. -/
def pyRange (start stop : ℤ) : List ℤ :=
  (List.range (stop - start).toNat).map fun k => start + (k : ℕ)

/-- `list[i] = value`; outside the list it raises. -/
def setItem {α : Type} (list : List α) (i : ℤ) (value : α) : Option (List α) :=
  if 0 ≤ i ∧ i < list.length then some (list.set i.toNat value)
  else if i < 0 ∧ 0 ≤ i + list.length then some (list.set (i + list.length).toNat value)
  else none

/-- One draft row of the inner loop. -/
def referenceRow (qs qe : ℤ) (state : List ℤ × List Bool) (j : ℤ) :
    Option (List ℤ × List Bool) :=
  if qs + j < qe then do
    let src ← setItem state.1 (qs + j) qs
    let dead ← setItem state.2 (qs + j) true
    some (src, dead)
  else some state

/-- One request of the reference's outer loop, which assigns row by row and raises outside the list.
-/
def referenceTurn (inputs : Inputs) (state : List ℤ × List Bool) (r : ℕ) :
    Option (List ℤ × List Bool) :=
  (pyRange (inputs.lv r + 1) (inputs.nd r + 1)).foldlM
    (referenceRow (inputs.qsl r) (inputs.qsl (r + 1))) state

/-- `rows_reference`: the same map in Python, over the padded rows. -/
def rowsReference (inputs : Inputs) (nReq nTok nPad : ℕ) : Option (List ℤ × List Bool) :=
  (List.range nReq).foldlM (referenceTurn inputs)
    ((List.range nPad).map fun r => if r < nTok then (r : ℤ) else 0,
      (List.range nPad).map fun _ => false)

end Reference

section Rows

variable (inputs : Inputs)

/-- Whether a request cuts a row. -/
def Inputs.cuts (r row : ℕ) : Bool :=
  cut (inputs.qsl r) (inputs.qsl (r + 1)) (inputs.nd r) (inputs.lv r) row

/-- What a request leaves of the vectors. -/
def Inputs.turn (lanes : Lanes) (r : ℕ) : Lanes where
  src row := if inputs.cuts r row then inputs.qsl r else lanes.src row
  dead row := lanes.dead row || inputs.cuts r row

/-- The vectors after all requests. -/
def Inputs.rows (nReq nTok : ℕ) : Lanes := (List.range nReq).foldl inputs.turn (.initial nTok)

/-- A turn of the loop sends the rows it cuts to the first row of their request. -/
@[simp] theorem turn_src (lanes : Lanes) (r row : ℕ) : (inputs.turn lanes r).src row =
    if inputs.cuts r row then inputs.qsl r else lanes.src row := rfl

/-- It marks the rows it cuts as dead; a dead row stays dead. -/
@[simp] theorem turn_dead (lanes : Lanes) (r row : ℕ) :
    (inputs.turn lanes r).dead row = (lanes.dead row || inputs.cuts r row) := rfl

/-- A row no request cuts keeps what it had. -/
theorem foldl_turn_quiet (lanes : Lanes) (rs : List ℕ) (row : ℕ)
    (quiet : ∀ r ∈ rs, inputs.cuts r row = false) :
    (rs.foldl inputs.turn lanes).src row = lanes.src row ∧
      (rs.foldl inputs.turn lanes).dead row = lanes.dead row := by
  induction rs generalizing lanes with
  | nil => exact ⟨rfl, rfl⟩
  | cons r rs ih =>
    obtain ⟨src, dead⟩ := ih (inputs.turn lanes r) fun r listed =>
      quiet r (List.mem_cons_of_mem _ listed)
    have passed := quiet r List.mem_cons_self
    rw [List.foldl_cons, src, dead, turn_src, turn_dead, passed]
    exact ⟨rfl, Bool.or_false _⟩

/-- A row one request cuts, and no other, has that request's source. -/
theorem foldl_turn_cut (lanes : Lanes) (rs : List ℕ) (r row : ℕ) (listed : r ∈ rs)
    (own : inputs.cuts r row = true)
    (only : ∀ other ∈ rs, inputs.cuts other row = true → other = r) :
    (rs.foldl inputs.turn lanes).src row = inputs.qsl r ∧
      (rs.foldl inputs.turn lanes).dead row = true := by
  induction rs generalizing lanes with
  | nil => exact nomatch listed
  | cons first rs ih =>
    rw [List.foldl_cons]
    by_cases later : r ∈ rs
    · exact ih (inputs.turn lanes first) later fun other listed =>
        only other (List.mem_cons_of_mem _ listed)
    · obtain rfl : r = first := (List.mem_cons.mp listed).resolve_right later
      have quiet : ∀ other ∈ rs, inputs.cuts other row = false := by
        intro other listed
        by_contra cutting
        have same := only other (List.mem_cons_of_mem _ listed) (Bool.of_not_eq_false cutting)
        exact later (same ▸ listed)
      obtain ⟨src, dead⟩ := foldl_turn_quiet inputs (inputs.turn lanes r) rs row quiet
      rw [src, dead, turn_src, turn_dead, own]
      exact ⟨rfl, Bool.or_true _⟩

end Rows

section Launching

/-- The memory holds the arrays of so many requests. -/
structure Holds (inputs : Inputs) (nReq : ℕ) (memory : Cell → ℤ) : Prop where
  qsl : ∀ i ≤ nReq, memory (.qsl i) = inputs.qsl i
  cu : ∀ i ≤ nReq, memory (.cu i) = inputs.cu i
  idx : ∀ r < nReq, memory (.idx r) = inputs.idx r
  live : ∀ r < nReq, memory (.live (inputs.idx r)) = inputs.live (inputs.idx r)

/-- Loading a word gives what memory holds and leaves memory alone. -/
@[simp] theorem run_loadWord (cell : Cell) (memory : Cell → ℤ) :
    run (loadWord cell) memory = (memory cell, memory) := by
  simp [loadWord, run, visible]

variable {inputs : Inputs} {nReq : ℕ} {memory : Cell → ℤ}

/-- A turn of the kernel reads its request and changes no cell. -/
theorem run_rowsTurn (holds : Holds inputs nReq memory) (lanes : Lanes) {r : ℕ} (inside : r < nReq) :
    run (rowsTurn lanes r) memory = (inputs.turn lanes r, memory) := by
  simp only [rowsTurn, run_bind, run_loadWord, run_pure, holds.qsl r inside.le,
    holds.qsl (r + 1) inside, holds.cu r inside.le, holds.cu (r + 1) inside, holds.idx r inside,
    holds.live r inside]
  rfl

/-- The loop of the kernel over the requests loads their words and computes the turns of the model;
memory is only read. -/
theorem run_rowsTurns (holds : Holds inputs nReq memory) (rs : List ℕ) (lanes : Lanes)
    (inside : ∀ r ∈ rs, r < nReq) :
    run (rs.foldlM rowsTurn lanes) memory = (rs.foldl inputs.turn lanes, memory) := by
  induction rs generalizing lanes with
  | nil => rfl
  | cons r rs ih =>
    rw [List.foldlM_cons, run_bind, run_rowsTurn holds lanes (inside r List.mem_cons_self)]
    exact ih _ fun r listed => inside r (List.mem_cons_of_mem _ listed)

/-- A program alone writes the map at its rows. -/
theorem run_vcRowsKernel (holds : Holds inputs nReq memory) (block nTok nPad pid row : ℕ)
    (own : pid * block ≤ row ∧ row < (pid + 1) * block ∧ row < nPad) :
    (run (vcRowsKernel block nReq nTok nPad pid) memory).2 (.rowSrc row) =
        (inputs.rows nReq nTok).src row ∧
      (run (vcRowsKernel block nReq nTok nPad pid) memory).2 (.dead row) =
        if (inputs.rows nReq nTok).dead row then 1 else 0 := by
  rw [vcRowsKernel, run_bind, run_rowsTurns holds _ _ fun r listed => List.mem_range.mp listed,
    ← Inputs.rows, run_bind, storeSrc, storeDead]
  simp only [run, run_pure, written, if_pos own, Option.getD_some, Option.getD_none, and_self]

/-- The cells a program writes. -/
def Owned (block nPad pid : ℕ) (cell : Cell) : Prop :=
  ∃ row, (pid * block ≤ row ∧ row < (pid + 1) * block ∧ row < nPad) ∧
    (cell = .rowSrc row ∨ cell = .dead row)

/-- The cells programs read. -/
def Given : Cell → Prop
  | .rowSrc _ | .dead _ => False
  | _ => True

/-- A program reads the inputs and writes its rows. -/
theorem within_vcRowsKernel (block nReq nTok nPad pid : ℕ) :
    Within Given (Owned block nPad pid) (vcRowsKernel block nReq nTok nPad pid) := by
  have word : ∀ cell, Given cell → Within Given (Owned block nPad pid) (loadWord cell) := by
    intro cell given
    refine ⟨fun other same => ?_, fun _ => trivial⟩
    rwa [of_decide_eq_true same]
  have turn : ∀ lanes r, Within Given (Owned block nPad pid) (rowsTurn lanes r) := by
    intro lanes r
    refine (word (.qsl r) trivial).bind fun qs => ?_
    refine (word (.qsl (r + 1)) trivial).bind fun qe => ?_
    refine (word (.cu (r + 1)) trivial).bind fun stop => ?_
    refine (word (.cu r) trivial).bind fun start => ?_
    refine (word (.idx r) trivial).bind fun slot => ?_
    exact (word (.live slot) trivial).bind fun length => trivial
  have turns : ∀ (rs : List ℕ) lanes, Within Given (Owned block nPad pid)
      (rs.foldlM rowsTurn lanes) := by
    intro rs
    induction rs with
    | nil => exact fun _ => trivial
    | cons r rs ih =>
      intro lanes
      rw [List.foldlM_cons]
      exact (turn lanes r).bind ih
  refine (turns _ _).bind fun lanes => Within.bind ⟨fun cell stored => ?_, trivial⟩ fun _ =>
    ⟨fun cell stored => ?_, trivial⟩
  · cases cell with
    | rowSrc row =>
      dsimp only at stored
      split at stored
      next own => exact ⟨row, own, Or.inl rfl⟩
      next => exact nomatch stored
    | _ => exact nomatch stored
  · cases cell with
    | dead row =>
      dsimp only at stored
      split at stored
      next own => exact ⟨row, own, Or.inr rfl⟩
      next => exact nomatch stored
    | _ => exact nomatch stored

/-- A cell of the row vectors belongs to one program only, so the programs do not race. -/
theorem Owned.same {block nPad pid other : ℕ} {cell : Cell} (one : Owned block nPad pid cell)
    (also : Owned block nPad other cell) : pid = other := by
  obtain ⟨row, ⟨above, below, _⟩, here⟩ := one
  obtain ⟨row', ⟨above', below', _⟩, here'⟩ := also
  obtain rfl : row = row' := by
    rcases here with rfl | rfl
    · simpa using here'
    · simpa using here'
  have first := Nat.lt_of_mul_lt_mul_right (above.trans_lt below')
  have second := Nat.lt_of_mul_lt_mul_right (above'.trans_lt below)
  omega

/-- However the programs are interleaved, they write the map at all rows up to the padding. -/
theorem launchRows_map (holds : Holds inputs nReq memory) {block nTok nPad : ℕ} (positive : 0 < block)
    {final : Cell → ℤ} (launch : Launches (launchRows block nReq nTok nPad) memory final) (row : ℕ)
    (inside : row < nPad) :
    final (.rowSrc row) = (inputs.rows nReq nTok).src row ∧
      final (.dead row) = if (inputs.rows nReq nTok).dead row then 1 else 0 := by
  have bounds := fun pid cell => (within_vcRowsKernel block nReq nTok nPad pid).bounds memory cell
  have free : RaceFree (launchRows block nReq nTok nPad) memory := by
    intro one other different cell touched wrote
    have owned := (bounds other cell).2 wrote
    rcases touched with read | also
    · have given := (bounds one cell).1 read
      obtain ⟨row, _, rfl | rfl⟩ := owned
      · exact given
      · exact given
    · exact different (Fin.ext (Owned.same ((bounds one cell).2 also) owned))
  have block_lt : row / block < Blocks.cdiv nPad block := by
    rw [Blocks.lt_cdiv _ _ _ positive]
    exact (Nat.div_mul_le_self row block).trans_lt inside
  have own : row / block * block ≤ row ∧ row < (row / block + 1) * block ∧ row < nPad :=
    ⟨Nat.div_mul_le_self row block, Nat.lt_mul_of_div_lt (Nat.lt_succ_self _) positive, inside⟩
  have alone : ∀ cell, Owned block nPad (row / block) cell →
      final cell = (run (vcRowsKernel block nReq nTok nPad (row / block)) memory).2 cell := by
    intro cell owned
    refine launches_alone free launch ⟨row / block, block_lt⟩ cell fun other different wrote => ?_
    exact different (Fin.ext (Owned.same ((bounds other cell).2 wrote) owned))
  rw [alone _ ⟨row, own, Or.inl rfl⟩, alone _ ⟨row, own, Or.inr rfl⟩]
  exact run_vcRowsKernel holds block nTok nPad (row / block) row own

end Launching

section Iterating

/-- The vectors of the rows up to the padding, as lists. -/
def Lanes.lists (lanes : Lanes) (nPad : ℕ) : List ℤ × List Bool :=
  ((List.range nPad).map lanes.src, (List.range nPad).map lanes.dead)

/-- Python's `range` holds the numbers from its start up to its stop, and none where they are the
wrong way round. -/
theorem mem_pyRange (start stop i : ℤ) : i ∈ pyRange start stop ↔ start ≤ i ∧ i < stop := by
  simp only [pyRange, List.mem_map, List.mem_range]
  constructor
  · rintro ⟨k, below, rfl⟩
    omega
  · rintro ⟨above, below⟩
    exact ⟨(i - start).toNat, by omega, by omega⟩

/-- Assigning an item within a list that is made from a function is updating the function. -/
theorem setItem_range {α : Type} (f : ℕ → α) (nPad : ℕ) (i : ℕ) (value : α) (inside : i < nPad) :
    setItem ((List.range nPad).map f) i value =
      some ((List.range nPad).map (Function.update f i value)) := by
  have within : (0 : ℤ) ≤ i ∧ (i : ℤ) < ((List.range nPad).map f).length := by
    simp only [List.length_map, List.length_range]
    omega
  rw [setItem, if_pos within, Int.toNat_natCast]
  congr 1
  apply List.ext_getElem?
  intro k
  by_cases here : k = i
  · subst here
    rw [List.getElem?_set_self (by simpa using inside), List.getElem?_map,
      List.getElem?_range inside, Option.map_some, Function.update_self]
  · rw [List.getElem?_set_ne (Ne.symm here), List.getElem?_map, List.getElem?_map]
    by_cases below : k < nPad
    · rw [List.getElem?_range below, Option.map_some, Option.map_some, Function.update_of_ne here]
    · rw [List.getElem?_eq_none (by simpa using below), Option.map_none, Option.map_none]

/-- One draft row, as vectors. -/
def Lanes.put (qs : ℕ) (qe : ℤ) (lanes : Lanes) (j : ℤ) : Lanes :=
  if qs + j < qe then
    ⟨Function.update lanes.src (qs + j).toNat qs, Function.update lanes.dead (qs + j).toNat true⟩
  else lanes

/-- The inner loop assigns within the lists. -/
theorem referenceRows_lists {qs nPad : ℕ} {qe : ℤ} (fits : qe ≤ nPad) (js : List ℤ)
    (lanes : Lanes) (forward : ∀ j ∈ js, 0 ≤ j) :
    js.foldlM (referenceRow qs qe) (lanes.lists nPad) =
      some ((js.foldl (Lanes.put qs qe) lanes).lists nPad) := by
  induction js generalizing lanes with
  | nil => rfl
  | cons j js ih =>
    have here := forward j List.mem_cons_self
    have row : referenceRow qs qe (lanes.lists nPad) j = some ((lanes.put qs qe j).lists nPad) := by
      rw [referenceRow, Lanes.put]
      split
      next inside =>
        have cell : (qs : ℤ) + j = ((qs + j).toNat : ℕ) := by omega
        have below : (qs + j).toNat < nPad := by omega
        rw [cell, Lanes.lists, setItem_range _ _ _ _ below, setItem_range _ _ _ _ below]
        rfl
      next => rfl
    rw [List.foldlM_cons, row]
    exact ih _ fun j listed => forward j (List.mem_cons_of_mem _ listed)

/-- What the inner loop leaves at a row. -/
theorem foldl_put (qs : ℕ) (qe : ℤ) (js : List ℤ) (lanes : Lanes) (forward : ∀ j ∈ js, 0 ≤ j)
    (row : ℕ) :
    (js.foldl (Lanes.put qs qe) lanes).src row =
        (if (row : ℤ) < qe ∧ (row : ℤ) - qs ∈ js then (qs : ℤ) else lanes.src row) ∧
      (js.foldl (Lanes.put qs qe) lanes).dead row =
        (lanes.dead row || decide ((row : ℤ) < qe ∧ (row : ℤ) - qs ∈ js)) := by
  induction js generalizing lanes with
  | nil => simp
  | cons j js ih =>
    obtain ⟨src, dead⟩ := ih (lanes.put qs qe j) fun j listed =>
      forward j (List.mem_cons_of_mem _ listed)
    have here := forward j List.mem_cons_self
    rw [List.foldl_cons, src, dead]
    by_cases own : (row : ℤ) - qs = j
    · have cell : (qs + j).toNat = row := by omega
      have reach : (qs : ℤ) + j < qe ↔ (row : ℤ) < qe := by omega
      by_cases inside : (row : ℤ) < qe
      · simp [Lanes.put, reach, inside, cell, own]
      · simp [Lanes.put, reach, inside]
    · have other : row ≠ (qs + j).toNat := by omega
      have listed : (row : ℤ) - qs ∈ j :: js ↔ (row : ℤ) - qs ∈ js := by simp [own]
      have kept : (lanes.put qs qe j).src row = lanes.src row ∧
          (lanes.put qs qe j).dead row = lanes.dead row := by
        rw [Lanes.put]
        split
        next => exact ⟨Function.update_of_ne other _ _, Function.update_of_ne other _ _⟩
        next => exact ⟨rfl, rfl⟩
      simp only [listed, kept, and_self]

variable {inputs : Inputs} {nReq nTok nPad : ℕ}

/-- One request of the reference is one turn of the kernel. -/
theorem referenceTurn_lists (lanes : Lanes) (r : ℕ) {qs : ℕ} (start : inputs.qsl r = qs)
    (fits : inputs.qsl (r + 1) ≤ nPad) (nonneg : 0 ≤ inputs.lv r) :
    referenceTurn inputs (lanes.lists nPad) r = some ((inputs.turn lanes r).lists nPad) := by
  have forward : ∀ j ∈ pyRange (inputs.lv r + 1) (inputs.nd r + 1), 0 ≤ j := by
    intro j listed
    have above := ((mem_pyRange _ _ j).mp listed).1
    omega
  have same : (pyRange (inputs.lv r + 1) (inputs.nd r + 1)).foldl
      (Lanes.put qs (inputs.qsl (r + 1))) lanes = inputs.turn lanes r := by
    have cuts : ∀ row : ℕ, inputs.cuts r row = true ↔ (row : ℤ) < inputs.qsl (r + 1) ∧
        (row : ℤ) - qs ∈ pyRange (inputs.lv r + 1) (inputs.nd r + 1) := by
      intro row
      rw [Inputs.cuts, cut, decide_eq_true_iff, mem_pyRange, start]
      omega
    have rows := foldl_put qs (inputs.qsl (r + 1)) _ lanes forward
    ext row
    · rw [(rows row).1, turn_src]
      simp only [cuts row, start]
    · rw [(rows row).2, turn_dead]
      congr 1
      rw [Bool.eq_iff_iff, decide_eq_true_iff, cuts row]
  rw [referenceTurn, start, referenceRows_lists fits _ _ forward, same]

/-- The reference computes the vectors of the kernel. -/
theorem rowsReference_lists (starts : ∀ r < nReq, 0 ≤ inputs.qsl r)
    (fits : ∀ r < nReq, inputs.qsl (r + 1) ≤ nPad) (nonneg : ∀ r < nReq, 0 ≤ inputs.lv r) :
    rowsReference inputs nReq nTok nPad = some ((inputs.rows nReq nTok).lists nPad) := by
  have general : ∀ (rs : List ℕ) (lanes : Lanes), (∀ r ∈ rs, r < nReq) →
      rs.foldlM (referenceTurn inputs) (lanes.lists nPad) =
        some ((rs.foldl inputs.turn lanes).lists nPad) := by
    intro rs
    induction rs with
    | nil => exact fun _ _ => rfl
    | cons r rs ih =>
      intro lanes inside
      have first := inside r List.mem_cons_self
      rw [List.foldlM_cons, referenceTurn_lists lanes r (Int.toNat_of_nonneg (starts r first)).symm
        (fits r first) (nonneg r first)]
      exact ih _ fun r listed => inside r (List.mem_cons_of_mem _ listed)
  have initial : (Lanes.initial nTok).lists nPad =
      ((List.range nPad).map fun r => if r < nTok then (r : ℤ) else 0,
        (List.range nPad).map fun _ => false) := by
    refine Prod.ext rfl (List.map_congr_left fun row _ => ?_)
    exact decide_eq_false (Int.not_lt.mpr (Int.natCast_nonneg row))
  rw [rowsReference, ← initial]
  exact general _ _ fun r listed => List.mem_range.mp listed

end Iterating

end GlmSpark.VerifyCut
