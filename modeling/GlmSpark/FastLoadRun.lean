import GlmSpark.FastLoad
import Mathlib.Data.List.Induction

/-!
# Runs of the weight iterator

Between the steps of its loop the iterator keeps one invariant: running reads are those of
the ready slabs, and every unit not taken yet has its descriptor open. Filling, taking a
unit and closing a file keep it, so every run is safe. What is owed to the consumer is what
the stock iterator would still hand out; each step moves it over, until nothing is left.
-/

namespace GlmSpark.FastLoad

/-! ### The invariant of the loop -/

/-- The units not taken yet, in order. -/
def State.queue (state : State) : List Planned :=
  state.ready.map Submitted.toPlanned ++ state.stream

/-- The tickets of the slabs in the ready queue. -/
def tickets (ready : List Submitted) : List Ticket :=
  ready.filterMap fun item => match item.unit with
    | .slab _ _ => some item.ticket
    | .mmap _ => none

namespace Loader

variable (loader : Loader)

/-- A planned unit is one of its file's plan. -/
def FromPlan (planned : Planned) : Prop :=
  loader.parseHeader planned.fs.path = (planned.fs.base, planned.fs.header) ∧
    planned.unit ∈ loader.units planned.fs.path

/-- What holds between the steps of the loop, with a unit that was taken held back: running
reads are those of the ready slabs, every unit's descriptor is open for its file, and no unit
after the last one of its file uses the same descriptor. -/
structure Inv (held : List Planned) (state : State) : Prop where
  safe : Safe state.events
  running : outstanding state.events = tickets state.ready
  opened : ∀ p ∈ held ++ state.queue, descriptor state.events p.fs.fd = some p.fs.path
  ends : (held ++ state.queue).Pairwise fun p later =>
    (p.i : Int) = p.fs.lastIdx → p.fs.fd ≠ later.fs.fd
  planned : ∀ p ∈ state.queue, loader.FromPlan p
  counted : state.inflight = (state.ready.map fun item => item.unit.size).sum

/-- What is still owed to the consumer: a path and a name each. -/
def owed (state : State) : List (String × String) :=
  state.queue.flatMap (fun p => p.unit.names.map fun name => (p.fs.path, name)) ++
    state.files.flatMap fun path => (loader.names path).map fun name => (path, name)

/-- The units still to be taken, those of files that were not planned yet among them. -/
def unitsLeft (state : State) : Nat :=
  state.queue.length + (state.files.map fun path => (loader.units path).length).sum

/-- Planning and submitting change neither what is owed nor what was handed out. -/
structure Refilled (before after : State) : Prop where
  owed : loader.owed after = loader.owed before
  yields : yields after.events = FastLoad.yields before.events
  left : loader.unitsLeft after = loader.unitsLeft before
  grown : before.ready.length ≤ after.ready.length

variable {loader}

/-- Doing nothing refills: nothing is handed out and nothing that is owed is lost. -/
theorem Refilled.refl (state : State) : loader.Refilled state state := ⟨rfl, rfl, rfl, le_rfl⟩

/-- Two refills in a row are one. The loops of `plan_stream` and `fill` compose their steps by it.
-/
theorem Refilled.trans {first second third : State} (one : loader.Refilled first second)
    (two : loader.Refilled second third) : loader.Refilled first third :=
  ⟨two.owed.trans one.owed, two.yields.trans one.yields, two.left.trans one.left,
    one.grown.trans two.grown⟩

/-- The units of a file as the stream holds them. -/
def planned (loader : Loader) (path : String) (fd : Nat) : List Planned :=
  (loader.units path).zipIdx.map fun (unit, i) =>
    ⟨⟨path, fd, (loader.parseHeader path).1, (loader.parseHeader path).2,
      ((loader.units path).length : Int) - 1⟩, unit, i⟩

/-- A planned unit belongs to its file, carries its descriptor and comes from the file's plan. -/
theorem mem_planned {path : String} {fd : Nat} {p : Planned} (member : p ∈ loader.planned path fd) :
    p.fs.path = path ∧ p.fs.fd = fd ∧ loader.FromPlan p := by
  obtain ⟨⟨unit, i⟩, listed, rfl⟩ := List.mem_map.mp member
  exact ⟨rfl, rfl, rfl, (List.mem_zipIdx listed).2.2 ▸ List.getElem_mem _⟩

/-- Only the last unit of a file has the last index. -/
theorem planned_ends (path : String) (fd : Nat) :
    (loader.planned path fd).Pairwise fun p later =>
      (p.i : Int) = p.fs.lastIdx → p.fs.fd ≠ later.fs.fd := by
  rw [List.pairwise_iff_getElem]
  intro i j first second order last
  rw [planned, List.length_map, List.length_zipIdx] at second
  simp only [planned, List.getElem_map, List.getElem_zipIdx] at last
  omega

/-- A file's units hold the file's names in order, each laid out. -/
theorem units_packed (loader : Loader) (path : String) :
    (loader.units path).flatMap LoadUnit.names = loader.names path ∧
      ∀ unit ∈ loader.units path,
        LaidOut loader.available (loader.parseHeader path).2 loader.slabCap unit :=
  planFile_packed (loader.names path)

/-- The names of a file's units are the file's names. -/
theorem planned_names (path : String) (fd : Nat) :
    (loader.planned path fd).flatMap (fun p => p.unit.names.map fun name => (p.fs.path, name)) =
      (loader.names path).map fun name => (path, name) := by
  have ordered := (loader.units_packed path).1
  rw [planned, List.flatMap_map]
  conv_rhs => rw [← ordered, List.map_flatMap]
  conv_rhs => rw [← List.zipIdx_map_fst 0 (loader.units path), List.flatMap_map]

/-- Planning a file that has no units opens and closes it. -/
theorem planNextFile_empty (state : State) {path : String} (rest : List String)
    (none : loader.units path = []) :
    loader.planNextFile state path rest = { state with
      files := rest
      events := state.events ++ [.opened (loader.openFd state.events) path] ++
        [.closed (loader.openFd state.events)] } := by
  simp only [planNextFile, none, List.isEmpty_nil, if_true]

/-- Planning a file with units opens it and appends its units. -/
theorem planNextFile_units (state : State) {path : String} (rest : List String)
    (some : loader.units path ≠ []) :
    loader.planNextFile state path rest = { state with
      files := rest
      events := state.events ++ [.opened (loader.openFd state.events) path]
      openFds := state.openFds ++ [loader.openFd state.events]
      stream := state.stream ++ loader.planned path (loader.openFd state.events) } := by
  have filled : (loader.units path).isEmpty = false := by simpa using some
  simp only [planNextFile, filled, Bool.false_eq_true, if_false]
  rfl

/-- Planning a file keeps the invariant. Its descriptor is new, so reads through the others still
reach their own files; a file without units is closed at once. -/
theorem Inv.planNextFile {held : List Planned} {state : State} (inv : loader.Inv held state)
    (path : String) (rest : List String) :
    loader.Inv held (loader.planNextFile state path rest) := by
  have unopened := loader.unopened state.events
  have apart : ∀ p ∈ held ++ state.queue, p.fs.fd ≠ loader.openFd state.events := by
    intro p member same
    have opened := inv.opened p member
    rw [same, unopened] at opened
    exact Option.noConfusion rfl (heq_of_eq opened)
  have unused :
      ∀ ticket ∈ outstanding (state.events ++ [.opened (loader.openFd state.events) path]),
      ticket.fd ≠ loader.openFd state.events := by
    intro ticket member same
    rw [outstanding_snoc] at member
    have opened := inv.safe.now ticket member
    rw [same, unopened] at opened
    exact Option.noConfusion rfl (heq_of_eq opened)
  by_cases none : loader.units path = []
  · rw [planNextFile_empty state rest none]
    refine ⟨(inv.safe.opened unopened).closed unused, ?_, ?_, inv.ends, inv.planned, inv.counted⟩
    · rw [outstanding_snoc, outstanding_snoc]
      exact inv.running
    · intro p member
      rw [descriptor_snoc, descriptor_snoc]
      dsimp only
      rw [Function.update_of_ne (apart p member), Function.update_of_ne (apart p member)]
      exact inv.opened p member
  · rw [planNextFile_units state rest none]
    have queue : ({ state with
        files := rest
        events := state.events ++ [.opened (loader.openFd state.events) path]
        openFds := state.openFds ++ [loader.openFd state.events]
        stream := state.stream ++ loader.planned path (loader.openFd state.events) } : State).queue =
          state.queue ++ loader.planned path (loader.openFd state.events) :=
      (List.append_assoc _ _ _).symm
    refine ⟨inv.safe.opened unopened, ?_, ?_, ?_, ?_, inv.counted⟩
    · rw [outstanding_snoc]
      exact inv.running
    · rw [queue, ← List.append_assoc]
      intro p member
      rw [descriptor_snoc]
      dsimp only
      obtain old | new := List.mem_append.mp member
      · rw [Function.update_of_ne (apart p old)]
        exact inv.opened p old
      · obtain ⟨file, fd, _⟩ := mem_planned new
        rw [fd, file, Function.update_self]
    · rw [queue, ← List.append_assoc, List.pairwise_append]
      refine ⟨inv.ends, planned_ends path _, fun p old later new _ => ?_⟩
      rw [(mem_planned new).2.1]
      exact apart p old
    · rw [queue]
      intro p member
      obtain old | new := List.mem_append.mp member
      · exact inv.planned p old
      · exact (mem_planned new).2.2

/-- Planning the next file changes nothing that is owed. -/
theorem planNextFile_refilled {state : State} {path : String} {rest : List String}
    (next : state.files = path :: rest) :
    loader.Refilled state (loader.planNextFile state path rest) := by
  by_cases none : loader.units path = []
  · have nameless : loader.names path = [] := by
      have ordered := (loader.units_packed path).1
      rw [← ordered, none, List.flatMap_nil]
    rw [planNextFile_empty state rest none]
    refine ⟨?_, ?_, ?_, le_rfl⟩
    · rw [owed, owed, next, List.flatMap_cons, nameless]
      rfl
    · rw [yields_snoc, yields_snoc, List.append_nil, List.append_nil]
    · rw [unitsLeft, unitsLeft, next, List.map_cons, List.sum_cons, none, List.length_nil,
        Nat.zero_add]
      rfl
  · rw [planNextFile_units state rest none]
    refine ⟨?_, ?_, ?_, le_rfl⟩
    · rw [owed, owed, next, List.flatMap_cons, ← planned_names path (loader.openFd state.events),
        ← List.append_assoc, ← List.flatMap_append]
      simp only [State.queue, List.append_assoc]
    · rw [yields_snoc, List.append_nil]
    · rw [unitsLeft, unitsLeft, next, List.map_cons, List.sum_cons, ← Nat.add_assoc]
      congr 1
      simp only [State.queue, List.length_append, List.length_map, planned, List.length_zipIdx]
      omega

/-- Planning files until the stream is not empty. -/
theorem Inv.planStream {held : List Planned} (files : List String) {state : State}
    (inv : loader.Inv held state) (next : state.files = files) :
    loader.Inv held (loader.planStream files state) ∧
      loader.Refilled state (loader.planStream files state) ∧
      (loader.planStream files state).ready = state.ready ∧
      ((loader.planStream files state).stream = [] →
        (loader.planStream files state).files = []) := by
  induction files generalizing state with
  | nil => exact ⟨inv, Refilled.refl state, rfl, fun _ => next⟩
  | cons path rest ih =>
    rw [Loader.planStream]
    split
    next empty =>
      have files : (loader.planNextFile state path rest).files = rest := by
        by_cases none : loader.units path = []
        · rw [planNextFile_empty state rest none]
        · rw [planNextFile_units state rest none]
      have ready : (loader.planNextFile state path rest).ready = state.ready := by
        by_cases none : loader.units path = []
        · rw [planNextFile_empty state rest none]
        · rw [planNextFile_units state rest none]
      obtain ⟨kept, refilled, same, done⟩ := ih (inv.planNextFile path rest) files
      exact ⟨kept, (planNextFile_refilled next).trans refilled, same.trans ready, done⟩
    next filled =>
      refine ⟨inv, Refilled.refl state, rfl, fun empty => absurd ?_ filled⟩
      rw [empty, List.isEmpty_nil]

/-- Submitting a unit keeps the invariant; it fails only where nothing is left. -/
theorem Inv.submitOne {held : List Planned} {state : State} (inv : loader.Inv held state) :
    loader.Inv held (loader.submitOne state).2 ∧ loader.Refilled state (loader.submitOne state).2 ∧
      if (loader.submitOne state).1 then
        (loader.submitOne state).2.ready.length = state.ready.length + 1
      else (loader.submitOne state).2.stream = [] ∧ (loader.submitOne state).2.files = [] := by
  obtain ⟨kept, refilled, ready, done⟩ := inv.planStream state.files rfl
  rw [Loader.submitOne]
  generalize loader.planStream state.files state = next at kept refilled ready done
  dsimp only
  split
  next empty => exact ⟨kept, refilled, empty, done empty⟩
  next planned stream head =>
    have queue : ∀ slabs inflight events, ({ next with
        stream := stream, ready := next.ready ++ [⟨planned, next.slabs⟩]
        slabs := slabs, inflight := inflight, events := events } : State).queue = next.queue := by
      intro slabs inflight events
      simp only [State.queue, head, List.map_append, List.map_cons, List.map_nil,
        List.append_assoc, List.singleton_append]
    have member : planned ∈ held ++ next.queue := by
      rw [State.queue, head]
      simp
    have grown : (next.ready ++ [(⟨planned, next.slabs⟩ : Submitted)]).length =
        state.ready.length + 1 := by
      rw [List.length_append, ready, List.length_singleton]
    split
    next name unit =>
      refine ⟨⟨kept.safe, ?_, ?_, ?_, ?_, ?_⟩, ⟨?_, refilled.yields, ?_, ?_⟩, grown⟩
      · rw [kept.running, tickets, tickets, List.filterMap_append]
        simp [unit]
      · rw [queue]
        exact kept.opened
      · rw [queue]
        exact kept.ends
      · rw [queue]
        exact kept.planned
      · rw [List.map_append, List.sum_append, List.map_singleton, unit, List.sum_singleton]
        exact kept.counted
      · rw [← refilled.owed, owed, owed, queue]
      · rw [← refilled.left, unitsLeft, unitsLeft, queue]
      · exact grown ▸ Nat.le_succ _
    next entries size unit =>
      refine ⟨⟨?_, ?_, ?_, ?_, ?_, ?_⟩, ⟨?_, ?_, ?_, ?_⟩, grown⟩
      · exact kept.safe.submitted (kept.opened planned member)
      · rw [outstanding_snoc]
        dsimp only
        rw [kept.running, tickets, tickets, List.filterMap_append]
        simp [unit]
      · rw [queue]
        intro p listed
        rw [descriptor_snoc]
        exact kept.opened p listed
      · rw [queue]
        exact kept.ends
      · rw [queue]
        exact kept.planned
      · rw [List.map_append, List.sum_append, List.map_singleton, unit, List.sum_singleton,
          ← kept.counted]
        rfl
      · rw [← refilled.owed, owed, owed, queue]
      · rw [yields_snoc, List.append_nil]
        exact refilled.yields
      · rw [← refilled.left, unitsLeft, unitsLeft, queue]
      · exact grown ▸ Nat.le_succ _

/-- The read-ahead is positive, so is the limit of units. -/
theorem ahead_pos (loader : Loader) : 0 < loader.ahead := by
  have one : 0 < (max 1 loader.slabMb).toNat := by omega
  have cap : 0 < loader.slabCap := Nat.mul_pos one (Nat.two_pow_pos 20)
  exact cap.trans_le (le_max_left _ _)

/-- The limit of units is at least 64, whatever the environment says. -/
theorem maxUnits_pos (loader : Loader) : 0 < loader.maxUnits := by
  rw [maxUnits]
  omega

/-- Filling keeps the invariant; from an empty ready queue it stays empty only where nothing
is left. -/
theorem Inv.fillLoop {held : List Planned} (room : Nat) {state : State}
    (inv : loader.Inv held state) :
    loader.Inv held (loader.fillLoop room state) ∧
      loader.Refilled state (loader.fillLoop room state) ∧
      (0 < room → state.ready = [] → (loader.fillLoop room state).ready = [] →
        (loader.fillLoop room state).stream = [] ∧ (loader.fillLoop room state).files = []) := by
  induction room generalizing state with
  | zero => exact ⟨inv, Refilled.refl state, fun some => absurd some (Nat.lt_irrefl 0)⟩
  | succ room ih =>
    rw [Loader.fillLoop]
    split
    next going =>
      obtain ⟨kept, refilled, ended⟩ := inv.submitOne
      generalize loader.submitOne state = answer at kept refilled ended
      obtain ⟨more, next⟩ := answer
      cases more with
      | true =>
        obtain ⟨filled, further, _⟩ := ih kept
        refine ⟨filled, refilled.trans further, fun _ _ empty => ?_⟩
        have grown : next.ready.length ≤ 0 := by simpa [empty] using further.grown
        have counted : next.ready.length = state.ready.length + 1 := ended
        omega
      | false => exact ⟨kept, refilled, fun _ _ _ => ended⟩
    next stopped =>
      refine ⟨inv, Refilled.refl state, fun _ empty _ => absurd ?_ stopped⟩
      rw [inv.counted, empty]
      exact ⟨loader.ahead_pos, loader.maxUnits_pos⟩

/-- An empty ready queue means that nothing is left. -/
def Stocked (state : State) : Prop := state.ready = [] → state.stream = [] ∧ state.files = []

/-- A refill keeps the invariant and hands nothing out, and where the ready queue was empty it only
stays empty when no unit is left in any file. -/
theorem Inv.fill {held : List Planned} {state : State} (inv : loader.Inv held state) :
    loader.Inv held (loader.fill state) ∧ loader.Refilled state (loader.fill state) ∧
      (state.ready = [] → Stocked (loader.fill state)) := by
  obtain ⟨kept, refilled, ended⟩ := inv.fillLoop (loader.maxUnits - state.ready.length)
  refine ⟨kept, refilled, fun empty => ended ?_ empty⟩
  rw [empty]
  exact loader.maxUnits_pos

/-! ### Taking a unit -/

/-- A step ends in the invariant, or it raises in a safe run. -/
def Handled (loader : Loader) (held : List Planned) : Except State State → Prop
  | .ok state => loader.Inv held state
  | .error state => Safe state.events

/-- Handing out a tensor keeps the invariant. -/
theorem Inv.yielded {held : List Planned} {state : State} (inv : loader.Inv held state)
    (name : String) (tensor : Tensor) :
    loader.Inv held { state with events := state.events ++ [.yielded name tensor] } := by
  refine ⟨inv.safe.yielded name tensor, ?_, ?_, inv.ends, inv.planned, inv.counted⟩
  · rw [outstanding_snoc]
    exact inv.running
  · intro p member
    rw [descriptor_snoc]
    exact inv.opened p member

/-- Handing a tensor out keeps the invariant; where the consumer closes the generator the run so far
is safe. -/
theorem Inv.give {held : List Planned} {state : State} (inv : loader.Inv held state)
    (name : String) (tensor : Tensor) : loader.Handled held (loader.give state name tensor) := by
  rw [Loader.give]
  dsimp only
  split
  next => exact (inv.yielded name tensor).safe
  next => exact inv.yielded name tensor

/-- Counting a checked tensor leaves the invariant alone. -/
theorem Inv.checked {held : List Planned} {state : State} (inv : loader.Inv held state)
    (verified : String → Nat) : loader.Inv held { state with verified := verified } :=
  ⟨inv.safe, inv.running, inv.opened, inv.ends, inv.planned, inv.counted⟩

/-- So does the body of the loop over a slab's tensors, with or without the comparison with the
stock tensor. A bad view or an unequal tensor raises in a safe run. -/
theorem Inv.handOut {held : List Planned} {state : State} (inv : loader.Inv held state)
    (fs : FileState) (memory : Nat → Byte) (entry : Entry) :
    loader.Handled held (loader.handOut fs memory state entry) := by
  rw [Loader.handOut]
  split
  next => exact inv.safe
  next tensor _ =>
    split
    next =>
      split
      next =>
        exact (inv.checked _).give entry.name tensor
      next => exact inv.safe
    next => exact inv.give entry.name tensor

/-- The loop over a slab's tensors keeps the invariant. -/
theorem Inv.handOutAll {held : List Planned} (fs : FileState) (memory : Nat → Byte)
    (entries : List Entry) {state : State} (inv : loader.Inv held state) :
    loader.Handled held (entries.foldlM (loader.handOut fs memory) state) := by
  induction entries generalizing state with
  | nil => exact inv
  | cons entry rest ih =>
    rw [List.foldlM_cons]
    have step := inv.handOut fs memory entry
    cases handed : loader.handOut fs memory state entry with
    | error stopped =>
      rw [handed] at step
      exact step
    | ok next =>
      rw [handed] at step
      exact ih step

/-- Taking the oldest unit holds it back; the events end no descriptor. -/
theorem Inv.takeHead {state : State} (inv : loader.Inv [] state) {item : Submitted}
    {ready : List Submitted} (head : state.ready = item :: ready) {inflight : Nat}
    {events : List Event} (safe : Safe events) (running : outstanding events = tickets ready)
    (descriptors : descriptor events = descriptor state.events)
    (counted : inflight = (ready.map fun item => item.unit.size).sum) :
    loader.Inv [item.toPlanned]
      { state with ready := ready, inflight := inflight, events := events } := by
  have queue : [] ++ state.queue =
      [item.toPlanned] ++ (ready.map Submitted.toPlanned ++ state.stream) := by
    rw [State.queue, head]
    rfl
  refine ⟨safe, running, ?_, ?_, ?_, counted⟩
  · intro p member
    rw [descriptors]
    exact inv.opened p (queue ▸ member)
  · have ends := inv.ends
    rwa [queue] at ends
  · intro p member
    refine inv.planned p ?_
    rw [← List.nil_append state.queue, queue]
    exact List.mem_append_right _ member

/-- Taking a slab waits for its reads. -/
theorem Inv.takeSlab {state : State} (inv : loader.Inv [] state) {item : Submitted}
    {ready : List Submitted} (head : state.ready = item :: ready) {entries : List Entry}
    {size : Nat} (unit : item.unit = .slab entries size) :
    loader.Inv [item.toPlanned] { state with
      ready := ready
      inflight := state.inflight - size
      events := state.events ++ [.awaited item.ticket] } := by
  have running : outstanding state.events = item.ticket :: tickets ready := by
    rw [inv.running, head, tickets, List.filterMap_cons, unit]
    rfl
  refine inv.takeHead head (inv.safe.awaited (running ▸ List.mem_cons_self)) ?_ ?_ ?_
  · rw [outstanding_snoc]
    dsimp only
    rw [running, List.erase_cons_head]
  · exact descriptor_snoc ..
  · have counted := inv.counted
    rw [head, List.map_cons, List.sum_cons, unit] at counted
    rw [counted]
    exact Nat.add_sub_cancel_left ..

/-- Taking a unit that is passed through. -/
theorem Inv.takeMmap {state : State} (inv : loader.Inv [] state) {item : Submitted}
    {ready : List Submitted} (head : state.ready = item :: ready) {name : String}
    (unit : item.unit = .mmap name) :
    loader.Inv [item.toPlanned] { state with ready := ready } := by
  refine inv.takeHead head inv.safe ?_ rfl ?_
  · rw [inv.running, head, tickets, List.filterMap_cons, unit]
    rfl
  · have counted := inv.counted
    rw [head, List.map_cons, List.sum_cons, unit] at counted
    change _ = 0 + _ at counted
    rwa [Nat.zero_add] at counted

/-- Consuming a unit ends in the invariant with the unit held back, or raises safely. -/
theorem Inv.consume {state : State} (inv : loader.Inv [] state) {item : Submitted}
    {ready : List Submitted} (head : state.ready = item :: ready) :
    loader.Handled [item.toPlanned] (loader.consume item { state with ready := ready }) := by
  rw [Loader.consume]
  cases unit : item.unit with
  | slab entries size =>
    dsimp only
    split
    next => exact inv.safe
    next memory _ => exact (inv.takeSlab head unit).fill.1.handOutAll item.fs memory entries
  | mmap name =>
    have filled := (inv.takeMmap head unit).fill.1
    dsimp only
    split
    next => exact filled.safe
    next tensor _ => exact filled.give name tensor

/-- The end of the loop body keeps the invariant and what is owed. -/
theorem Inv.settle {item : Submitted} {state : State} (inv : loader.Inv [item.toPlanned] state) :
    loader.Inv [] (loader.settle item state) ∧ loader.Refilled state (loader.settle item state) ∧
      Stocked (loader.settle item state) := by
  have unheld : ∀ p ∈ state.queue, p ∈ [item.toPlanned] ++ state.queue := fun p member =>
    List.mem_append_right _ member
  have ends := List.pairwise_cons.mp inv.ends
  have closed : ∃ next, (if (item.i : Int) = item.fs.lastIdx then closeFile state item.fs
      else state) = next ∧ loader.Inv [] next ∧ loader.Refilled state next := by
    refine ⟨_, rfl, ?_⟩
    split
    next last =>
      refine ⟨⟨inv.safe.closed fun ticket member same => ?_, ?_, ?_, ends.2, inv.planned,
        inv.counted⟩, rfl, ?_, rfl, le_rfl⟩
      · rw [inv.running] at member
        obtain ⟨other, listed, made⟩ := List.mem_filterMap.mp member
        have queued : other.toPlanned ∈ state.queue :=
          List.mem_append_left _ (List.mem_map_of_mem listed)
        refine ends.1 other.toPlanned queued last ?_
        cases unit : other.unit with
        | slab entries size =>
          rw [unit] at made
          obtain rfl := Option.some.inj made
          exact same.symm
        | mmap name =>
          rw [unit] at made
          exact Option.noConfusion rfl (heq_of_eq made)
      · rw [closeFile, outstanding_snoc]
        exact inv.running
      · intro p member
        rw [closeFile, descriptor_snoc]
        refine (Function.update_of_ne (fun same => ends.1 p member last same.symm) _ _).trans ?_
        exact inv.opened p (unheld p member)
      · rw [closeFile, yields_snoc, List.append_nil]
    next =>
      exact ⟨⟨inv.safe, inv.running, fun p member => inv.opened p (unheld p member), ends.2,
        inv.planned, inv.counted⟩, Refilled.refl state⟩
  obtain ⟨next, same, kept, refilled⟩ := closed
  rw [Loader.settle, same]
  split
  next empty =>
    obtain ⟨filled, further, stocked⟩ := kept.fill
    exact ⟨filled, refilled.trans further, stocked (List.isEmpty_iff.mp empty)⟩
  next some =>
    exact ⟨kept, refilled, fun empty => absurd (List.isEmpty_iff.mpr empty) some⟩

/-- Every run of the loop is safe, also where it raises. -/
theorem Inv.loop (rounds : Nat) {state : State} (inv : loader.Inv [] state) :
    Safe (loader.loop rounds state).2.events := by
  induction rounds generalizing state with
  | zero => exact inv.safe
  | succ rounds ih =>
    rw [Loader.loop]
    split
    next => exact inv.safe
    next item ready head =>
      have handled := inv.consume head
      cases consumed : loader.consume item { state with ready := ready } with
      | error stopped =>
        rw [consumed] at handled
        exact handled
      | ok next =>
        rw [consumed] at handled
        exact ih handled.settle.1

/-- The invariant holds of the iterator's variables before the first file is planned. -/
theorem Inv.start (files : List String) :
    loader.Inv [] ⟨files, [], [], 0, [], 0, fun _ => 0, []⟩ :=
  ⟨Safe.nil, rfl, fun _ member => absurd member List.not_mem_nil, List.Pairwise.nil,
    fun _ member => absurd member List.not_mem_nil, rfl⟩

/-- At every moment of every run the descriptors of running reads are open for their files. -/
theorem run_safe (files : List String) (rounds : Nat) :
    Safe (loader.run files rounds).2.events := by
  have safe := (@Inv.start loader files).fill.1.loop rounds
  rw [run]
  dsimp only
  split
  next => exact safe
  next => exact safe.stopped _

/-! ### What is handed out -/

/-- The stock library gives a name's tensor: it checked on opening the file that the bytes of
known entries are there and fill their shapes, and it reads these bytes. -/
structure StockReads (loader : Loader) (path name : String) : Prop where
  given : (loader.getTensor path name).isSome
  stored : ∀ info, (loader.parseHeader path).2 name = some info →
    (torchDtype loader.available info.dtype).isSome → loader.Stored path info
  shaped : ∀ info dtype, (loader.parseHeader path).2 name = some info →
    torchDtype loader.available info.dtype = some dtype →
      info.nbytes = info.shape.prod * loader.itemsize dtype
  bytes : ∀ info dtype, (loader.parseHeader path).2 name = some info →
    torchDtype loader.available info.dtype = some dtype →
      loader.getTensor path name = some ⟨dtype, info.shape, loader.fileBytes path info⟩

/-- A name's tensor: the bytes of its data offsets, where the entry is there and its type known. -/
def tensorOf (loader : Loader) (path name : String) : Option Tensor :=
  match (loader.parseHeader path).2 name with
  | none => loader.getTensor path name
  | some info =>
    match torchDtype loader.available info.dtype with
    | none => loader.getTensor path name
    | some dtype => some ⟨dtype, info.shape, loader.fileBytes path info⟩

/-- The stock tensor is made of the bytes of the data offsets. -/
theorem StockReads.tensorOf {path name : String} (reads : loader.StockReads path name) :
    loader.getTensor path name = loader.tensorOf path name := by
  rw [Loader.tensorOf]
  split
  next => rfl
  next info found =>
    split
    next => rfl
    next dtype known => exact reads.bytes info dtype found known

/-- What the consumer was handed, in the shape of the stock iterator's answer. -/
def handed (events : List Event) : List (String × Option Tensor) :=
  (yields events).map fun (name, tensor) => (name, some tensor)

/-- What is owed, with the stock tensors. -/
def due (loader : Loader) (state : State) : List (String × Option Tensor) :=
  (loader.owed state).map fun (path, name) => (name, loader.getTensor path name)

/-- The stock library gives everything that is owed, and the consumer stays. -/
structure Ready (loader : Loader) (state : State) : Prop where
  reads : ∀ pair ∈ loader.owed state, loader.StockReads pair.1 pair.2
  stays : ∀ count, loader.leaves count = false

/-- The slab's tensor of an entry is the stock one. -/
theorem slabTensor_stock {path : String} {memory : Nat → Byte} {entry : Entry}
    (packable : Packable loader.available (loader.parseHeader path).2 entry)
    (reads : loader.StockReads path entry.name)
    (bytes : ((List.range entry.info.nbytes).map fun k => memory (entry.off + k)) =
      loader.fileBytes path entry.info) :
    ∃ tensor, loader.slabTensor memory entry = some tensor ∧
      loader.getTensor path entry.name = some tensor := by
  obtain ⟨dtype, known⟩ := Option.isSome_iff_exists.mp packable.known
  have stored := reads.stored _ packable.listed packable.known
  refine ⟨⟨dtype, entry.info.shape, loader.fileBytes path entry.info⟩, ?_,
    reads.bytes _ _ packable.listed known⟩
  have length : (loader.fileBytes path entry.info).length =
      entry.info.shape.prod * loader.itemsize dtype := by
    rw [← reads.shaped _ _ packable.listed known, fileBytes, List.length_take, List.length_drop]
    rw [Stored] at stored
    omega
  rw [slabTensor, known, Option.bind_some, bytes, view, if_pos length]

/-- Handing out a stock tensor succeeds and changes nothing else that is owed. -/
theorem give_stays {held : List Planned} {state : State} (inv : loader.Inv held state)
    (stays : ∀ count, loader.leaves count = false) (name : String) (tensor : Tensor) :
    ∃ next, loader.give state name tensor = .ok next ∧ loader.Inv held next ∧
      handed next.events = handed state.events ++ [(name, some tensor)] ∧
      next.ready = state.ready ∧ next.stream = state.stream ∧ next.files = state.files := by
  refine ⟨{ state with events := state.events ++ [.yielded name tensor] }, ?_,
    inv.yielded name tensor, ?_, rfl, rfl, rfl⟩
  · rw [Loader.give]
    simp only [stays, Bool.false_eq_true, if_false]
  · rw [handed, yields_snoc, List.map_append]
    rfl

/-- The loop over a slab's tensors hands out the stock tensors. -/
theorem handOut_stays {held : List Planned} (fs : FileState) (memory : Nat → Byte)
    (stays : ∀ count, loader.leaves count = false) (entries : List Entry) {state : State}
    (inv : loader.Inv held state)
    (same : ∀ entry ∈ entries, ∃ tensor, loader.slabTensor memory entry = some tensor ∧
      loader.getTensor fs.path entry.name = some tensor) :
    ∃ next, entries.foldlM (loader.handOut fs memory) state = .ok next ∧ loader.Inv held next ∧
      handed next.events = handed state.events ++
        entries.map (fun entry => (entry.name, loader.getTensor fs.path entry.name)) ∧
      next.ready = state.ready ∧ next.stream = state.stream ∧ next.files = state.files := by
  induction entries generalizing state with
  | nil => exact ⟨state, rfl, inv, (List.append_nil _).symm, rfl, rfl, rfl⟩
  | cons entry rest ih =>
    obtain ⟨tensor, made, given⟩ := same entry List.mem_cons_self
    have step : ∃ next, loader.handOut fs memory state entry = .ok next ∧ loader.Inv held next ∧
        handed next.events = handed state.events ++ [(entry.name, some tensor)] ∧
        next.ready = state.ready ∧ next.stream = state.stream ∧ next.files = state.files := by
      rw [Loader.handOut, made]
      dsimp only
      split
      next =>
        exact give_stays (inv.checked _) stays entry.name tensor
      next => exact give_stays inv stays entry.name tensor
    obtain ⟨next, handed_, kept, grown, ready, stream, files⟩ := step
    obtain ⟨last, rest_, keeps, grows, ready', stream', files'⟩ := ih kept fun entry member =>
      same entry (List.mem_cons_of_mem _ member)
    refine ⟨last, ?_, keeps, ?_, ready'.trans ready, stream'.trans stream, files'.trans files⟩
    · rw [List.foldlM_cons, handed_]
      exact rest_
    · rw [grows, grown, List.map_cons, given, List.append_assoc]
      rfl

/-- Consuming a unit hands out its names' stock tensors, and nothing else changes hands. -/
theorem consume_stays {state : State} (inv : loader.Inv [] state) (enough : loader.Ready state)
    {item : Submitted} {ready : List Submitted} (head : state.ready = item :: ready) :
    ∃ next, loader.consume item { state with ready := ready } = .ok next ∧
      loader.Inv [item.toPlanned] next ∧
      handed next.events ++ loader.due next = handed state.events ++ loader.due state ∧
      (∀ pair ∈ loader.owed next, pair ∈ loader.owed state) ∧
      loader.unitsLeft next + 1 = loader.unitsLeft state := by
  have queue : state.queue = item.toPlanned :: (ready.map Submitted.toPlanned ++ state.stream) := by
    rw [State.queue, head]
    rfl
  have split : ∀ rest : State, rest.queue = ready.map Submitted.toPlanned ++ state.stream →
      rest.files = state.files → loader.owed state =
        (item.unit.names.map fun name => (item.fs.path, name)) ++ loader.owed rest ∧
        loader.unitsLeft rest + 1 = loader.unitsLeft state := by
    intro rest same files
    constructor
    · rw [owed, owed, queue, same, files, List.flatMap_cons, List.append_assoc]
    · rw [unitsLeft, unitsLeft, queue, same, files, List.length_cons]
      omega
  -- what a run of the body has to show, from what it hands out
  have assemble : ∀ rest next : State, loader.Refilled rest next →
      rest.queue = ready.map Submitted.toPlanned ++ state.stream →
      rest.files = state.files → yields rest.events = yields state.events →
      ∀ last : State, last.ready = next.ready →
      last.stream = next.stream → last.files = next.files →
      handed last.events = handed next.events ++
        item.unit.names.map (fun name => (name, loader.getTensor item.fs.path name)) →
      handed last.events ++ loader.due last = handed state.events ++ loader.due state ∧
      (∀ pair ∈ loader.owed last, pair ∈ loader.owed state) ∧
      loader.unitsLeft last + 1 = loader.unitsLeft state := by
    intro rest next refilled same files before last ready' stream' files' grown
    obtain ⟨owes, counts⟩ := split rest same files
    have kept : loader.owed last = loader.owed rest := by
      rw [← refilled.owed, owed, owed, State.queue, State.queue, ready', stream', files']
    have left : loader.unitsLeft last = loader.unitsLeft rest := by
      rw [← refilled.left, unitsLeft, unitsLeft, State.queue, State.queue, ready', stream', files']
    refine ⟨?_, fun pair member => ?_, by rw [left, counts]⟩
    · have names : (item.unit.names.map fun name => (name, loader.getTensor item.fs.path name)) =
          (item.unit.names.map fun name => (item.fs.path, name)).map fun (path, name) =>
            (name, loader.getTensor path name) := by
        rw [List.map_map]
        rfl
      rw [grown, handed, handed, refilled.yields, before, names, List.append_assoc, due, kept, due,
        owes, List.map_append]
    · rw [owes]
      rw [kept] at member
      exact List.mem_append_right _ member
  have planned := inv.planned item.toPlanned (queue ▸ List.mem_cons_self)
  have named : ∀ name ∈ item.unit.names, loader.StockReads item.fs.path name := by
    intro name member
    refine enough.reads (item.fs.path, name) ?_
    rw [owed, queue, List.flatMap_cons]
    exact List.mem_append_left _ (List.mem_append_left _ (List.mem_map_of_mem member))
  rw [Loader.consume]
  cases unit : item.unit with
  | slab entries size =>
    have listed := planned.2
    rw [unit] at listed
    have layout := ((loader.units_packed item.fs.path).2 _ listed).2
    have reads : ∀ entry ∈ entries, loader.StockReads item.fs.path entry.name := fun entry member =>
      named entry.name (by rw [unit]; exact List.mem_map_of_mem member)
    have opened := inv.opened item.toPlanned (queue ▸ List.mem_cons_self)
    obtain ⟨memory, filled, bytes⟩ := slabMemory_reads opened
      (congrArg Prod.fst planned.1).symm layout fun entry member =>
        (reads entry member).stored _ (layout.packable entry member).listed
          (layout.packable entry member).known
    have taken := inv.takeSlab head unit
    obtain ⟨kept, refilled, _⟩ := taken.fill
    obtain ⟨last, handed_, keeps, grown, ready', stream', files'⟩ := handOut_stays item.fs memory
      enough.stays entries kept fun entry member =>
        slabTensor_stock (layout.packable entry member) (reads entry member) (bytes entry member)
    dsimp only
    rw [filled]
    refine ⟨last, handed_, keeps, assemble _ _ refilled rfl rfl ?_ last ready' stream' files' ?_⟩
    · rw [yields_snoc, List.append_nil]
    · rw [grown, unit, LoadUnit.names, List.map_map]
      rfl
  | mmap name =>
    have taken := inv.takeMmap head unit
    obtain ⟨kept, refilled, _⟩ := taken.fill
    obtain ⟨tensor, given⟩ := Option.isSome_iff_exists.mp
      (named name (by rw [unit]; exact List.mem_singleton_self name)).given
    obtain ⟨last, handed_, keeps, grown, ready', stream', files'⟩ :=
      give_stays kept enough.stays name tensor
    dsimp only
    rw [given]
    refine ⟨last, handed_, keeps, assemble _ _ refilled rfl rfl rfl last ready' stream' files' ?_⟩
    rw [grown, unit, ← given]
    rfl

/-- With more rounds than units left the loop ends, and all that is owed was handed out. -/
theorem loop_finishes (rounds : Nat) {state : State} (inv : loader.Inv [] state)
    (stocked : Stocked state) (enough : loader.Ready state)
    (more : loader.unitsLeft state < rounds) :
    (loader.loop rounds state).1 = .finished ∧
      handed (loader.loop rounds state).2.events = handed state.events ++ loader.due state := by
  induction rounds generalizing state with
  | zero => exact absurd more (Nat.not_lt_zero _)
  | succ rounds ih =>
    rw [Loader.loop]
    split
    next empty =>
      obtain ⟨stream, files⟩ := stocked empty
      have settled : loader.due state = [] := by
        rw [due, owed, State.queue, empty, stream, files]
        rfl
      exact ⟨rfl, by rw [settled, List.append_nil]⟩
    next item ready head =>
      obtain ⟨next, consumed, kept, handed_, owing, fewer⟩ := consume_stays inv enough head
      obtain ⟨settled, refilled, stocks⟩ := kept.settle
      rw [consumed]
      dsimp only
      have reads : loader.Ready (loader.settle item next) :=
        ⟨fun pair member => enough.reads pair (owing pair (refilled.owed ▸ member)), enough.stays⟩
      have left := refilled.left
      obtain ⟨ends, total⟩ := ih settled stocks reads (by omega)
      refine ⟨ends, ?_⟩
      rw [total, ← handed_, due, refilled.owed, handed, refilled.yields]
      rfl

/-- The units of some files. -/
def unitCount (loader : Loader) (files : List String) : Nat :=
  (files.map fun path => (loader.units path).length).sum

/-- Stopping the readers and closing descriptors hands out nothing. -/
theorem handed_finish (state : State) : handed (finish state).events = handed state.events := by
  have closes : ∀ fds : List Nat, yields (fds.map .closed) = [] := by
    intro fds
    induction fds with
    | nil => rfl
    | cons fd rest ih => exact ih
  rw [handed, finish, yields, List.filterMap_append, List.filterMap_cons]
  change (yields state.events ++ yields (state.openFds.map .closed)).map _ = _
  rw [closes, List.append_nil]
  rfl

/-- Every plan lays out its slabs and holds every name in order; every run, however its reads
are served and ordered and wherever it raises, keeps the descriptors of running reads open and
waits only for submitted slabs; and where the stock library gives every tensor and the consumer
stays, the iterator ends having handed out what the stock iterator hands out, the bytes of the
data offsets. -/
theorem fast_load_refines (loader : Loader) (files : List String) :
    (∀ names header slabCap,
      (planFile loader.available header slabCap names).flatMap LoadUnit.names = names ∧
      ∀ unit ∈ planFile loader.available header slabCap names,
        LaidOut loader.available header slabCap unit) ∧
    (∀ rounds, Safe (loader.run files rounds).2.events) ∧
    ((∀ path ∈ files, ∀ name ∈ loader.names path, loader.StockReads path name) →
      (∀ count, loader.leaves count = false) →
      ∀ rounds, loader.unitCount files < rounds →
        (loader.run files rounds).1 = .finished ∧
        handed (loader.run files rounds).2.events = loader.stock files ∧
        loader.stock files = files.flatMap fun path => (loader.names path).map fun name =>
          (name, loader.tensorOf path name)) := by
  refine ⟨fun names header slabCap => planFile_packed names, run_safe files,
    fun reads stays rounds more => ?_⟩
  obtain ⟨kept, refilled, stocked⟩ := (@Inv.start loader files).fill
  have owes : loader.owed (loader.fill ⟨files, [], [], 0, [], 0, fun _ => 0, []⟩) =
      files.flatMap fun path => (loader.names path).map fun name => (path, name) := refilled.owed
  have enough : loader.Ready (loader.fill ⟨files, [], [], 0, [], 0, fun _ => 0, []⟩) := by
    refine ⟨fun pair member => ?_, stays⟩
    rw [owes] at member
    obtain ⟨path, listed, within⟩ := List.mem_flatMap.mp member
    obtain ⟨name, named, rfl⟩ := List.mem_map.mp within
    exact reads path listed name named
  have count : loader.unitsLeft (loader.fill ⟨files, [], [], 0, [], 0, fun _ => 0, []⟩) =
      loader.unitCount files := refilled.left.trans (Nat.zero_add _)
  obtain ⟨ends, total⟩ := loop_finishes rounds kept (stocked rfl) enough (count ▸ more)
  have none : handed (loader.fill ⟨files, [], [], 0, [], 0, fun _ => 0, []⟩).events = [] := by
    rw [handed, refilled.yields]
    rfl
  refine ⟨?_, ?_, ?_⟩
  · rw [run]
    exact ends
  · rw [run]
    dsimp only
    rw [ends, if_neg (by decide), handed_finish, total, none, List.nil_append, due, owes, stock,
      List.map_flatMap]
    simp only [List.map_map]
    rfl
  · rw [stock]
    refine List.flatMap_congr fun path listed => List.map_congr_left fun name named => ?_
    rw [(reads path listed name named).tensorOf]

/-- A descriptor past all that were opened. -/
def pastOpened (events : List Event) : Nat :=
  events.foldl (fun bound event => match event with
    | .opened fd _ => max bound (fd + 1)
    | _ => bound) 0

/-- A number past all descriptors that were ever opened is not open, so it can be given out next. -/
theorem pastOpened_unopened (events : List Event) : descriptor events (pastOpened events) = none := by
  have bounded : ∀ fd, pastOpened events ≤ fd → descriptor events fd = none := by
    induction events using List.reverseRecOn with
    | nil => exact fun fd _ => rfl
    | append_singleton events event ih =>
      intro fd past
      rw [pastOpened, List.foldl_append] at past
      rw [descriptor_snoc]
      cases event with
      | opened other path =>
        change max (pastOpened events) (other + 1) ≤ fd at past
        exact (Function.update_of_ne (by omega) _ _).trans (ih fd (by omega))
      | closed other =>
        by_cases same : fd = other
        · rw [same]
          exact Function.update_self ..
        · exact (Function.update_of_ne same _ _).trans (ih fd past)
      | submitted | awaited | yielded | shutdown => exact ih fd past
  exact bounded _ le_rfl

/-- The bytes of the larger shard: a header of two bytes, two tensors that fill most of a slab each,
and one byte of a type nobody knows. -/
def largeShard : List Byte :=
  [0, 0] ++ List.replicate 700000 1 ++ List.replicate 700000 2 ++ [9]

/-- The header entries of two shards. -/
def shardEntries (path : String) : List (String × Info) :=
  if path = "large" then
    [("up", ⟨"U8", [700000], (0, 700000)⟩), ("down", ⟨"U8", [700000], (700000, 1400000)⟩),
      ("table", ⟨"X9", [1], (1400000, 1400001)⟩)]
  else [("gate", ⟨"U8", [3], (0, 3)⟩)]

/-- Two shards. The tensors of the larger one need a slab each, so the read-ahead of one slab is spent
before its last unit is submitted. Readers give one byte a call, and the reads of a slab happen in
reverse. -/
def twoShards : Loader where
  parseHeader path := (2, fun name => (shardEntries path).lookup name)
  keysOf path := (shardEntries path).map Prod.fst
  skip _ := false
  getTensor path name := ((shardEntries path).lookup name).map fun info =>
    ⟨if info.dtype = "U8" then "uint8" else "x9", info.shape,
      ((if path = "large" then largeShard else [0, 0, 1, 2, 3]).drop (2 + info.dataOffsets.1)).take
        info.nbytes⟩
  content path := if path = "large" then largeShard else [0, 0, 1, 2, 3]
  available _ := true
  itemsize _ := 1
  slabMb := 1
  aheadMb := 1
  unitLimit := 64
  verifyN := 1
  openFd := pastOpened
  unopened := pastOpened_unopened
  served _ _ := 1
  schedule _ writes := writes.reverse
  scheduled _ writes := writes.reverse_perm
  blank _ _ := 0
  leaves _ := false

/-- The bytes between a front and a rest. -/
theorem bytes_between (front body rest : List Byte) {off n : Nat} (start : front.length = off)
    (count : body.length = n) : ((front ++ body ++ rest).drop off).take n = body := by
  rw [List.append_assoc, List.drop_left' start, List.take_left' count]

/-- The larger shard holds all its entries. -/
theorem largeShard_length : largeShard.length = 1400003 := by
  rw [largeShard, List.length_append, List.length_append, List.length_append, List.length_replicate,
    List.length_replicate]
  rfl

/-- The entries of both shards lie in their files and fill their shapes; a type is known or not. -/
theorem shardEntries_fit (path : String) : ∀ entry ∈ shardEntries path,
    twoShards.Stored path entry.2 ∧ entry.2.nbytes = entry.2.shape.prod ∧
      (entry.2.dtype = "U8" ∨ torchDtype twoShards.available entry.2.dtype = none) := by
  intro entry member
  have content : twoShards.content path = if path = "large" then largeShard else [0, 0, 1, 2, 3] := rfl
  rw [Stored, content]
  rw [shardEntries] at member
  split at member
  next same =>
    rw [if_pos same, largeShard_length]
    rcases List.mem_cons.mp member with rfl | member
    · refine ⟨?_, by decide, Or.inl rfl⟩
      change 2 + 0 + 700000 ≤ 1400003
      decide
    rcases List.mem_cons.mp member with rfl | member
    · refine ⟨?_, by decide, Or.inl rfl⟩
      change 2 + 700000 + 700000 ≤ 1400003
      decide
    · rw [List.mem_singleton.mp member]
      refine ⟨?_, by decide, Or.inr (by decide)⟩
      change 2 + 1400000 + 1 ≤ 1400003
      decide
  next other =>
    rw [if_neg other, List.mem_singleton.mp member]
    refine ⟨?_, by decide, Or.inl rfl⟩
    change 2 + 0 + 3 ≤ 5
    decide

/-- The stock library reads both shards as `fast_load_refines` assumes of it. -/
theorem twoShards_reads (path name : String) (named : name ∈ twoShards.names path) :
    twoShards.StockReads path name := by
  have listed : name ∈ (shardEntries path).map Prod.fst := List.mem_of_mem_filter named
  have entry : ∀ info, (shardEntries path).lookup name = some info →
      (name, info) ∈ shardEntries path := by
    intro info found
    obtain ⟨before, after, parts, _⟩ := List.lookup_eq_some_iff.mp found
    exact parts ▸ List.mem_append_right _ List.mem_cons_self
  refine ⟨?_, fun info found _ => (shardEntries_fit path _ (entry info found)).1,
    fun info dtype found _ => ?_, fun info dtype found known => ?_⟩
  · obtain ⟨entry, member, same⟩ := List.mem_map.mp listed
    have found : ((shardEntries path).lookup name).isSome :=
      List.lookup_isSome_iff.mpr ⟨entry, member, beq_iff_eq.mpr same.symm⟩
    exact (Option.isSome_map ..).trans found
  · exact (shardEntries_fit path _ (entry info found)).2.1.trans (Nat.mul_one _).symm
  · rcases (shardEntries_fit path _ (entry info found)).2.2 with byte | unknown
    · have uint8 : dtype = "uint8" := by
        rw [byte] at known
        exact (Option.some.inj known).symm
      have given : twoShards.getTensor path name = ((shardEntries path).lookup name).map fun info =>
        ⟨if info.dtype = "U8" then "uint8" else "x9", info.shape,
          ((twoShards.content path).drop (2 + info.dataOffsets.1)).take info.nbytes⟩ := rfl
      have header : (shardEntries path).lookup name = some info := found
      rw [given, header, Option.map_some, if_pos byte, uint8]
      rfl
    · exact Option.noConfusion rfl (heq_of_eq (unknown.symm.trans known))

/-- The larger shard is cut into three units, and two of them fill the read-ahead; the rest is
submitted when the first slab has been read. -/
theorem fast_load_refines_twoShards :
    (twoShards.units "large").map LoadUnit.names = [["up"], ["down"], ["table"]] ∧
      (twoShards.fill ⟨["large", "small"], [], [], 0, [], 0, fun _ => 0, []⟩).ready.length = 2 ∧
      (twoShards.run ["large", "small"] 5).1 = .finished ∧
      handed (twoShards.run ["large", "small"] 5).2.events =
        [("up", some ⟨"uint8", [700000], List.replicate 700000 1⟩),
          ("down", some ⟨"uint8", [700000], List.replicate 700000 2⟩),
          ("table", some ⟨"x9", [1], [9]⟩), ("gate", some ⟨"uint8", [3], [1, 2, 3]⟩)] := by
  obtain ⟨ends, total, _⟩ := (fast_load_refines twoShards ["large", "small"]).2.2
    (fun path _ name named => twoShards_reads path name named) (fun _ => rfl) 5 (by decide +kernel)
  have stock : twoShards.stock ["large", "small"] =
      [("up", some ⟨"uint8", [700000], (largeShard.drop 2).take 700000⟩),
        ("down", some ⟨"uint8", [700000], (largeShard.drop 700002).take 700000⟩),
        ("table", some ⟨"x9", [1], (largeShard.drop 1400002).take 1⟩),
        ("gate", some ⟨"uint8", [3], [1, 2, 3]⟩)] := rfl
  have up : (largeShard.drop 2).take 700000 = List.replicate 700000 1 := by
    rw [largeShard, List.append_assoc ([0, 0] ++ _)]
    exact bytes_between [0, 0] _ _ rfl (List.length_replicate ..)
  have down : (largeShard.drop 700002).take 700000 = List.replicate 700000 2 := by
    refine bytes_between ([0, 0] ++ _) _ _ ?_ (List.length_replicate ..)
    rw [List.length_append, List.length_replicate]
    rfl
  have table : (largeShard.drop 1400002).take 1 = [9] := by
    rw [largeShard, ← List.append_nil ([0, 0] ++ _ ++ _ ++ _)]
    refine bytes_between ([0, 0] ++ _ ++ _) _ _ ?_ rfl
    rw [List.length_append, List.length_append, List.length_replicate, List.length_replicate]
    rfl
  refine ⟨by decide +kernel, by decide +kernel, ends, ?_⟩
  rw [total, stock, up, down, table]

end Loader

end GlmSpark.FastLoad
