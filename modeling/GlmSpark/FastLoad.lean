import GlmSpark.FastLoadPlan
import GlmSpark.FastLoadRead
import GlmSpark.Runs
import Mathlib.Data.List.Induction
import Mathlib.Logic.Function.Basic
import Mathlib.Algebra.Ring.Nat
import Mathlib.Algebra.Ring.Int.Defs

/-!
# The slab-backed weight iterator

`fast_safetensors_iterator` plans shards one after another, submits their units to a pool
of readers up to a read-ahead of bytes and a limit of units, and hands out the tensors of
the oldest unit once its reads are done. A shard's descriptor is closed after its last unit.

What happens is kept as a list of events. A slab's reads may run at any moment between its
submission and the wait for it, in any order and in pieces of any length; so a run is safe
if at each of its moments every submitted slab that was not waited for has its descriptor
open for its own file. Readers, operating system and the stock library are parameters.
-/

namespace GlmSpark.FastLoad

open Scatter

/-- A tensor: its type, its shape and its bytes. -/
structure Tensor where
  dtype : String
  shape : List Nat
  bytes : List Byte
deriving DecidableEq

/-- A submitted slab: its number, the descriptor its reads use and the file meant. -/
structure Ticket where
  number : Nat
  fd : Nat
  path : String
deriving DecidableEq

/-- What a run does, as far as readers, the operating system and the consumer see it. -/
inductive Event where
  | opened (fd : Nat) (path : String)
  | closed (fd : Nat)
  | submitted (ticket : Ticket)
  | awaited (ticket : Ticket)
  | yielded (name : String) (tensor : Tensor)
  | shutdown

/-- The descriptor table after some events. -/
def descriptor (events : List Event) : Nat → Option String :=
  events.foldl (fun table event => match event with
    | .opened fd path => Function.update table fd (some path)
    | .closed fd => Function.update table fd none
    | _ => table) fun _ => none

/-- The slabs whose reads may be running after some events. -/
def outstanding (events : List Event) : List Ticket :=
  events.foldl (fun tickets event => match event with
    | .submitted ticket => tickets ++ [ticket]
    | .awaited ticket => tickets.erase ticket
    | .shutdown => []
    | _ => tickets) []

/-- What the consumer was handed, in order. -/
def yields (events : List Event) : List (String × Tensor) :=
  events.filterMap fun event => match event with
    | .yielded name tensor => some (name, tensor)
    | _ => none

/-- At every moment the descriptors of running reads are open for their files, and only
submitted slabs are waited for. -/
def Safe (events : List Event) : Prop :=
  ∀ before after, events = before ++ after →
    (∀ ticket ∈ outstanding before, descriptor before ticket.fd = some ticket.path) ∧
      ∀ ticket rest, after = .awaited ticket :: rest → ticket ∈ outstanding before

/-- The files, the settings of the environment, and everything outside the iterator. -/
structure Loader where
  /-- `parse_header`: where the data starts, and the entries. -/
  parseHeader : String → Nat × (String → Option Info)
  /-- `keys_of`: the stock name order. -/
  keysOf : String → List String
  skip : String → Bool
  /-- The tensor the stock library gives, unless it raises. -/
  getTensor : String → String → Option Tensor
  content : String → List Byte
  /-- The types the installed torch has, and the bytes of an element. -/
  available : String → Bool
  itemsize : String → Nat
  /-- `GLM_FAST_LOAD_SLAB_MB`, `_AHEAD_MB`, `_MAX_UNITS` and `_VERIFY`. -/
  slabMb : Int
  aheadMb : Int
  unitLimit : Int
  verifyN : Int
  /-- A descriptor the operating system gives is not open. -/
  openFd : List Event → Nat
  unopened : ∀ events, descriptor events (openFd events) = none
  /-- How much a call of `preadv` wants to read at most, by slab and position. -/
  served : Nat → Nat → Nat
  /-- The order in which the writes into a slab happen, and what the slab held before. -/
  schedule : Nat → List (Write Byte) → List (Write Byte)
  scheduled : ∀ number writes, (schedule number writes).Perm writes
  blank : Nat → Nat → Byte
  /-- Whether the consumer closes the generator at a yield. -/
  leaves : Nat → Bool

/-- `FileState`. -/
structure FileState where
  path : String
  fd : Nat
  base : Nat
  header : String → Option Info
  lastIdx : Int

/-- A unit of the stream, with its index in its file. -/
structure Planned where
  fs : FileState
  unit : LoadUnit
  i : Nat

/-- A unit of the ready queue; a slab has a number. -/
structure Submitted extends Planned where
  number : Nat

/-- The variables of the iterator, and what happened so far. -/
structure State where
  files : List String
  stream : List Planned
  ready : List Submitted
  inflight : Nat
  openFds : List Nat
  slabs : Nat
  verified : String → Nat
  events : List Event

/-- The bytes of a unit that count against the read-ahead. -/
def LoadUnit.size : LoadUnit → Nat
  | .slab _ size => size
  | .mmap _ => 0

/-- The ticket of a slab. -/
def Submitted.ticket (item : Submitted) : Ticket := ⟨item.number, item.fs.fd, item.fs.path⟩

namespace Loader

variable (loader : Loader)

/-- `slab_cap`: the bytes of a slab, a whole number of megabytes and at least one. -/
def slabCap : Nat := (max 1 loader.slabMb).toNat * 2 ^ 20

/-- `ahead`: the bytes that may be in flight; at least one slab. -/
def ahead : Nat := max loader.slabCap (loader.aheadMb * 2 ^ 20).toNat

/-- `max_units`: how many units may be submitted and not handed out, at least 64. -/
def maxUnits : Nat := (max 64 loader.unitLimit).toNat

/-- The names of a file that are not skipped. -/
def names (path : String) : List String :=
  (loader.keysOf path).filter fun name => !loader.skip name

/-- The units of a file, from its header and its names. -/
def units (path : String) : List LoadUnit :=
  planFile loader.available (loader.parseHeader path).2 loader.slabCap (loader.names path)

/-! ### The readers -/

/-- The slab after all its reads, through whatever its descriptor is open for. -/
def slabMemory (events : List Event) (item : Submitted) (entries : List Entry) :
    Option (Nat → Byte) := do
  let path ← descriptor events item.fs.fd
  let jobs ← entries.mapM fun entry => readJob (loader.content path) (loader.served item.number)
    entry.off (item.fs.base + entry.info.dataOffsets.1) entry.info.nbytes
  return applyAll (loader.blank item.number) (loader.schedule item.number jobs.flatten)

/-! ### Planning and submission -/

/-- `plan_next_file` on a path the file list still holds. -/
def planNextFile (state : State) (path : String) (rest : List String) : State :=
  let (base, header) := loader.parseHeader path
  let units := loader.units path
  let fd := loader.openFd state.events
  let opened : State := { state with
    files := rest
    events := state.events ++ [Event.opened fd path] }
  if units.isEmpty then { opened with events := opened.events ++ [Event.closed fd] }
  else
    let fs : FileState := ⟨path, fd, base, header, (units.length : Int) - 1⟩
    { opened with
      openFds := opened.openFds ++ [fd]
      stream := opened.stream ++ units.zipIdx.map fun (unit, i) => ⟨fs, unit, i⟩ }

/-- The loop at the start of `submit_one`: files are planned while the stream is empty. -/
def planStream : List String → State → State
  | [], state => state
  | path :: rest, state =>
    if state.stream.isEmpty then planStream rest (loader.planNextFile state path rest) else state

/-- `submit_one`; nothing was left where it returns false. -/
def submitOne (state : State) : Bool × State :=
  let state := loader.planStream state.files state
  match state.stream with
  | [] => (false, state)
  | planned :: stream =>
    let item : Submitted := ⟨planned, state.slabs⟩
    let state := { state with stream, ready := state.ready ++ [item] }
    match planned.unit with
    | .mmap _ => (true, state)
    | .slab _ size => (true, { state with
        slabs := state.slabs + 1
        inflight := state.inflight + size
        events := state.events ++ [.submitted item.ticket] })

/-- The loop of `fill`; each round takes a place of the ready queue. -/
def fillLoop : Nat → State → State
  | 0, state => state
  | room + 1, state =>
    if state.inflight < loader.ahead ∧ state.ready.length < loader.maxUnits then
      match loader.submitOne state with
      | (true, state) => fillLoop room state
      | (false, state) => state
    else state

/-- `fill`: submit units while the read-ahead and the limit of units allow it. -/
def fill (state : State) : State := loader.fillLoop (loader.maxUnits - state.ready.length) state

/-! ### The consumer -/

/-- `close_file`: the descriptor is closed and no longer listed as open. -/
def closeFile (state : State) (fs : FileState) : State :=
  { state with openFds := state.openFds.erase fs.fd, events := state.events ++ [.closed fs.fd] }

/-- Hand a tensor out; the generator may be closed there. -/
def give (state : State) (name : String) (tensor : Tensor) : Except State State :=
  let state := { state with events := state.events ++ [.yielded name tensor] }
  if loader.leaves (yields state.events).length then .error state else .ok state

/-- The view of some bytes under a type and a shape. -/
def view (dtype : String) (shape : List Nat) (bytes : List Byte) : Option Tensor :=
  if bytes.length = shape.prod * loader.itemsize dtype then some ⟨dtype, shape, bytes⟩ else none

/-- The tensor of a slab's entry: its bytes under the entry's type and shape. -/
def slabTensor (memory : Nat → Byte) (entry : Entry) : Option Tensor :=
  (torchDtype loader.available entry.info.dtype).bind fun dtype =>
    loader.view dtype entry.info.shape
      ((List.range entry.info.nbytes).map fun k => memory (entry.off + k))

/-- The loop body over a slab's tensors: the first ones of a file are compared with the
stock tensor. -/
def handOut (fs : FileState) (memory : Nat → Byte) (state : State) (entry : Entry) :
    Except State State :=
  match loader.slabTensor memory entry with
  | none => .error state
  | some tensor =>
    if (state.verified fs.path : Int) < loader.verifyN then
      if loader.getTensor fs.path entry.name = some tensor then
        let count := state.verified fs.path + 1
        loader.give { state with verified := Function.update state.verified fs.path count }
          entry.name tensor
      else .error state
    else loader.give state entry.name tensor

/-- What the loop does with the unit it took from the ready queue. -/
def consume (item : Submitted) (state : State) : Except State State :=
  match item.unit with
  | .slab entries size =>
    match loader.slabMemory state.events item entries with
    | none => .error state
    | some memory =>
      let state := { state with
        inflight := state.inflight - size
        events := state.events ++ [.awaited item.ticket] }
      entries.foldlM (loader.handOut item.fs memory) (loader.fill state)
  | .mmap name =>
    match loader.getTensor item.fs.path name with
    | none => .error (loader.fill state)
    | some tensor => loader.give (loader.fill state) name tensor

/-- The end of the loop body: the file is closed after its last unit. -/
def settle (item : Submitted) (state : State) : State :=
  let state := if (item.i : Int) = item.fs.lastIdx then closeFile state item.fs else state
  if state.ready.isEmpty then loader.fill state else state

/-- How a run ended. -/
inductive Outcome where
  | running
  | finished
  | raised
deriving DecidableEq

/-- The loop over the ready queue, for some rounds. -/
def loop : Nat → State → Outcome × State
  | 0, state => (.running, state)
  | rounds + 1, state =>
    match state.ready with
    | [] => (.finished, state)
    | item :: ready =>
      match loader.consume item { state with ready } with
      | .error state => (.raised, state)
      | .ok state => loop rounds (loader.settle item state)

/-- The `finally` block: readers are stopped, then descriptors closed. -/
def finish (state : State) : State :=
  { state with events := state.events ++ .shutdown :: state.openFds.map .closed }

/-- `fast_safetensors_iterator`, for some rounds of its loop. -/
def run (files : List String) (rounds : Nat) : Outcome × State :=
  let (outcome, state) := loader.loop rounds
    (loader.fill ⟨files, [], [], 0, [], 0, fun _ => 0, []⟩)
  (outcome, if outcome = .running then state else finish state)

/-- The stock iterator: every name that is not skipped, in order. -/
def stock (files : List String) : List (String × Option Tensor) :=
  files.flatMap fun path => (loader.names path).map fun name => (name, loader.getTensor path name)

/-! ### The bytes of a slab -/

/-- The bytes of an entry in its file. -/
def fileBytes (path : String) (info : Info) : List Byte :=
  ((loader.content path).drop ((loader.parseHeader path).1 + info.dataOffsets.1)).take info.nbytes

/-- An entry's bytes are in the file. -/
def Stored (path : String) (info : Info) : Prop :=
  (loader.parseHeader path).1 + info.dataOffsets.1 + info.nbytes ≤ (loader.content path).length

variable {loader}

/-- When the descriptor is open for the slab's file, the slab holds the bytes of every entry,
in whatever order and pieces they were read. -/
theorem slabMemory_reads {events : List Event} {item : Submitted} {entries : List Entry}
    {size : Nat} {path : String} (opened : descriptor events item.fs.fd = some path)
    (base : item.fs.base = (loader.parseHeader path).1)
    (layout : Layout loader.available (loader.parseHeader path).2 loader.slabCap entries size)
    (stored : ∀ entry ∈ entries, loader.Stored path entry.info) :
    ∃ memory, loader.slabMemory events item entries = some memory ∧
      ∀ entry ∈ entries, ((List.range entry.info.nbytes).map fun k => memory (entry.off + k)) =
        loader.fileBytes path entry.info := by
  have copied : ∀ entry ∈ entries, ∃ writes,
      readJob (loader.content path) (loader.served item.number) entry.off
        (item.fs.base + entry.info.dataOffsets.1) entry.info.nbytes = some writes ∧
      Copies (loader.content path) entry.off (item.fs.base + entry.info.dataOffsets.1) entry.off
        entry.stop writes := by
    intro entry listed
    rw [base]
    exact readJob_copies _ _ _ _ _ (stored entry listed)
  have jobs : (entries.mapM fun entry => readJob (loader.content path) (loader.served item.number)
      entry.off (item.fs.base + entry.info.dataOffsets.1) entry.info.nbytes) =
      some (entries.map fun entry => (readJob (loader.content path) (loader.served item.number)
        entry.off (item.fs.base + entry.info.dataOffsets.1) entry.info.nbytes).getD []) :=
    Runs.mapM_some fun entry listed => by
      obtain ⟨writes, read, _⟩ := copied entry listed
      rw [read, Option.getD_some]
  rw [slabMemory, opened]
  simp only [bind, Option.bind, jobs, pure]
  refine ⟨_, rfl, fun entry listed => ?_⟩
  have whole := stored entry listed
  rw [Stored, ← base] at whole
  apply List.ext_getElem
  · rw [List.length_map, List.length_range, fileBytes, List.length_take, List.length_drop, ← base]
    omega
  intro k inside _
  rw [List.length_map, List.length_range] at inside
  have there : (loader.content path)[item.fs.base + entry.info.dataOffsets.1 + k]? =
      some (loader.content path)[item.fs.base + entry.info.dataOffsets.1 + k] :=
    List.getElem?_eq_getElem (by omega)
  simp only [List.getElem_map, List.getElem_range, fileBytes, List.getElem_take, List.getElem_drop,
    ← base]
  refine applyAll_covered _ (fun write member => ?_) ?_ _
  · rw [(loader.scheduled _ _).mem_iff] at member
    obtain ⟨_, mapped, within⟩ := List.mem_flatten.mp member
    obtain ⟨other, present, rfl⟩ := List.mem_map.mp mapped
    obtain ⟨writes, read, copies⟩ := copied other present
    rw [read, Option.getD_some] at within
    -- another tensor's writes stay in its own interval
    obtain ⟨i, first, rfl⟩ := List.mem_iff_getElem.mp listed
    obtain ⟨j, second, rfl⟩ := List.mem_iff_getElem.mp present
    have bounds := copies.inside write within
    obtain before | rfl | after := Nat.lt_trichotomy i j
    · have apart := List.pairwise_iff_getElem.mp layout.disjoint i j first second before
      refine Write.agrees_of_not_touches (fun touched => ?_) _
      have low := touched.1
      rw [Entry.stop] at apart
      omega
    · intro reached cell put
      have copy := copies.faithful write within _ reached cell put
      rw [Nat.add_sub_cancel_left, there] at copy
      exact (Option.some.inj copy).symm
    · have apart := List.pairwise_iff_getElem.mp layout.disjoint j i second first after
      refine Write.agrees_of_not_touches (fun touched => ?_) _
      have high := touched.2
      omega
  · obtain ⟨writes, read, copies⟩ := copied entry listed
    obtain ⟨write, member, touched⟩ := copies.covers (entry.off + k) (Nat.le_add_right _ _)
      (Nat.add_lt_add_left inside _)
    refine ⟨write, (loader.scheduled _ _).mem_iff.mpr (List.mem_flatten.mpr ⟨writes, ?_, member⟩),
      touched⟩
    exact List.mem_map.mpr ⟨entry, listed, by rw [read, Option.getD_some]⟩

/-! ### Events -/

end Loader

/-- One more event changes the descriptor table at its own descriptor only, and only when it opens
or closes it. -/
@[simp] theorem descriptor_snoc (events : List Event) (event : Event) :
    descriptor (events ++ [event]) = match event with
      | .opened fd path => Function.update (descriptor events) fd (some path)
      | .closed fd => Function.update (descriptor events) fd none
      | _ => descriptor events := by
  rw [descriptor, List.foldl_append]
  rfl

/-- One more event adds a slab that is submitted and removes one that was waited for; a shutdown
ends them all. -/
@[simp] theorem outstanding_snoc (events : List Event) (event : Event) :
    outstanding (events ++ [event]) = match event with
      | .submitted ticket => outstanding events ++ [ticket]
      | .awaited ticket => (outstanding events).erase ticket
      | .shutdown => []
      | _ => outstanding events := by
  rw [outstanding, List.foldl_append]
  rfl

/-- One more event adds to what the consumer was handed exactly when it hands a tensor out. -/
theorem yields_snoc (events : List Event) (event : Event) :
    yields (events ++ [event]) = yields events ++ match event with
      | .yielded name tensor => [(name, tensor)]
      | _ => [] := by
  rw [yields, List.filterMap_append]
  cases event <;> rfl

/-- The empty run is safe: there is no read to be running. -/
theorem Safe.nil : Safe [] := by
  intro before after empty
  obtain ⟨rfl, rfl⟩ := List.append_eq_nil_iff.mp empty.symm
  exact ⟨fun ticket member => absurd member List.not_mem_nil,
    fun ticket rest waits => absurd waits (List.cons_ne_nil _ _).symm⟩

/-- One more event keeps a run safe if running reads have open descriptors after it and it
waits for nothing that was not submitted. -/
theorem Safe.snoc {events : List Event} {event : Event} (safe : Safe events)
    (opened : ∀ ticket ∈ outstanding (events ++ [event]),
      descriptor (events ++ [event]) ticket.fd = some ticket.path)
    (waited : ∀ ticket, event = .awaited ticket → ticket ∈ outstanding events) :
    Safe (events ++ [event]) := by
  intro before after split
  rcases List.eq_nil_or_concat after with rfl | ⟨front, last, rfl⟩
  · rw [List.append_nil] at split
    rw [← split]
    exact ⟨opened, fun ticket rest waits => absurd waits (List.cons_ne_nil _ _).symm⟩
  · rw [List.concat_eq_append, ← List.append_assoc] at split
    obtain ⟨earlier, same⟩ := List.append_inj' split rfl
    obtain rfl := List.singleton_inj.mp same
    obtain ⟨open_, waits⟩ := safe before front earlier
    refine ⟨open_, fun ticket rest first => ?_⟩
    rw [List.concat_eq_append] at first
    cases front with
    | nil =>
      obtain rfl : before = events := by rw [earlier, List.append_nil]
      exact waited ticket (List.cons.inj first).1
    | cons head tail => exact waits ticket tail (by rw [(List.cons.inj first).1])

/-- In a safe run the reads running now have open descriptors. -/
theorem Safe.now {events : List Event} (safe : Safe events) :
    ∀ ticket ∈ outstanding events, descriptor events ticket.fd = some ticket.path :=
  (safe events [] (List.append_nil events).symm).1

/-- An event that neither submits nor waits nor closes keeps a run safe, if what it opens
was not open. -/
theorem Safe.opened {events : List Event} (safe : Safe events) {fd : Nat} {path : String}
    (unopened : descriptor events fd = none) : Safe (events ++ [.opened fd path]) := by
  refine safe.snoc (fun ticket member => ?_) fun ticket waits => Event.noConfusion waits
  rw [outstanding_snoc] at member
  have held := safe.now ticket member
  rw [descriptor_snoc]
  refine (Function.update_of_ne (fun same => ?_) _ _).trans held
  rw [same, unopened] at held
  exact Option.noConfusion rfl (heq_of_eq held)

/-- Closing what no running read uses keeps a run safe. -/
theorem Safe.closed {events : List Event} (safe : Safe events) {fd : Nat}
    (unused : ∀ ticket ∈ outstanding events, ticket.fd ≠ fd) :
    Safe (events ++ [.closed fd]) := by
  refine safe.snoc (fun ticket member => ?_) fun ticket waits => Event.noConfusion waits
  rw [outstanding_snoc] at member
  rw [descriptor_snoc]
  exact (Function.update_of_ne (unused ticket member) _ _).trans (safe.now ticket member)

/-- Submitting a slab whose descriptor is open keeps a run safe. -/
theorem Safe.submitted {events : List Event} (safe : Safe events) {ticket : Ticket}
    (opened : descriptor events ticket.fd = some ticket.path) :
    Safe (events ++ [.submitted ticket]) := by
  refine safe.snoc (fun other member => ?_) fun ticket waits => Event.noConfusion waits
  rw [outstanding_snoc] at member
  rw [descriptor_snoc]
  obtain before | same := List.mem_append.mp member
  · exact safe.now other before
  · obtain rfl := List.mem_singleton.mp same
    exact opened

/-- Waiting for a submitted slab keeps a run safe. -/
theorem Safe.awaited {events : List Event} (safe : Safe events) {ticket : Ticket}
    (submitted : ticket ∈ outstanding events) : Safe (events ++ [.awaited ticket]) := by
  refine safe.snoc (fun other member => ?_) fun other waits => ?_
  · rw [outstanding_snoc] at member
    rw [descriptor_snoc]
    exact safe.now other (List.mem_of_mem_erase member)
  · rwa [← Event.awaited.inj waits]

/-- Handing out a tensor keeps a run safe. -/
theorem Safe.yielded {events : List Event} (safe : Safe events) (name : String)
    (tensor : Tensor) : Safe (events ++ [.yielded name tensor]) := by
  refine safe.snoc (fun other member => ?_) fun other waits => Event.noConfusion waits
  rw [outstanding_snoc] at member
  rw [descriptor_snoc]
  exact safe.now other member

/-- Once the readers are stopped, descriptors may be closed in any order. -/
theorem Safe.stopped {events : List Event} (safe : Safe events) (fds : List Nat) :
    Safe (events ++ .shutdown :: fds.map .closed) := by
  have stop : Safe (events ++ [.shutdown]) := by
    refine safe.snoc (fun other member => ?_) fun other waits => Event.noConfusion waits
    rw [outstanding_snoc] at member
    exact absurd member List.not_mem_nil
  have closes : ∀ fds : List Nat, Safe (events ++ [.shutdown] ++ fds.map .closed) ∧
      outstanding (events ++ [.shutdown] ++ fds.map .closed) = [] := by
    intro fds
    induction fds using List.reverseRecOn with
    | nil => exact ⟨by simpa using stop, by simp⟩
    | append_singleton fds fd ih =>
      obtain ⟨safe, none⟩ := ih
      rw [List.map_append, List.map_singleton, ← List.append_assoc]
      refine ⟨safe.closed fun ticket member => ?_, by rw [outstanding_snoc]; exact none⟩
      rw [none] at member
      exact absurd member List.not_mem_nil
  simpa using (closes fds).1

end GlmSpark.FastLoad
