import Mathlib.Data.List.Basic
import Mathlib.Order.Nat

/-!
# The slab plan of one shard

`_plan_file` of `glm_fast_load.py` packs the tensors of a shard, in the stock order, into
slabs of a fixed capacity, each tensor at the next multiple of 4096. A tensor without an
entry, without bytes, larger than a slab or of an unknown type is passed through and cuts
the slab before it.
-/

namespace GlmSpark.FastLoad

/-- A header entry: type code, shape, and the first and past-the-last byte in the data. -/
structure Info where
  dtype : String
  shape : List Nat
  dataOffsets : Nat × Nat

/-- The bytes of an entry whose offsets are in order. -/
def Info.nbytes (info : Info) : Nat := info.dataOffsets.2 - info.dataOffsets.1

/-- `_DTYPES`: the type codes of the format and the torch types they name. -/
def dtypes : List (String × String) :=
  [("F8_E4M3", "float8_e4m3fn"), ("F8_E5M2", "float8_e5m2"), ("F8_E8M0", "float8_e8m0fnu"),
    ("BF16", "bfloat16"), ("F16", "float16"), ("F32", "float32"), ("F64", "float64"),
    ("I8", "int8"), ("U8", "uint8"), ("I16", "int16"), ("I32", "int32"), ("I64", "int64"),
    ("BOOL", "bool"), ("U16", "uint16"), ("U32", "uint32"), ("U64", "uint64")]

/-- `_torch_dtype`: the type of a code, where the installed torch has it. -/
def torchDtype (available : String → Bool) (code : String) : Option String :=
  (dtypes.lookup code).filter available

/-- `_ALIGN`: where tensors may begin inside a slab. -/
def align : Nat := 4096

/-- A tensor of a slab: its name, its place and its entry. -/
structure Entry where
  name : String
  off : Nat
  info : Info

/-- The place past a tensor. -/
def Entry.stop (entry : Entry) : Nat := entry.off + entry.info.nbytes

/-- What is handed to the iterator at once: a slab, or a tensor passed through. -/
inductive LoadUnit where
  | slab (entries : List Entry) (size : Nat)
  | mmap (name : String)

/-- The names of a unit, in order. -/
def LoadUnit.names : LoadUnit → List String
  | .slab entries _ => entries.map Entry.name
  | .mmap name => [name]

/-- The running variables of `_plan_file`: the units so far and the slab that is being filled. -/
structure Packing where
  units : List LoadUnit
  cur : List Entry
  used : Nat

/-- Close the current slab, if there is one. -/
def Packing.cut (packing : Packing) : Packing :=
  if packing.cur.isEmpty then packing
  else ⟨packing.units ++ [.slab packing.cur packing.used], [], 0⟩

section Planner

variable (available : String → Bool) (header : String → Option Info) (slabCap : Nat)

/-- The loop body of `_plan_file`: a name is passed through, put into the open slab, or put into a
new one. -/
def Packing.add (packing : Packing) (name : String) : Packing :=
  let pass := fun () => { packing.cut with units := packing.cut.units ++ [.mmap name] }
  match header name with
  | none => pass ()
  | some info =>
    let n : Int := info.dataOffsets.2 - info.dataOffsets.1
    if n ≤ 0 ∨ (slabCap : Int) < n ∨ (torchDtype available info.dtype).isNone then pass ()
    else
      let off := (packing.used + align - 1) / align * align
      let (packing, off) :=
        if slabCap < off + info.nbytes ∧ ¬ packing.cur.isEmpty then (packing.cut, 0)
        else (packing, off)
      { packing with cur := packing.cur ++ [⟨name, off, info⟩], used := off + info.nbytes }

/-- `_plan_file`: the units of a file's names, in order; the slab left open at the end is one of
them. -/
def planFile (names : List String) : List LoadUnit :=
  (names.foldl (Packing.add available header slabCap) ⟨[], [], 0⟩).cut.units

/-- A tensor a slab may hold: its entry is the header's, of a known type, with some bytes. -/
structure Packable (entry : Entry) : Prop where
  listed : header entry.name = some entry.info
  known : (torchDtype available entry.info.dtype).isSome
  bytes : 0 < entry.info.nbytes

/-- Tensors at increasing, aligned and disjoint places up to a length within the capacity. -/
structure Layout (entries : List Entry) (size : Nat) : Prop where
  packable : ∀ entry ∈ entries, Packable available header entry
  aligned : ∀ entry ∈ entries, align ∣ entry.off
  inside : ∀ entry ∈ entries, entry.stop ≤ size
  disjoint : entries.Pairwise fun entry later => entry.stop ≤ later.off
  capped : size ≤ slabCap

/-- A unit is laid out; a slab is not empty. -/
def LaidOut : LoadUnit → Prop
  | .slab entries size => entries ≠ [] ∧ Layout available header slabCap entries size
  | .mmap _ => True

/-- After some names: they are in the units in order, and all units are laid out. -/
structure Packed (packing : Packing) (names : List String) : Prop where
  ordered : packing.units.flatMap LoadUnit.names ++ packing.cur.map Entry.name = names
  closed : ∀ unit ∈ packing.units, LaidOut available header slabCap unit
  current : Layout available header slabCap packing.cur packing.used
  fresh : packing.cur = [] → packing.used = 0

variable {available header slabCap}

/-- A slab without tensors is laid out, which is how every slab starts. -/
theorem Layout.empty : Layout available header slabCap [] 0 :=
  ⟨fun _ member => absurd member List.not_mem_nil, fun _ member => absurd member List.not_mem_nil,
    fun _ member => absurd member List.not_mem_nil, List.Pairwise.nil, Nat.zero_le _⟩

/-- A tensor put past the others, at an aligned place, extends the slab. -/
theorem Layout.snoc {entries : List Entry} {used : Nat}
    (layout : Layout available header slabCap entries used) (entry : Entry)
    (packable : Packable available header entry) (aligned : align ∣ entry.off)
    (beyond : used ≤ entry.off) (fits : entry.stop ≤ slabCap) :
    Layout available header slabCap (entries ++ [entry]) entry.stop := by
  refine ⟨?_, ?_, ?_, ?_, fits⟩
  · intro other member
    obtain before | same := List.mem_append.mp member
    · exact layout.packable other before
    · obtain rfl := List.mem_singleton.mp same
      exact packable
  · intro other member
    obtain before | same := List.mem_append.mp member
    · exact layout.aligned other before
    · obtain rfl := List.mem_singleton.mp same
      exact aligned
  · intro other member
    obtain before | same := List.mem_append.mp member
    · exact ((layout.inside other before).trans beyond).trans (Nat.le_add_right _ _)
    · obtain rfl := List.mem_singleton.mp same
      exact le_rfl
  · rw [List.pairwise_append]
    refine ⟨layout.disjoint, List.pairwise_singleton _ _, fun other before last same => ?_⟩
    obtain rfl := List.mem_singleton.mp same
    exact (layout.inside other before).trans beyond

/-- Closing the current slab keeps the packing and leaves no current one. -/
theorem Packed.cut {packing : Packing} {names : List String}
    (packed : Packed available header slabCap packing names) :
    Packed available header slabCap packing.cut names ∧ packing.cut.cur = [] := by
  rw [Packing.cut]
  split
  next empty => exact ⟨packed, List.isEmpty_iff.mp empty⟩
  next filled =>
    have some : packing.cur ≠ [] := fun empty => filled (List.isEmpty_iff.mpr empty)
    refine ⟨⟨?_, ?_, Layout.empty, fun _ => rfl⟩, rfl⟩
    · rw [List.flatMap_append, List.map_nil, List.append_nil, ← packed.ordered,
        List.flatMap_singleton]
      rfl
    · intro unit member
      obtain before | same := List.mem_append.mp member
      · exact packed.closed unit before
      · obtain rfl := List.mem_singleton.mp same
        exact ⟨some, packed.current⟩

/-- Passing a tensor through appends it after the closed slab. -/
theorem Packed.pass {packing : Packing} {names : List String}
    (packed : Packed available header slabCap packing names) (name : String) :
    Packed available header slabCap
      { packing.cut with units := packing.cut.units ++ [.mmap name] } (names ++ [name]) := by
  obtain ⟨cut, empty⟩ := packed.cut
  refine ⟨?_, ?_, cut.current, cut.fresh⟩
  · rw [← cut.ordered, empty, List.map_nil, List.append_nil, List.append_nil, List.flatMap_append,
      List.flatMap_singleton]
    rfl
  · intro unit member
    obtain before | same := List.mem_append.mp member
    · exact cut.closed unit before
    · obtain rfl := List.mem_singleton.mp same
      trivial

/-- Putting a tensor into the current slab. -/
theorem Packed.put {packing : Packing} {names : List String}
    (packed : Packed available header slabCap packing names) (entry : Entry)
    (packable : Packable available header entry) (aligned : align ∣ entry.off)
    (beyond : packing.used ≤ entry.off) (fits : entry.stop ≤ slabCap) :
    Packed available header slabCap
      { packing with cur := packing.cur ++ [entry], used := entry.stop }
      (names ++ [entry.name]) := by
  refine ⟨?_, packed.closed, packed.current.snoc entry packable aligned beyond fits, ?_⟩
  · rw [← packed.ordered, List.map_append, List.append_assoc]
    rfl
  · exact fun empty => absurd empty (List.append_ne_nil_of_right_ne_nil _ (List.cons_ne_nil _ _))

/-- The next aligned place is aligned and not before the used length. -/
theorem next_place (used : Nat) :
    align ∣ (used + align - 1) / align * align ∧ used ≤ (used + align - 1) / align * align := by
  refine ⟨Nat.dvd_mul_left _ _, ?_⟩
  have parts := Nat.div_add_mod (used + align - 1) align
  have small := Nat.mod_lt (used + align - 1) (show 0 < align by decide)
  rw [Nat.mul_comm]
  omega

/-- The loop body of `_plan_file` keeps the packing: one more name is in the units or in the open
slab, behind all earlier ones. -/
theorem Packed.add {packing : Packing} {names : List String}
    (packed : Packed available header slabCap packing names) (name : String) :
    Packed available header slabCap (packing.add available header slabCap name)
      (names ++ [name]) := by
  rw [Packing.add]
  cases found : header name with
  | none => exact packed.pass name
  | some info =>
    dsimp only
    split
    next passed => exact packed.pass name
    next kept =>
      obtain ⟨some, small, known⟩ := not_or.mp kept |>.imp_right not_or.mp
      have bytes : 0 < info.nbytes := by
        rw [Info.nbytes]
        omega
      have fits : info.nbytes ≤ slabCap := by
        rw [Info.nbytes]
        omega
      have packable : ∀ off, Packable available header ⟨name, off, info⟩ := fun off =>
        ⟨found, by simpa [Option.isSome_iff_ne_none] using known, bytes⟩
      split
      next cutting =>
        obtain ⟨cut, empty⟩ := packed.cut
        refine cut.put ⟨name, 0, info⟩ (packable 0) (Nat.dvd_zero _) ?_ ?_
        · exact (cut.fresh empty).le
        · simpa [Entry.stop] using fits
      next fitting =>
        obtain ⟨aligned, beyond⟩ := next_place packing.used
        refine packed.put ⟨name, _, info⟩ (packable _) aligned beyond ?_
        rw [Entry.stop]
        by_cases empty : packing.cur = []
        · rw [packed.fresh empty]
          simpa [align] using fits
        · exact not_lt.mp fun beyond => fitting ⟨beyond, by simpa using empty⟩

/-- The plan holds every name once, in the given order, and lays out every unit. -/
theorem planFile_packed (names : List String) :
    (planFile available header slabCap names).flatMap LoadUnit.names = names ∧
      ∀ unit ∈ planFile available header slabCap names, LaidOut available header slabCap unit := by
  have packed : ∀ (names before : List String) (packing : Packing),
      Packed available header slabCap packing before →
      Packed available header slabCap
        (names.foldl (Packing.add available header slabCap) packing) (before ++ names) := by
    intro names
    induction names with
    | nil =>
      intro before packing packed
      rwa [List.append_nil]
    | cons name rest ih =>
      intro before packing packed
      have next := ih (before ++ [name]) _ (packed.add name)
      rwa [List.append_assoc] at next
  have start : Packed available header slabCap ⟨[], [], 0⟩ [] :=
    ⟨rfl, fun _ member => absurd member List.not_mem_nil, Layout.empty, fun _ => rfl⟩
  obtain ⟨cut, empty⟩ := (packed names [] _ start).cut
  refine ⟨?_, cut.closed⟩
  have ordered := cut.ordered
  rwa [empty, List.map_nil, List.append_nil, List.nil_append] at ordered

end Planner

end GlmSpark.FastLoad
