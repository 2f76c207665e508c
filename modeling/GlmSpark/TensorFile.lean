import GlmSpark.Dict
import GlmSpark.StridedArray

/-!
# Writing and reading a safetensors file

`save_safetensors` of `fpfmt.py` writes the length of a header, the header padded with
spaces, and the elements of the tensors one after another; the header has the type, the
shape and the place of each. `SafeTensors` reads the header and maps a tensor, or some of
its rows, from its place.

An array is strided; its elements are their bytes. JSON and the conversion of an array to
another type are parameters.
-/

namespace GlmSpark.TensorFile

open StridedArray

/-- A byte. -/
abbrev Byte := BitVec 8

/-- The element types of the table. -/
inductive NpDtype
  | uint16
  | float16
  | float32
  | float64
  | uint8
  | int8
  | int16
  | int32
  | int64
  | bool
  deriving DecidableEq, Repr

/-- `itemsize`. -/
def NpDtype.itemsize : NpDtype → ℕ
  | uint8 | int8 | bool => 1
  | uint16 | float16 | int16 => 2
  | float32 | int32 => 4
  | float64 | int64 => 8

/-- `_ST_DT`: the type codes of the format, with the element type and its size. -/
def stDt : List (String × NpDtype × ℕ) :=
  [("BF16", .uint16, 2), ("F16", .float16, 2), ("F32", .float32, 4), ("F64", .float64, 8),
    ("U8", .uint8, 1), ("I8", .int8, 1), ("I16", .int16, 2), ("I32", .int32, 4),
    ("I64", .int64, 8), ("F8_E4M3", .uint8, 1), ("BOOL", .bool, 1)]

/-- An array of a type. -/
structure NdArray where
  dtype : NpDtype
  data : Strided Byte
  /-- An element has its type's size. -/
  sized : data.width = dtype.itemsize

namespace NdArray

/-- Two arrays of one type with the same elements. -/
structure Same (a b : NdArray) : Prop where
  dtype : a.dtype = b.dtype
  data : a.data.Same b.data

/-- Sameness of arrays is transitive: the same type, and the same data up to its layout. -/
theorem Same.trans {a b c : NdArray} (first : a.Same b) (second : b.Same c) : a.Same c :=
  ⟨first.dtype.trans second.dtype, first.data.trans second.data⟩

/-- `np.array(a)` and `a.copy(order="C")`. -/
def copy (a : NdArray) : NdArray := ⟨a.dtype, a.data.copy, a.sized⟩

/-- `a[lo:hi]`. -/
def slice (a : NdArray) (some_ : a.data.shape ≠ []) (lo hi : ℤ) : NdArray :=
  ⟨a.dtype, a.data.slice some_ lo hi, a.sized⟩

/-- `a[0]` of one row. -/
def scalar (a : NdArray) : NdArray := ⟨a.dtype, a.data.scalar, a.sized⟩

/-- The array itself where it is contiguous, otherwise a copy. -/
def ordered (a : NdArray) : NdArray := if a.data.Contiguous then a else a.copy

/-- `tobytes` of a contiguous array. -/
def tobytes (a : NdArray) : List Byte := a.data.cells

/-- A copy has the type and the elements of the original. -/
theorem copy_same (a : NdArray) : a.copy.Same a := ⟨rfl, a.data.copy_same⟩

/-- So has the contiguous version that the writer makes. -/
theorem ordered_same (a : NdArray) : a.ordered.Same a := by
  rw [ordered]
  split
  · exact ⟨rfl, .refl _⟩
  · exact a.copy_same

/-- What the writer writes is contiguous, so its cells are the elements in order. -/
theorem ordered_contiguous (a : NdArray) : a.ordered.data.Contiguous := by
  rw [ordered]
  split
  next follow => exact follow
  next => exact a.data.copy_contiguous

end NdArray

/-- `astype`, which keeps the shape and changes nothing when the type is the array's. -/
structure Numpy where
  astype : NdArray → NpDtype → NdArray
  astype_dtype : ∀ a dtype, (astype a dtype).dtype = dtype
  astype_shape : ∀ a dtype, (astype a dtype).data.shape = a.data.shape
  astype_same : ∀ a, astype a a.dtype = a

/-- A tensor to write: its type code and its array. -/
structure Tensor where
  dtype : String
  array : NdArray

/-- A tensor's entry of the header. -/
structure Info where
  dtype : String
  shape : List ℕ
  dataOffsets : ℕ × ℕ
  deriving DecidableEq, Repr

/-- What a key of the header stores. -/
inductive HeaderValue
  | tensor (info : Info)
  | metadata (entries : List (String × String))
  deriving DecidableEq, Repr

/-- The header, in insertion order. -/
abbrev Header := List (String × HeaderValue)

/-- `json.dumps(..).encode()` and `json.loads`. -/
structure Json where
  dumps : Header → List Byte
  loads : List Byte → Option Header

/-- The key of the metadata. -/
def metadataKey : String := "__metadata__"

/-- `struct.pack` of so many bytes, the lowest first. -/
def pack : ℕ → ℕ → List Byte
  | 0, _ => []
  | bytes + 1, n => BitVec.ofNat 8 n :: pack bytes (n / 256)

/-- `struct.unpack` of an unsigned number, least significant byte first. -/
def unpack (bytes : List Byte) : ℕ := bytes.foldr (fun byte n => byte.toNat + 256 * n) 0

/-- The running variables of `save_safetensors`: the header so far, the next offset and the bytes to
write. -/
structure Layout where
  header : Header
  off : ℕ
  blobs : List (List Byte)

/-- One tensor of the loop; an unknown type raises. -/
def addTensor (numpy : Numpy) (layout : Layout) (entry : String × Tensor) : Option Layout := do
  let (npdt, _) ← stDt.lookup entry.2.dtype
  let a := (numpy.astype entry.2.array npdt).ordered
  let raw := a.tobytes
  let info : Info := ⟨entry.2.dtype, a.data.shape, (layout.off, layout.off + raw.length)⟩
  some ⟨Dict.assign entry.1 (.tensor info) layout.header, layout.off + raw.length,
    layout.blobs ++ [raw]⟩

/-- The header and the elements; `str` has been applied to the metadata. -/
def layOut (numpy : Numpy) (tensors : List (String × Tensor))
    (metadata : List (String × String)) : Option Layout := do
  let layout ← tensors.foldlM (addTensor numpy) ⟨[], 0, []⟩
  if metadata ≠ [] then
    some { layout with header := Dict.assign metadataKey (.metadata metadata) layout.header }
  else some layout

/-- The header's bytes, a multiple of eight. -/
def headerBytes (json : Json) (header : Header) : List Byte :=
  let hb := json.dumps header
  hb ++ List.replicate (-(hb.length : ℤ) % 8).toNat 0x20

/-- `save_safetensors`: the file, unless a type is unknown or the header too long. -/
def saveSafetensors (numpy : Numpy) (json : Json) (tensors : List (String × Tensor))
    (metadata : List (String × String)) : Option (List Byte) := do
  let layout ← layOut numpy tensors metadata
  let hb := headerBytes json layout.header
  if hb.length < 2 ^ 64 then some (pack 8 hb.length ++ hb ++ layout.blobs.flatten) else none

/-- `SafeTensors`: a file, its header without the metadata, and where its data starts. -/
structure SafeTensors where
  path : List Byte
  header : Header
  base : ℕ
  metadata : Option HeaderValue

namespace SafeTensors

/-- `__init__`: the length of the header, the header, and the base behind it; a short file raises.
-/
def init (json : Json) (path : List Byte) : Option SafeTensors :=
  if path.length < 8 then none
  else
    let n := unpack (path.take 8)
    (json.loads ((path.drop 8).take n)).map fun header =>
      ⟨path, Dict.erase metadataKey header, 8 + n, header.lookup metadataKey⟩

/-- `keys`. -/
def keys (reader : SafeTensors) : List String := reader.header.map Prod.fst

/-- `self.header[name]` of a tensor. -/
def entry (reader : SafeTensors) (name : String) : Option Info :=
  match reader.header.lookup name with
  | some (.tensor info) => some info
  | _ => none

/-- `info`. -/
def info (reader : SafeTensors) (name : String) : Option (String × List ℕ) :=
  (reader.entry name).map fun h => (h.dtype, h.shape)

/-- `np.memmap`: consecutive elements of the file, which must reach that far. A shape with a zero
gives an array without elements. -/
def memmap (path : List Byte) (dtype : NpDtype) (offset : ℕ) (shape : List ℕ) : Option NdArray :=
  if path.length < offset + dtype.itemsize * shape.prod then none
  else some ⟨dtype, .mapped (fun cell => path.getD cell.toNat 0) offset dtype.itemsize shape, rfl⟩

/-- `get`: the tensor, or its rows `lo:hi`. -/
def get (reader : SafeTensors) (name : String) (rows : Option (ℤ × ℤ)) : Option NdArray := do
  let h ← reader.entry name
  let (dt, _) ← stDt.lookup h.dtype
  let mm ← memmap reader.path dt (reader.base + h.dataOffsets.1)
    (if h.shape ≠ [] then h.shape else [1])
  if h.shape = [] then some mm.scalar.copy
  else match rows with
    | none => some mm.copy
    | some (lo, hi) => if some_ : mm.data.shape ≠ [] then some (mm.slice some_ lo hi).copy else none

end SafeTensors

section Length

/-- A number that fits its bytes is read back as it was written, least significant byte first. -/
theorem unpack_pack (bytes n : ℕ) (fits : n < 256 ^ bytes) : unpack (pack bytes n) = n := by
  induction bytes generalizing n with
  | zero => simpa [pack, unpack] using (Nat.lt_one_iff.mp fits).symm
  | succ bytes ih =>
    have later : n / 256 < 256 ^ bytes := by
      rw [Nat.pow_succ] at fits
      exact Nat.div_lt_of_lt_mul (Nat.mul_comm _ _ ▸ fits)
    have rest := ih (n / 256) later
    rw [unpack] at rest
    rw [pack, unpack, List.foldr_cons, rest, BitVec.toNat_ofNat]
    exact Nat.mod_add_div n 256

/-- A packed number has the bytes it was given. -/
@[simp] theorem pack_length (bytes n : ℕ) : (pack bytes n).length = bytes := by
  induction bytes generalizing n with
  | zero => rfl
  | succ bytes ih => rw [pack, List.length_cons, ih]

end Length

section Ranges

/-- The places of the tensors of a header, in order. -/
def rangesOf (header : Header) : List (ℕ × ℕ) :=
  header.filterMap fun
    | (_, .tensor info) => some info.dataOffsets
    | (_, .metadata _) => none

/-- Ranges that follow one another without a gap. -/
def Consecutive : ℕ → List (ℕ × ℕ) → ℕ → Prop
  | start, [], stop => start = stop
  | start, range :: rest, stop => range.1 = start ∧ range.1 ≤ range.2 ∧ Consecutive range.2 rest stop

variable {start middle stop : ℕ} {ranges : List (ℕ × ℕ)}

/-- One more range behind the last keeps the ranges consecutive. -/
theorem Consecutive.snoc (follow : Consecutive start ranges middle) (order : middle ≤ stop) :
    Consecutive start (ranges ++ [(middle, stop)]) stop := by
  induction ranges generalizing start with
  | nil => exact ⟨follow.symm, order, rfl⟩
  | cons range rest ih => exact ⟨follow.1, follow.2.1, ih follow.2.2⟩

/-- Consecutive ranges lie between their start and their end. -/
theorem Consecutive.inside (follow : Consecutive start ranges stop) :
    start ≤ stop ∧ ∀ range ∈ ranges, start ≤ range.1 ∧ range.2 ≤ stop := by
  induction ranges generalizing start with
  | nil => exact ⟨follow.le, fun _ none => absurd none List.not_mem_nil⟩
  | cons range rest ih =>
    obtain ⟨first, order, later⟩ := follow
    obtain ⟨after, bounds⟩ := ih later
    refine ⟨by omega, fun other listed => ?_⟩
    rcases List.mem_cons.mp listed with rfl | further
    · exact ⟨first.ge, after⟩
    · exact ⟨by have := (bounds other further).1; omega, (bounds other further).2⟩

/-- Consecutive ranges are disjoint, in the order they are listed. -/
theorem Consecutive.disjoint (follow : Consecutive start ranges stop) :
    ranges.Pairwise fun one other => one.2 ≤ other.1 := by
  induction ranges generalizing start with
  | nil => exact List.Pairwise.nil
  | cons range rest ih =>
    obtain ⟨_, _, later⟩ := follow
    exact List.pairwise_cons.mpr ⟨fun other listed => (later.inside.2 other listed).1, ih later⟩

end Ranges

section Writing

variable (numpy : Numpy)

/-- A tensor's elements as they are written. -/
def written (tensor : Tensor) (npdt : NpDtype) : NdArray :=
  (numpy.astype tensor.array npdt).ordered

/-- What the loop has laid out of some tensors. -/
structure Laid (done : List (String × Tensor)) (layout : Layout) : Prop where
  names : layout.header.map Prod.fst = done.map Prod.fst
  size : layout.blobs.flatten.length = layout.off
  ranges : Consecutive 0 (rangesOf layout.header) layout.off
  entry : ∀ name tensor, (name, tensor) ∈ done → ∃ npdt size start,
    stDt.lookup tensor.dtype = some (npdt, size) ∧
    (name, .tensor ⟨tensor.dtype, tensor.array.data.shape,
      (start, start + (written numpy tensor npdt).tobytes.length)⟩) ∈ layout.header ∧
    start + (written numpy tensor npdt).tobytes.length ≤ layout.off ∧
    (layout.blobs.flatten.drop start).take (written numpy tensor npdt).tobytes.length =
      (written numpy tensor npdt).tobytes

variable {numpy}

/-- One more tensor is laid out behind the others. -/
theorem Laid.add {done : List (String × Tensor)} {layout : Layout} (laid : Laid numpy done layout)
    (name : String) (tensor : Tensor) (fresh : name ∉ done.map Prod.fst) {npdt : NpDtype} {size : ℕ}
    (supported : stDt.lookup tensor.dtype = some (npdt, size)) :
    ∃ next, addTensor numpy layout (name, tensor) = some next ∧
      Laid numpy (done ++ [(name, tensor)]) next := by
  have shape : (written numpy tensor npdt).data.shape = tensor.array.data.shape :=
    (NdArray.ordered_same _).data.shape.trans (numpy.astype_shape _ _)
  refine ⟨⟨layout.header ++ [(name, .tensor ⟨tensor.dtype, tensor.array.data.shape,
    (layout.off, layout.off + (written numpy tensor npdt).tobytes.length)⟩)],
    layout.off + (written numpy tensor npdt).tobytes.length,
    layout.blobs ++ [(written numpy tensor npdt).tobytes]⟩, ?_, ?_, ?_, ?_, ?_⟩
  · rw [← laid.names] at fresh
    simp only [addTensor, supported, Option.bind_eq_bind, Option.bind_some,
      Dict.assign_absent name _ _ fresh, ← shape, written]
  · rw [List.map_append, laid.names, List.map_append]
    rfl
  · rw [List.flatten_append, List.length_append, laid.size, List.flatten_singleton]
  · rw [rangesOf, List.filterMap_append]
    exact laid.ranges.snoc (Nat.le_add_right _ _)
  · intro other tensor' listed
    rcases List.mem_append.mp listed with earlier | last
    · obtain ⟨npdt', size', start, supported', stored, inside, bytes⟩ :=
        laid.entry other tensor' earlier
      refine ⟨npdt', size', start, supported', List.mem_append_left _ stored,
        inside.trans (Nat.le_add_right _ _), ?_⟩
      rw [List.flatten_append, List.drop_append_of_le_length (by rw [laid.size]; omega),
        List.take_append_of_le_length (by rw [List.length_drop, laid.size]; omega), bytes]
    · obtain ⟨rfl, rfl⟩ : other = name ∧ tensor' = tensor := by simpa using last
      refine ⟨npdt, size, layout.off, supported, by simp, le_rfl, ?_⟩
      rw [List.flatten_append, List.flatten_singleton, ← laid.size, List.drop_left, List.take_length]

/-- The loop lays out tensors of known types. -/
theorem Laid.loop {done : List (String × Tensor)} {layout : Layout} (laid : Laid numpy done layout)
    (tensors : List (String × Tensor)) (distinct : ((done ++ tensors).map Prod.fst).Nodup)
    (supported : ∀ entry ∈ tensors, (stDt.lookup entry.2.dtype).isSome) :
    ∃ last, tensors.foldlM (addTensor numpy) layout = some last ∧
      Laid numpy (done ++ tensors) last := by
  induction tensors generalizing done layout with
  | nil => exact ⟨layout, rfl, by rwa [List.append_nil]⟩
  | cons entry tensors ih =>
    obtain ⟨name, tensor⟩ := entry
    obtain ⟨⟨npdt, size⟩, known⟩ := Option.isSome_iff_exists.mp
      (supported (name, tensor) List.mem_cons_self)
    have fresh : name ∉ done.map Prod.fst := by
      rw [List.map_append, List.map_cons] at distinct
      intro listed
      exact (List.nodup_append.mp distinct).2.2 name listed name List.mem_cons_self rfl
    obtain ⟨next, stepped, kept⟩ := laid.add name tensor fresh known
    have regrouped : done ++ (name, tensor) :: tensors = (done ++ [(name, tensor)]) ++ tensors := by
      rw [List.append_assoc, List.singleton_append]
    rw [regrouped] at distinct ⊢
    obtain ⟨last, looped, all⟩ := ih kept distinct fun entry listed =>
      supported entry (List.mem_cons_of_mem _ listed)
    exact ⟨last, by rw [List.foldlM_cons, stepped]; exact looped, all⟩

end Writing

section Reading

variable {numpy : Numpy} {tensors : List (String × Tensor)} {layout : Layout}
  {reader : SafeTensors}

/-- The header is laid out of tensors of known types, with the metadata under its own key. -/
theorem layOut_laid (numpy : Numpy) (metadata : List (String × String))
    (distinct : (tensors.map Prod.fst).Nodup)
    (plain : metadataKey ∉ tensors.map Prod.fst)
    (supported : ∀ entry ∈ tensors, (stDt.lookup entry.2.dtype).isSome) :
    ∃ layout header, Laid numpy tensors layout ∧
      layOut numpy tensors metadata = some { layout with header := header } ∧
      Dict.erase metadataKey header = layout.header ∧
      header.lookup metadataKey = if metadata ≠ [] then some (.metadata metadata) else none := by
  have start : Laid numpy [] ⟨[], 0, []⟩ :=
    ⟨rfl, rfl, rfl, fun _ _ none => absurd none List.not_mem_nil⟩
  obtain ⟨layout, looped, laid⟩ := start.loop tensors distinct supported
  rw [List.nil_append] at laid
  have absent : metadataKey ∉ layout.header.map Prod.fst := laid.names ▸ plain
  by_cases some_ : metadata ≠ []
  · refine ⟨layout, _, laid, ?_, Dict.erase_assign metadataKey (.metadata metadata) _ absent, ?_⟩
    · rw [layOut, looped, Option.bind_eq_bind, Option.bind_some, if_pos some_]
    · rw [Dict.lookup_assign, if_pos rfl, if_pos some_]
  · refine ⟨layout, _, laid, ?_, Dict.erase_absent metadataKey _ absent, ?_⟩
    · rw [layOut, looped, Option.bind_eq_bind, Option.bind_some, if_neg some_]
    · rw [Dict.lookup_eq_none metadataKey _ absent, if_neg some_]

/-- The reader finds the header and the base of the data. -/
theorem init_file (json : Json) (hb data : List Byte) (header : Header) (small : hb.length < 2 ^ 64)
    (decoded : json.loads hb = some header) :
    SafeTensors.init json (pack 8 hb.length ++ hb ++ data) =
      some ⟨pack 8 hb.length ++ hb ++ data, Dict.erase metadataKey header, 8 + hb.length,
        header.lookup metadataKey⟩ := by
  have length : unpack ((pack 8 hb.length ++ hb ++ data).take 8) = hb.length := by
    rw [List.append_assoc, List.take_append_of_le_length (by simp),
      List.take_of_length_le (by simp), unpack_pack 8 _ small]
  have bytes : ((pack 8 hb.length ++ hb ++ data).drop 8).take hb.length = hb := by
    rw [List.append_assoc, List.drop_left' (by simp), List.take_left' rfl]
  have long : ¬ (pack 8 hb.length ++ hb ++ data).length < 8 := by simp
  rw [SafeTensors.init, if_neg long]
  dsimp only
  rw [length, bytes, decoded, Option.map_some]

/-- A reader of a file with these tensors laid out. -/
structure Reads (numpy : Numpy) (tensors : List (String × Tensor)) (layout : Layout)
    (reader : SafeTensors) : Prop where
  laid : Laid numpy tensors layout
  header : reader.header = layout.header
  data : reader.path.drop reader.base = layout.blobs.flatten
  length : reader.path.length = reader.base + layout.off
  distinct : (tensors.map Prod.fst).Nodup

/-- A tensor's entry, and its elements where the entry says. -/
theorem Reads.tensor (reads : Reads numpy tensors layout reader) {name : String} {tensor : Tensor}
    (listed : (name, tensor) ∈ tensors) : ∃ npdt size start,
      stDt.lookup tensor.dtype = some (npdt, size) ∧
      (∃ stop, reader.entry name =
        some ⟨tensor.dtype, tensor.array.data.shape, (start, stop)⟩) ∧
      reader.base + start + npdt.itemsize * tensor.array.data.shape.prod ≤ reader.path.length ∧
      Strided.Same (.mapped (fun cell => reader.path.getD cell.toNat 0)
        (reader.base + start : ℕ) npdt.itemsize tensor.array.data.shape)
        (numpy.astype tensor.array npdt).data := by
  obtain ⟨npdt, size, start, supported, stored, inside, bytes⟩ :=
    reads.laid.entry name tensor listed
  have same := NdArray.ordered_same (numpy.astype tensor.array npdt)
  have shape : (written numpy tensor npdt).data.shape = tensor.array.data.shape :=
    same.data.shape.trans (numpy.astype_shape _ _)
  have width : (written numpy tensor npdt).data.width = npdt.itemsize := by
    rw [(written numpy tensor npdt).sized]
    exact congrArg NpDtype.itemsize (same.dtype.trans (numpy.astype_dtype _ _))
  have count : (written numpy tensor npdt).tobytes.length =
      npdt.itemsize * tensor.array.data.shape.prod := by
    rw [NdArray.tobytes, Strided.cells_length, width, shape]
  have names : (reader.header.map Prod.fst).Nodup := by
    rw [reads.header, reads.laid.names]
    exact reads.distinct
  refine ⟨npdt, size, start, supported, ⟨start + (written numpy tensor npdt).tobytes.length, ?_⟩,
    ?_, ?_⟩
  · rw [← reads.header, ← Dict.lookup_eq_some_iff _ names] at stored
    rw [SafeTensors.entry, stored]
  · rw [reads.length, ← count]
    omega
  · have holds : ∀ (k : ℕ) (below : k < (written numpy tensor npdt).data.cells.length),
        reader.path.getD (((reader.base + start : ℕ) : ℤ) + k).toNat 0 =
          (written numpy tensor npdt).data.cells[k] := by
      intro k below
      have cell : (((reader.base + start : ℕ) : ℤ) + k).toNat = reader.base + (start + k) := by
        omega
      have there : (written numpy tensor npdt).data.cells[k]? =
          reader.path[reader.base + (start + k)]? := by
        change k < (written numpy tensor npdt).tobytes.length at below
        change (written numpy tensor npdt).tobytes[k]? = _
        rw [← bytes, List.getElem?_take_of_lt below, List.getElem?_drop, ← reads.data,
          List.getElem?_drop]
      rw [cell, List.getD_eq_getElem?_getD, ← there, List.getElem?_eq_getElem below,
        Option.getD_some]
    have mapped := (written numpy tensor npdt).data.mapped_same
      (NdArray.ordered_contiguous _) (fun cell => reader.path.getD cell.toNat 0) _ holds
    rw [width, shape] at mapped
    exact mapped.trans same.data

/-- What `get` returns of a tensor: its elements, or those of its rows; a tensor without dimensions
has no rows. -/
theorem Reads.get (reads : Reads numpy tensors layout reader) {name : String} {tensor : Tensor}
    (listed : (name, tensor) ∈ tensors) :
    ∃ npdt size, stDt.lookup tensor.dtype = some (npdt, size) ∧
      (∃ all, reader.get name none = some all ∧ all.Same (numpy.astype tensor.array npdt)) ∧
      ∀ lo hi, ∃ rows, reader.get name (some (lo, hi)) = some rows ∧
        if dims : (numpy.astype tensor.array npdt).data.shape ≠ [] then
          rows.Same ((numpy.astype tensor.array npdt).slice dims lo hi)
        else rows.Same (numpy.astype tensor.array npdt) := by
  obtain ⟨npdt, size, start, supported, ⟨stop, entry⟩, inside, mapped⟩ := reads.tensor listed
  have shape := numpy.astype_shape tensor.array npdt
  let view : NdArray := ⟨npdt, .mapped (fun cell => reader.path.getD cell.toNat 0)
    (reader.base + start : ℕ) npdt.itemsize tensor.array.data.shape, rfl⟩
  have same : view.Same (numpy.astype tensor.array npdt) :=
    ⟨(numpy.astype_dtype tensor.array npdt).symm, mapped⟩
  refine ⟨npdt, size, supported, ?_⟩
  by_cases dims : tensor.array.data.shape = []
  · -- One element is mapped, and read without rows.
    have scalar : ∀ rows, reader.get name rows = some view.copy := by
      intro rows
      have reaches : ¬ reader.path.length < reader.base + start + npdt.itemsize * [1].prod := by
        rw [dims] at inside
        simpa using inside
      simp only [SafeTensors.get, entry, supported, SafeTensors.memmap, dims, ne_eq,
        not_true_eq_false, if_false, reaches, Option.bind_eq_bind, Option.bind_some, if_true]
      simp only [view, dims]
      rfl
    refine ⟨⟨_, scalar none, view.copy_same.trans same⟩, fun lo hi => ⟨_, scalar _, ?_⟩⟩
    rw [dif_neg (not_not.mpr (shape.trans dims))]
    exact view.copy_same.trans same
  · have reaches : ¬ reader.path.length <
        reader.base + start + npdt.itemsize * tensor.array.data.shape.prod := Nat.not_lt.mpr inside
    constructor
    · refine ⟨view.copy, ?_, view.copy_same.trans same⟩
      simp only [SafeTensors.get, entry, supported, SafeTensors.memmap, dims, ne_eq,
        not_false_eq_true, if_true, reaches, if_false, Option.bind_eq_bind, Option.bind_some]
      rfl
    · intro lo hi
      refine ⟨(view.slice dims lo hi).copy, ?_, ?_⟩
      · simp only [SafeTensors.get, entry, supported, SafeTensors.memmap, dims, ne_eq,
          not_false_eq_true, if_true, reaches, if_false, Option.bind_eq_bind, Option.bind_some]
        exact dif_pos dims
      · rw [dif_pos (shape.symm ▸ dims)]
        exact (view.slice dims lo hi).copy_same.trans ⟨same.dtype, same.data.slice dims lo hi⟩

end Reading

/-- A file of tensors of known types with distinct names, of any shapes, is written when its header's
length fits eight bytes. What is read back are the names, types and shapes in
order, every tensor's elements as its type's, and any rows of them; the places of the tensors follow
one another up to the end of the file. -/
theorem safetensors_round_trip (numpy : Numpy) (json : Json) (tensors : List (String × Tensor))
    (metadata : List (String × String)) (distinct : (tensors.map Prod.fst).Nodup)
    (plain : metadataKey ∉ tensors.map Prod.fst)
    (supported : ∀ entry ∈ tensors, (stDt.lookup entry.2.dtype).isSome)
    (undone : ∀ layout ∈ layOut numpy tensors metadata, ∀ spaces,
      json.loads (json.dumps layout.header ++ List.replicate spaces 0x20) = some layout.header) :
    (∃ layout, layOut numpy tensors metadata = some layout ∧
      ((saveSafetensors numpy json tensors metadata).isSome ↔
        (headerBytes json layout.header).length < 2 ^ 64)) ∧
    ∀ file, saveSafetensors numpy json tensors metadata = some file →
      ∃ reader total, SafeTensors.init json file = some reader ∧
        reader.keys = tensors.map Prod.fst ∧
        reader.metadata = (if metadata ≠ [] then some (.metadata metadata) else none) ∧
        (∀ name tensor, (name, tensor) ∈ tensors →
          reader.info name = some (tensor.dtype, tensor.array.data.shape) ∧
          ∃ npdt size, stDt.lookup tensor.dtype = some (npdt, size) ∧
            (∃ all, reader.get name none = some all ∧
              all.Same (numpy.astype tensor.array npdt)) ∧
            ∀ lo hi, ∃ rows, reader.get name (some (lo, hi)) = some rows ∧
              if dims : (numpy.astype tensor.array npdt).data.shape ≠ [] then
                rows.Same ((numpy.astype tensor.array npdt).slice dims lo hi)
              else rows.Same (numpy.astype tensor.array npdt)) ∧
        Consecutive 0 (rangesOf reader.header) total ∧
        (rangesOf reader.header).Pairwise (fun one other => one.2 ≤ other.1) ∧
        file.length = reader.base + total := by
  obtain ⟨layout, header, laid, out, erased, known⟩ :=
    layOut_laid numpy metadata distinct plain supported
  have decoded : json.loads (headerBytes json header) = some header := undone _ out _
  constructor
  · refine ⟨_, out, ?_⟩
    rw [saveSafetensors, out, Option.bind_eq_bind, Option.bind_some]
    dsimp only
    split
    next small => exact iff_of_true rfl small
    next long => exact iff_of_false Bool.noConfusion long
  · intro file saved
    rw [saveSafetensors, out, Option.bind_eq_bind, Option.bind_some] at saved
    dsimp only at saved
    split at saved
    next small =>
      obtain rfl := Option.some.inj saved
      have opened := init_file json (headerBytes json header) layout.blobs.flatten header small
        decoded
      rw [erased, known] at opened
      let reader : SafeTensors :=
        ⟨pack 8 (headerBytes json header).length ++ headerBytes json header ++ layout.blobs.flatten,
          layout.header, 8 + (headerBytes json header).length,
          if metadata ≠ [] then some (.metadata metadata) else none⟩
      have reads : Reads numpy tensors layout reader := by
        refine ⟨laid, rfl, ?_, ?_, distinct⟩
        · exact List.drop_left' (by simp [reader])
        · rw [List.length_append, List.length_append, pack_length, laid.size]
      refine ⟨reader, layout.off, opened, laid.names, rfl, ?_, laid.ranges, laid.ranges.disjoint,
        reads.length⟩
      intro name tensor listed
      refine ⟨?_, reads.get listed⟩
      obtain ⟨_, _, _, _, ⟨_, entry⟩, _⟩ := reads.tensor listed
      rw [SafeTensors.info, entry, Option.map_some]
    next => exact nomatch saved

/-- The conversion that is asked for nothing. -/
def sameType : Numpy where
  astype a dtype :=
    if same : a.dtype = dtype then a
    else ⟨dtype, .mapped (fun _ => 0) 0 dtype.itemsize a.data.shape, rfl⟩
  astype_dtype a dtype := by
    split
    next same => exact same
    next => rfl
  astype_shape a dtype := by split <;> rfl
  astype_same a := dif_pos rfl

/-- Two rows of three bytes, stored column by column, and a number without dimensions. -/
def twoTensors : List (String × Tensor) :=
  [("w", ⟨"U8", .uint8, ⟨1, [2, 3], [1, 2], 0, fun cell => BitVec.ofInt 8 cell, rfl⟩, rfl⟩),
    ("s", ⟨"BF16", .uint16, ⟨2, [], [], 0, fun cell => BitVec.ofInt 8 (cell + 7), rfl⟩, rfl⟩)]

/-- Their header. -/
def twoHeader : Header :=
  [("w", .tensor ⟨"U8", [2, 3], (0, 6)⟩), ("s", .tensor ⟨"BF16", [], (6, 8)⟩),
    (metadataKey, .metadata [("format", "pt")])]

/-- The text of the header. -/
def twoText : List Byte :=
  ("\x7b\"w\":\x7b\"dtype\":\"U8\",\"shape\":[2,3],\"data_offsets\":[0,6]\x7d," ++
    "\"s\":\x7b\"dtype\":\"BF16\",\"shape\":[],\"data_offsets\":[6,8]\x7d," ++
    "\"__metadata__\":\x7b\"format\":\"pt\"\x7d\x7d").toList.map fun c => BitVec.ofNat 8 c.toNat

/-- JSON of that header. -/
def twoJson : Json where
  dumps header := if header = twoHeader then twoText else []
  loads bytes :=
    if bytes.take twoText.length = twoText ∧ ∀ byte ∈ bytes.drop twoText.length, byte = 0x20 then
      some twoHeader
    else none

/-- The two tensors are laid out with their elements in the order of their indices. -/
theorem twoTensors_layout : layOut sameType twoTensors [("format", "pt")] =
    some ⟨twoHeader, 8, [[0, 2, 4, 1, 3, 5], [7, 8]]⟩ := by
  rfl

/-- The file of the two tensors is written and read back. -/
theorem safetensors_round_trip_two :
    ∃ file reader, saveSafetensors sameType twoJson twoTensors [("format", "pt")] = some file ∧
      SafeTensors.init twoJson file = some reader ∧ reader.keys = ["w", "s"] ∧
      reader.metadata = some (.metadata [("format", "pt")]) := by
  have undone : ∀ layout ∈ layOut sameType twoTensors [("format", "pt")], ∀ spaces,
      twoJson.loads (twoJson.dumps layout.header ++ List.replicate spaces 0x20) =
        some layout.header := by
    intro layout out spaces
    obtain rfl := Option.some.inj (twoTensors_layout.symm.trans out)
    have padded : (twoText ++ List.replicate spaces 0x20).take twoText.length = twoText ∧
        ∀ byte ∈ (twoText ++ List.replicate spaces 0x20).drop twoText.length, byte = 0x20 := by
      refine ⟨List.take_left, fun byte listed => ?_⟩
      rw [List.drop_left] at listed
      exact (List.mem_replicate.mp listed).2
    simp only [twoJson, if_true]
    exact if_pos padded
  obtain ⟨⟨layout, out, fits⟩, reads⟩ := safetensors_round_trip sameType twoJson twoTensors
    [("format", "pt")] (by decide) (by decide) (by decide) undone
  obtain rfl := Option.some.inj (twoTensors_layout.symm.trans out)
  have small : (headerBytes twoJson twoHeader).length < 2 ^ 64 := by decide +kernel
  obtain ⟨file, saved⟩ := Option.isSome_iff_exists.mp (fits.mpr small)
  obtain ⟨reader, _, opened, keys, kept, _⟩ := reads file saved
  exact ⟨file, reader, saved, opened, keys, kept⟩

end GlmSpark.TensorFile
