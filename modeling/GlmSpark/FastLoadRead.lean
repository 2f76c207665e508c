import GlmSpark.Scatter
import GlmSpark.Blocks
import Mathlib.Order.Nat
import Mathlib.Order.MinMax
import Mathlib.Algebra.Ring.Nat

/-!
# Reading a tensor into its place

`_read_into` and `_read_job` of `glm_fast_load.py` fill a place of a slab by calls of
`preadv`, each of which may read less than it was asked for. Their writes copy the file,
cell by cell, and cover the place.
-/

namespace GlmSpark.FastLoad

open Scatter

/-- A byte of a file. -/
abbrev Byte := BitVec 8

/-- `_CHUNK`: the bytes of one piece of a read. -/
def chunkSize : Nat := 64 * 2 ^ 20

/-- `_read_into`: calls of `preadv` until the piece is full; a call that reads nothing raises. -/
def readInto (content : List Byte) (served : Nat → Nat) (dest off n got : Nat) :
    Option (List (Write Byte)) :=
  if _inside : got < n then
    let piece := (content.drop (off + got)).take (min (max 1 (served (off + got))) (n - got))
    if _short : piece = [] then none
    else (readInto content served dest off n (got + piece.length)).map (⟨dest + got, piece⟩ :: ·)
  else some []
termination_by n - got
decreasing_by
  exact Nat.sub_lt_sub_left _inside (Nat.lt_add_of_pos_right (List.length_pos_of_ne_nil _short))

/-- `_read_job`: the pieces of a tensor, one after another. -/
def readJob (content : List Byte) (served : Nat → Nat) (dest off n : Nat) :
    Option (List (Write Byte)) :=
  ((List.range (Blocks.cdiv n chunkSize)).mapM fun c =>
    readInto content served (dest + c * chunkSize) (off + c * chunkSize)
      (min chunkSize (n - c * chunkSize)) 0).map List.flatten

/-- Writes copy a file into some places, the file's `off` to the memory's `dest`. -/
structure Copies (content : List Byte) (dest off low high : Nat) (writes : List (Write Byte)) :
    Prop where
  inside : ∀ write ∈ writes, low ≤ write.pos ∧ write.pos + write.cells.length ≤ high
  faithful : ∀ write ∈ writes, ∀ q, write.pos ≤ q → ∀ cell,
    write.cells[q - write.pos]? = some cell → content[off + (q - dest)]? = some cell
  covers : ∀ q, low ≤ q → q < high → ∃ write ∈ writes, write.Touches q

/-- No writes are needed to copy an empty range. -/
theorem Copies.nil (content : List Byte) (dest off low : Nat) :
    Copies content dest off low low [] :=
  ⟨fun _ member => absurd member List.not_mem_nil, fun _ member => absurd member List.not_mem_nil,
    fun _ after before => absurd before (Nat.not_lt.mpr after)⟩

/-- Copies of neighbouring ranges are together a copy of the whole range. The pieces of a read join
by it. -/
theorem Copies.append {content : List Byte} {dest off low mid high : Nat}
    {first second : List (Write Byte)} (before : Copies content dest off low mid first)
    (after : Copies content dest off mid high second) (lower : low ≤ mid) (upper : mid ≤ high) :
    Copies content dest off low high (first ++ second) := by
  refine ⟨?_, ?_, ?_⟩
  · intro write member
    obtain early | late := List.mem_append.mp member
    · have bounds := before.inside write early
      exact ⟨bounds.1, bounds.2.trans upper⟩
    · have bounds := after.inside write late
      exact ⟨lower.trans bounds.1, bounds.2⟩
  · intro write member
    obtain early | late := List.mem_append.mp member
    · exact before.faithful write early
    · exact after.faithful write late
  · intro q reached below
    obtain early | late := Nat.lt_or_ge q mid
    · obtain ⟨write, member, touched⟩ := before.covers q reached early
      exact ⟨write, List.mem_append_left _ member, touched⟩
    · obtain ⟨write, member, touched⟩ := after.covers q late below
      exact ⟨write, List.mem_append_right _ member, touched⟩

/-- A piece of the file at its place is a copy. -/
theorem Copies.piece (content : List Byte) (dest off got : Nat) (count : Nat) :
    Copies content dest off (dest + got)
      (dest + got + ((content.drop (off + got)).take count).length)
      [⟨dest + got, (content.drop (off + got)).take count⟩] := by
  refine ⟨?_, ?_, ?_⟩
  · intro write member
    obtain rfl := List.mem_singleton.mp member
    exact ⟨le_rfl, le_rfl⟩
  · intro write member q after cell stored
    obtain rfl := List.mem_singleton.mp member
    change dest + got ≤ q at after
    have read := List.getElem?_take_of_lt (l := content.drop (off + got))
      (List.getElem?_eq_some_iff.mp stored |>.1.trans_le (List.length_take_le _ _))
    change ((content.drop (off + got)).take count)[q - (dest + got)]? = some cell at stored
    rw [read, List.getElem?_drop] at stored
    have same : off + got + (q - (dest + got)) = off + (q - dest) := by omega
    rwa [same] at stored
  · exact fun q reached below => ⟨_, List.mem_singleton_self _, reached, below⟩

/-- A place within the file is filled by a loop of calls. -/
theorem readInto_copies (content : List Byte) (served : Nat → Nat) (dest off n got : Nat)
    (stored : off + n ≤ content.length) (progress : got ≤ n) :
    ∃ writes, readInto content served dest off n got = some writes ∧
      Copies content dest off (dest + got) (dest + n) writes := by
  rw [readInto]
  split
  next inside =>
    have length : ((content.drop (off + got)).take
        (min (max 1 (served (off + got))) (n - got))).length =
          min (max 1 (served (off + got))) (n - got) := by
      rw [List.length_take, List.length_drop]
      omega
    have piece := Copies.piece content dest off got (min (max 1 (served (off + got))) (n - got))
    have more :
        (content.drop (off + got)).take (min (max 1 (served (off + got))) (n - got)) ≠ [] := by
      apply List.ne_nil_of_length_pos
      omega
    obtain ⟨writes, rest, copies⟩ := readInto_copies content served dest off n
      (got + min (max 1 (served (off + got))) (n - got)) stored (by omega)
    rw [length] at piece
    dsimp only
    rw [dif_neg more, length, rest]
    exact ⟨_, rfl, piece.append (by rwa [Nat.add_assoc]) (by omega) (by omega)⟩
  next full =>
    obtain rfl : got = n := by omega
    exact ⟨[], rfl, Copies.nil content dest off _⟩
termination_by n - got
decreasing_by omega

/-- A copy does not depend on where its places are counted from. -/
theorem Copies.shift {content : List Byte} {dest off low high c : Nat} {writes : List (Write Byte)}
    (copies : Copies content (dest + c) (off + c) low high writes) (after : dest + c ≤ low) :
    Copies content dest off low high writes := by
  refine ⟨copies.inside, fun write member q reached cell stored => ?_, copies.covers⟩
  have read := copies.faithful write member q reached cell stored
  have start := (copies.inside write member).1
  have same : off + c + (q - (dest + c)) = off + (q - dest) := by omega
  rwa [same] at read

/-- The pieces of one size, one after another, copy what they reached. -/
theorem pieces_copy (content : List Byte) (served : Nat → Nat) (dest off n size : Nat)
    (positive : 0 < size) (stored : off + n ≤ content.length) (count : Nat)
    (started : count ≤ Blocks.cdiv n size) :
    ∃ parts, ((List.range count).mapM fun c =>
        readInto content served (dest + c * size) (off + c * size) (min size (n - c * size)) 0) =
          some parts ∧
      Copies content dest off dest (dest + min (count * size) n) parts.flatten := by
  induction count with
  | zero =>
    refine ⟨[], rfl, ?_⟩
    rw [Nat.zero_mul, Nat.zero_min, Nat.add_zero]
    exact Copies.nil content dest off dest
  | succ count ih =>
    obtain ⟨parts, read, copies⟩ := ih (Nat.le_of_succ_le started)
    have reached := (Blocks.lt_cdiv n size count positive).mp started
    obtain ⟨writes, filled, piece⟩ := readInto_copies content served (dest + count * size)
      (off + count * size) (min size (n - count * size)) 0 (by omega) (Nat.zero_le _)
    refine ⟨parts ++ [writes], ?_, ?_⟩
    · rw [List.range_succ, List.mapM_append, read]
      simp [filled]
    · rw [List.flatten_append, List.flatten_singleton]
      have whole : min (count * size) n = count * size := by omega
      have next : dest + count * size + min size (n - count * size) =
          dest + min ((count + 1) * size) n := by
        rw [Nat.add_mul, Nat.one_mul]
        omega
      rw [whole] at copies
      rw [Nat.add_zero, next] at piece
      exact copies.append (piece.shift le_rfl) (Nat.le_add_right _ _) (by rw [Nat.add_mul]; omega)

/-- A tensor within the file is copied to its place. -/
theorem readJob_copies (content : List Byte) (served : Nat → Nat) (dest off n : Nat)
    (stored : off + n ≤ content.length) :
    ∃ writes, readJob content served dest off n = some writes ∧
      Copies content dest off dest (dest + n) writes := by
  have positive : 0 < chunkSize := by decide
  obtain ⟨parts, read, copies⟩ := pieces_copy content served dest off n chunkSize positive stored
    _ le_rfl
  refine ⟨parts.flatten, by rw [readJob, read, Option.map_some], ?_⟩
  have enough : n ≤ Blocks.cdiv n chunkSize * chunkSize := by
    by_contra short
    exact absurd ((Blocks.lt_cdiv n chunkSize _ positive).mpr (not_le.mp short)) (Nat.lt_irrefl _)
  rwa [min_eq_right enough] at copies

end GlmSpark.FastLoad
