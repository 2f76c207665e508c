import GlmSpark.KpoolRun
import Mathlib.Algebra.Order.BigOperators.Group.List

/-!
# How large the tail ring has to be

Drafts are stashed before they are accepted. With too small a ring the drafts behind a
rejected pool-completing draft overwrite the keys that its redo reads. A ring does for all
runs exactly when it holds the open pool and the drafts behind it; the ring the cache is
given holds as much.
-/

namespace GlmSpark.KpoolTail

open Launch Program Ragged Runs

section Existence

variable {V : Type} [Inhabited V]

/-- Every batch can run: each of its launches has an interleaving, from any memory. -/
theorem Batch.exists_writes (compress : List V → V) (kpool ring : ℕ) (batch : Batch V)
    (memory : Cell → V) : ∃ final, batch.Writes compress kpool ring memory final := by
  obtain ⟨inserted, insert⟩ := exists_launch (batch.insert compress kpool) memory
  obtain ⟨seeded, seed⟩ := exists_launch (batch.seed kpool ring) inserted
  obtain ⟨final, update⟩ := exists_launch (batch.update compress kpool ring) seeded
  exact ⟨final, inserted, seeded, insert, seed, update⟩

/-- A batch of one decode row leaves what the row's turns leave. -/
theorem Batch.writes_single {compress : List V → V} {kpool ring : ℕ} (around : 0 < ring) {row : Row V}
    {slotIn : List ℤ} (mapped : (Batch.mk [row] [] slotIn).Mapped)
    (own : Own row.locs (row.past.length / kpool)) {memory final : Cell → V}
    (writes : (Batch.mk [row] [] slotIn).Writes compress kpool ring memory final) (cell : Cell) :
    final cell = (run (decodeTurns compress kpool ring (row.records kpool ring)) memory).2 cell := by
  obtain ⟨inserted, seeded, insert, seed, update⟩ := writes
  obtain ⟨keys, slots, tslots⟩ := Batch.arrays_eq kpool ring mapped
  have separate : Separate kpool [row] := ⟨List.pairwise_singleton _ _, fun other listed => by
    rw [List.mem_singleton.mp listed]
    exact own⟩
  have nobody : Separate kpool ([] : List (Row V)) := ⟨List.Pairwise.nil, fun _ listed => by cases listed⟩
  have quiet : seeded = memory := by
    funext cell
    rw [seed_frame around nobody (Batch.drop_eq keys) (Batch.drop_eq tslots) seed cell
      fun _ listed => (by cases listed), insert_frame (Batch.drop_eq slots) insert cell
      fun _ listed => (by cases listed)]
  rw [← quiet]
  exact Batch.update_alone around mapped separate update Nat.zero_lt_one cell
    fun other inside different => absurd (Nat.lt_one_iff.mp inside) different

/-- An allowed event leads to the next state. -/
theorem cache_step {compress : List V → V} {kpool numSpec ring : ℕ} {blank : Cell → V}
    {state next : State V} (reachable : Reachable (cache compress kpool numSpec ring blank) state)
    (event : Event V) (sent : Allowed compress kpool numSpec ring state event)
    (same : step kpool state event = next) :
    Reachable (cache compress kpool numSpec ring blank) next := by
  rw [← same]
  exact @Reachable.step _ _ (cache compress kpool numSpec ring blank) _ event reachable sent

end Existence

section Alone

/-- One request runs with enough slots, over a memory of sums. -/
def alone (ring : ℕ) (memory : Cell → ℕ) (entries : List ℕ) (committed : ℕ) : State ℕ :=
  ⟨memory, fun id => if id = 0 then some ⟨some 0, List.range (ring + 1), entries, committed⟩ else none⟩

/-- Its row of a batch. -/
def aloneRow (ring : ℕ) (entries tokens : List ℕ) : Row ℕ := ⟨0, List.range (ring + 1), entries, tokens⟩

variable {kpool numSpec ring : ℕ} {memory final : Cell → ℕ} {entries tokens : List ℕ} {committed : ℕ}

/-- The request can be admitted to an empty cache, with fresh slots and no donor. -/
theorem alone_admitted (kpool numSpec ring : ℕ) :
    Reachable (cache List.sum kpool numSpec ring fun _ => 0) (alone ring (fun _ => 0) [] 0) := by
  have sent : Allowed List.sum kpool numSpec ring ⟨fun _ => 0, fun _ => none⟩
      (.enter 0 0 0 0 (List.range (ring + 1))) :=
    ⟨fun _ held => (by cases held), fun _ _ held => (by cases held), Or.inl rfl, List.nodup_range,
      fun _ _ held => (by cases held)⟩
  refine cache_step Reachable.initial _ sent (congrArg (State.mk _) (funext fun id => ?_))
  dsimp only [cache, alone]
  rw [Function.update_apply]
  simp [Holder.leading, Holder.nothing]

/-- A batch of its one row is mapped, as a decode batch and as a prefill batch. -/
theorem alone_mapped (tokens : List ℕ) :
    (Batch.mk [aloneRow ring entries tokens] [] (List.replicate tokens.length 0)).Mapped ∧
      (Batch.mk [] [aloneRow ring entries tokens] (List.replicate tokens.length 0)).Mapped := by
  refine ⟨⟨?_, fun slot listed => ?_⟩, ?_, fun slot listed => ?_⟩
  · simp [Batch.keys, Batch.rows, aloneRow]
  · rw [(List.mem_replicate.mp listed).2]
  · simp [Batch.keys, Batch.rows, aloneRow]
  · rw [(List.mem_replicate.mp listed).2]

/-- A decode batch of the request leads to a state in which the new tokens are stored, only the
first of them for good. -/
theorem alone_decode
    (reachable : Reachable (cache List.sum kpool numSpec ring fun _ => 0)
      (alone ring memory entries committed))
    (covered : (entries.length + tokens.length) / kpool ≤ ring + 1) (nonempty : tokens ≠ [])
    (few : tokens.length ≤ numSpec + 1)
    (writes : (Batch.mk [aloneRow ring entries tokens] [] (List.replicate tokens.length 0)).Writes
      List.sum kpool ring memory final) :
    Reachable (cache List.sum kpool numSpec ring fun _ => 0)
      (alone ring final (entries ++ tokens) (entries.length + 1)) := by
  have sent : Allowed List.sum kpool numSpec ring (alone ring memory entries committed)
      (.write [(0, tokens)] [] (List.replicate tokens.length 0) final) := by
    refine ⟨List.nodup_singleton 0, fun request listed => ?_, fun request listed => ?_,
      (alone_mapped tokens).1, writes⟩
    · rw [List.mem_singleton.mp listed]
      exact ⟨_, ⟨rfl, rfl, by rw [List.length_range]; exact covered⟩, nonempty, few⟩
    · cases listed
  refine cache_step reachable _ sent (congrArg (State.mk _) (funext fun id => ?_))
  dsimp only [alone]
  split
  next here =>
    subst here
    rfl
  next => rfl

/-- A prefill batch of the request leads to a state in which all new tokens are stored for good. -/
theorem alone_prefill
    (reachable : Reachable (cache List.sum kpool numSpec ring fun _ => 0)
      (alone ring memory entries committed))
    (covered : (entries.length + tokens.length) / kpool ≤ ring + 1)
    (aligned : entries.length % kpool = 0)
    (writes : (Batch.mk [] [aloneRow ring entries tokens] (List.replicate tokens.length 0)).Writes
      List.sum kpool ring memory final) :
    Reachable (cache List.sum kpool numSpec ring fun _ => 0)
      (alone ring final (entries ++ tokens) (entries.length + tokens.length)) := by
  have sent : Allowed List.sum kpool numSpec ring (alone ring memory entries committed)
      (.write [] [(0, tokens)] (List.replicate tokens.length 0) final) := by
    refine ⟨List.nodup_singleton 0, fun request listed => ?_, fun request listed => ?_,
      (alone_mapped tokens).2, writes⟩
    · cases listed
    · rw [List.mem_singleton.mp listed]
      exact ⟨_, ⟨rfl, rfl, by rw [List.length_range]; exact covered⟩, aligned⟩
  refine cache_step reachable _ sent (congrArg (State.mk _) (funext fun id => ?_))
  dsimp only [alone]
  split
  next here =>
    subst here
    rfl
  next => rfl

/-- Drafts of the request are taken back down to any count that keeps the committed tokens. -/
theorem alone_reject
    (reachable : Reachable (cache List.sum kpool numSpec ring fun _ => 0)
      (alone ring memory entries committed)) {count : ℕ} (kept : committed ≤ count) :
    Reachable (cache List.sum kpool numSpec ring fun _ => 0)
      (alone ring memory (entries.take count) committed) := by
  refine cache_step reachable (.reject 0 count) (fun holder held => ?_)
    (congrArg (State.mk _) (funext fun id => ?_))
  · cases held
    exact kept
  · dsimp only [alone]
    rw [Function.update_apply]
    split
    next => rfl
    next => rfl

/-- The row touches nothing of another row, as there is none, and names no slot twice. -/
theorem alone_separate (kpool ring : ℕ) (past tokens : List ℕ) :
    Separate kpool [aloneRow ring past tokens] := by
  refine ⟨List.pairwise_singleton _ _, fun row listed => ?_⟩
  rw [List.mem_singleton.mp listed]
  intro j k loc _ covered covered'
  exact (List.getElem?_inj (List.getElem?_eq_some_iff.mp covered).1 List.nodup_range).mp
    (covered.trans covered'.symm)

/-- One token short of a pool, a draft that was taken back has overwritten the pool's first key. -/
theorem overwritten (several : 1 < kpool) (fits : kpool ≤ ring) (small : ring + 1 < kpool + numSpec) :
    ∃ memory, Reachable (cache List.sum kpool numSpec ring fun _ => 0)
      (alone ring memory (List.replicate (kpool - 1) 0) (kpool - 1)) ∧ memory (.tail 0 0) = 1 := by
  have positive : 0 < kpool := Nat.zero_lt_of_lt several
  have covered : ∀ count, count ≤ ring + 1 → count / kpool ≤ ring + 1 :=
    fun count few => (Nat.div_le_self _ _).trans few
  obtain ⟨short, length⟩ : ∃ short, short + 2 = kpool := ⟨kpool - 2, by omega⟩
  obtain ⟨drafted, reach⟩ : ∃ drafted, short + drafted = ring := ⟨ring - short, by omega⟩
  obtain ⟨first, write⟩ := Batch.exists_writes List.sum kpool ring
    ⟨[], [aloneRow ring [] (List.replicate short 0)], List.replicate (List.replicate short 0).length 0⟩
    fun _ => 0
  have prefilled := alone_prefill (alone_admitted kpool numSpec ring) (covered _ (by simp; omega))
    (Nat.zero_mod _) write
  have stored := Batch.writes_prefill positive fits (alone_mapped _).2 (alone_separate _ _ _ _) write
    List.mem_cons_self (Nat.zero_mod _) fun j loc complete => by
      rw [show (aloneRow ring [] _).past.length / kpool = 0 from Nat.zero_div _] at complete
      cases complete
  -- the drafts reach the position that shares its cell with position 0
  obtain ⟨second, write'⟩ := Batch.exists_writes List.sum kpool ring
    ⟨[aloneRow ring (List.replicate short 0) (List.replicate drafted 0 ++ [1])], [],
      List.replicate (List.replicate drafted 0 ++ [1]).length 0⟩ first
  have decoded := alone_decode prefilled (covered _ (by simp; omega)) (by simp) (by simp; omega) write'
  have whole : List.replicate short 0 ++ (List.replicate drafted 0 ++ [1]) =
      List.replicate ring 0 ++ [1] := by
    rw [← List.append_assoc, List.replicate_append_replicate, reach]
  rw [List.nil_append, whole, List.length_replicate] at decoded
  refine ⟨second, ?_, ?_⟩
  · have rejected := alone_reject decoded (show short + 1 ≤ kpool - 1 by omega)
    rw [List.take_append_of_le_length (by rw [List.length_replicate]; omega), List.take_replicate,
      Nat.min_eq_left (by omega), show short + 1 = kpool - 1 by omega] at rejected
    exact rejected
  · rw [aloneRow, List.nil_append, List.length_nil, List.length_replicate] at stored
    have stored' := @Batch.writes_decode _ _ _ _ _ _ _ _ 0 _ _ positive fits (by omega)
      (alone_mapped _).1 (alone_separate _ _ _ _) write' _ List.mem_cons_self stored
      (by rw [Nat.zero_add, Nat.min_eq_left (by omega), Nat.sub_self]; exact Nat.zero_le _)
      (by rw [aloneRow, List.length_replicate]; omega)
    have held := stored'.tail ring 1 (by omega) (by simp [aloneRow]; omega) (by
      rw [aloneRow, whole, ← List.getElem?_concat_length (l := List.replicate ring 0),
        List.length_replicate])
    rw [Nat.mod_self] at held
    exact held

/-- The redo of a pool's last token reads the ring. -/
theorem redo {committed : ℕ} (several : 1 < kpool) (fits : kpool ≤ ring)
    (reachable : Reachable (cache List.sum kpool numSpec ring fun _ => 0)
      (alone ring memory (List.replicate (kpool - 1) 0) committed)) :
    ∃ final, Reachable (cache List.sum kpool numSpec ring fun _ => 0)
        (alone ring final (List.replicate kpool 0) kpool) ∧
      memory (.tail 0 0) ≤ final (.pool 0) := by
  have positive : 0 < kpool := Nat.zero_lt_of_lt several
  obtain ⟨final, write⟩ := Batch.exists_writes List.sum kpool ring
    ⟨[aloneRow ring (List.replicate (kpool - 1) 0) [0]], [], List.replicate [0].length 0⟩ memory
  have fill : List.replicate (kpool - 1) 0 ++ [0] = List.replicate kpool 0 := by
    rw [← List.replicate_succ', Nat.sub_add_cancel positive]
  refine ⟨final, ?_, ?_⟩
  · have decoded := alone_decode reachable
      (by rw [List.length_replicate]; exact (Nat.div_le_self _ _).trans (by simp; omega))
      (List.cons_ne_nil _ _) (Nat.succ_le_succ (Nat.zero_le _)) write
    rw [fill, List.length_replicate, Nat.sub_add_cancel positive] at decoded
    exact decoded
  · rw [Batch.writes_single (by omega) (alone_mapped _).1
      ((alone_separate kpool ring _ _).own _ List.mem_cons_self) write]
    change _ ≤ (run (decodeTurn List.sum kpool ring (Row.record kpool ring _ _ _) >>= fun _ => pure ())
      memory).2 _
    have last : (kpool - 1 + 1) % kpool = 0 := by rw [Nat.sub_add_cancel positive, Nat.mod_self]
    have inner : kpool - 1 < kpool := Nat.sub_lt positive Nat.zero_lt_one
    rw [run_bind, run_pure, run_decodeTurn positive (by omega), Row.turned_pool, aloneRow]
    simp only [List.length_replicate, Nat.add_zero, Nat.div_eq_of_lt inner]
    rw [if_pos ⟨last, List.getElem?_range (Nat.succ_pos _)⟩]
    refine List.single_le_sum (fun _ _ => Nat.zero_le _) _ (List.mem_map.mpr ⟨0, ?_, ?_⟩)
    · exact List.mem_range.mpr positive
    · rw [Nat.mod_eq_of_lt inner, if_neg (by omega), Nat.sub_self, Nat.zero_mod]

/-- With too small a ring the drafts behind a rejected completing draft overwrite what its redo
reads. -/
theorem small_ring_unsound (several : 1 < kpool) (fits : kpool ≤ ring)
    (small : ring + 1 < kpool + numSpec) :
    ∃ state, Reachable (cache List.sum kpool numSpec ring fun _ => 0) state ∧
      ¬ state.Sound List.sum kpool := by
  obtain ⟨memory, reachable, overwrote⟩ := overwritten several fits small
  obtain ⟨final, reachable', read⟩ := redo several fits reachable
  refine ⟨_, reachable', fun sound => ?_⟩
  obtain ⟨loc, covered, compressed⟩ := sound 0 _ rfl kpool 0 (by rw [List.length_replicate])
    (Nat.div_pos (Nat.le_refl _) (Nat.zero_lt_of_lt several))
  have first : loc = 0 := by
    rw [List.getElem?_range (Nat.succ_pos _)] at covered
    exact (Option.some.inj covered).symm
  have none : (chunk kpool ((List.replicate kpool 0).take kpool) 0).sum = 0 := by
    refine List.sum_eq_zero fun token listed => ?_
    exact List.eq_of_mem_replicate (List.mem_of_mem_take (List.mem_of_mem_drop (List.mem_of_mem_take listed)))
  rw [first, none] at compressed
  rw [overwrote] at read
  have stale : 1 ≤ 0 := read.trans_eq compressed
  exact absurd stale (Nat.not_succ_le_zero 0)

end Alone

section Sizes

/-- A ring does for all runs of every cache exactly when it holds the open pool and the drafts behind
its last token. -/
theorem ring_sound_iff {kpool numSpec ring : ℕ} (several : 1 < kpool) (fits : kpool ≤ ring) :
    (∀ (V : Type) (_ : Inhabited V) (compress : List V → V) (blank : Cell → V) (state : State V),
      Reachable (cache compress kpool numSpec ring blank) state → state.Sound compress kpool) ↔
    kpool + numSpec ≤ ring + 1 := by
  constructor
  · intro sound
    by_contra small
    obtain ⟨state, reachable, unsound⟩ :=
      small_ring_unsound several fits (Nat.lt_of_not_le small)
    exact unsound (sound ℕ inferInstance List.sum _ state reachable)
  · intro room V _ compress blank state reachable
    exact (inv_of_reachable (Nat.zero_lt_of_lt several) fits room reachable).sound

/-- A ring of one pool does not do with three drafts. -/
theorem ring_sound_iff_one_pool :
    ¬ ∀ (V : Type) (_ : Inhabited V) (compress : List V → V) (blank : Cell → V) (state : State V),
      Reachable (cache compress 4 3 4 blank) state → state.Sound compress 4 :=
  fun sound => absurd ((ring_sound_iff (by decide) (by decide)).mp sound) (by decide)

/-- With the ring the cache is given every run keeps every pool, whatever was drafted and taken back
and however the launches were interleaved. -/
theorem pools_sound {V : Type} [Inhabited V] {compress : List V → V} {kpool numSpec : ℕ}
    {blank : Cell → V} (positive : 0 < kpool) {state : State V}
    (reachable : Reachable (cache compress kpool numSpec (tailRing kpool numSpec) blank) state) :
    state.Sound compress kpool := by
  have room := le_tailRing positive numSpec
  exact (inv_of_reachable positive (by omega) (by omega) reachable).sound

/-- A completing draft was taken back and its pool is right after the redo. -/
theorem pools_sound_redo : ∃ memory : Cell → ℕ,
    Reachable (cache List.sum 2 2 (tailRing 2 2) fun _ => 0) (alone (tailRing 2 2) memory [5, 6, 9] 2) ∧
      memory (.pool 0) = 11 := by
  obtain ⟨first, write⟩ := Batch.exists_writes List.sum 2 (tailRing 2 2)
    ⟨[aloneRow (tailRing 2 2) [] [5, 7, 8]], [], List.replicate 3 0⟩ fun _ => 0
  obtain ⟨second, write'⟩ := Batch.exists_writes List.sum 2 (tailRing 2 2)
    ⟨[aloneRow (tailRing 2 2) [5] [6, 9]], [], List.replicate 2 0⟩ first
  have drafted := alone_decode (alone_admitted 2 2 (tailRing 2 2)) (Nat.le_add_left 1 _)
    (List.cons_ne_nil _ _) (by decide) write
  have decoded := alone_decode (alone_reject drafted (Nat.le_refl 1)) (Nat.le_add_left 1 _)
    (List.cons_ne_nil _ _) (by decide) write'
  obtain ⟨loc, covered, compressed⟩ :=
    pools_sound Nat.zero_lt_two decoded 0 _ rfl 2 0 (Nat.le_succ 2) Nat.zero_lt_one
  rw [List.getElem?_range (Nat.succ_pos _)] at covered
  rw [← Option.some.inj covered] at compressed
  exact ⟨second, decoded, compressed⟩

end Sizes

end GlmSpark.KpoolTail
