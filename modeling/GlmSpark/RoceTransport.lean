import GlmSpark.RoceOneshot

/-!
# What a queue pair carries

Between a sender and a receiver one network card carries launch after launch: first the
packs of a stripe, in any order, then the flag. A channel is described by how many
launches were handed to it and how many flags have landed. What is queued are the rest of
the first launch under way and all of the later ones; what lies in the receive slots are
the launches that have arrived and are not yet consumed.

A sender whose wait has expired may have staged a launch in part only. What a channel says
about the packs of a launch is said of the launches the sender has staged whole.
-/

namespace GlmSpark.RoceOneshot

open Grid RoceLayout

universe u

section Words

/-- A word counts modulo `2 ^ 32`. -/
theorem word_toNat (count : ℕ) : (word count).toNat = count % 2 ^ 32 := BitVec.toNat_ofNat count 32

/-- Counts less than `2 ^ 32` apart have different words. -/
theorem word_ne {low high : ℕ} (less : low < high) (near : high < low + 2 ^ 32) :
    word low ≠ word high := by
  intro same
  have values := congrArg BitVec.toNat same
  rw [word_toNat, word_toNat] at values
  omega

/-- Counting in words: the word of the next launch, also where it wraps around. -/
theorem word_succ (count : ℕ) : word count + 1 = word (count + 1) :=
  BitVec.ofNat_add count 1 |>.symm

/-- The distance of two words is the word of the distance, also across the wrap. The age of a flag
is read so. -/
theorem word_sub {low high : ℕ} (ordered : low ≤ high) : word high - word low = word (high - low) := by
  apply BitVec.eq_of_toNat_eq
  rw [BitVec.toNat_sub, word_toNat, word_toNat, word_toNat]
  omega

/-- Slots alternate with the parity of the count. -/
theorem slotOf_word (count : ℕ) : slotOf (word count) = count % 2 := by
  have one : (1 : Word).toNat = 2 ^ 1 - 1 := rfl
  rw [slotOf, BitVec.toNat_and, one, Nat.and_two_pow_sub_one_eq_mod, word_toNat]
  omega

end Words

variable {V : Type u} {world hcas : ℕ} (setup : Setup world hcas V)

/-- A payload is a positive multiple of a pack and fits a word. -/
theorem nbytes_word (launch : ℕ) : (word (setup.nbytes launch)).toNat = setup.nbytes launch := by
  rw [word_toNat]
  exact Nat.mod_eq_of_lt (setup.ops launch).fits

/-- The packs of a launch a network card carries. -/
def Setup.stripe (launch : ℕ) (hca : Fin hcas) : List ℕ :=
  RoceLayout.stripe (setup.ops launch).packs hcas hca

/-- The work requests of a launch read off its word. -/
theorem stripeRequests_eq (launch : ℕ) (hca : Fin hcas) :
    stripeRequests hcas (word (launch + 1)) (word (setup.nbytes launch)) hca =
      (setup.stripe launch hca).map (fun pack => Wr.data (V := V) ((launch + 1) % 2) pack none) ++
        [.flag ((launch + 1) % 2) (word (launch + 1))] := by
  rw [stripeRequests, slotOf_word, nbytes_word, Setup.nbytes, Nat.mul_div_cancel _ (by decide),
    Setup.stripe]

variable (rank : Fin world) (hca : Fin hcas) (whole : ℕ → Prop)

/-- What a pack of a launch has to be, if the sender has staged that launch whole. -/
def Carries (launch pack : ℕ) (value : V) : Prop :=
  whole launch → value = setup.input rank launch pack

/-- The queued part of a stripe: payload of this launch, and what is not queued has landed. -/
structure Front (launch : ℕ) (landed : ℕ → Prop) (front : List (Wr V)) : Prop where
  carries : ∀ request ∈ front, ∃ pack held, request = .data ((launch + 1) % 2) pack held ∧
    pack ∈ setup.stripe launch hca ∧ ∀ value ∈ held, Carries setup rank whole launch pack value
  covers : ∀ pack ∈ setup.stripe launch hca, landed pack ∨
    ∃ held, Wr.data ((launch + 1) % 2) pack held ∈ front

/-- A queue with the rest of one launch and all of the following ones. -/
def Queued : (count launch : ℕ) → (landed : ℕ → Prop) → (queue : List (Wr V)) → Prop
  | 0, _, _, queue => queue = []
  | count + 1, launch, landed, queue => ∃ front rest,
    queue = front ++ .flag ((launch + 1) % 2) (word (launch + 1)) :: rest ∧
      Front setup rank hca whole launch landed front ∧
      Queued count (launch + 1) (fun _ => False) rest

variable {setup rank hca whole}

/-- What is queued of a launch that is being read carries payload only; its flag is queued last. -/
theorem Front.isData {launch : ℕ} {landed : ℕ → Prop} {front : List (Wr V)}
    (part : Front setup rank hca whole launch landed front) : ∀ request ∈ front, request.isData = true := by
  intro request listed
  obtain ⟨pack, held, rfl, _⟩ := part.carries request listed
  rfl

/-- The description of a queue is kept when more packs have landed. -/
theorem Front.mono {launch : ℕ} {landed later : ℕ → Prop} {front : List (Wr V)}
    (part : Front setup rank hca whole launch landed front)
    (still : ∀ pack ∈ setup.stripe launch hca, landed pack → later pack) :
    Front setup rank hca whole launch later front :=
  ⟨part.carries, fun pack mine => (part.covers pack mine).imp_left (still pack mine)⟩

/-- Fewer launches may have been staged whole. -/
theorem Front.weaken {launch : ℕ} {landed : ℕ → Prop} {front : List (Wr V)} {fewer : ℕ → Prop}
    (part : Front setup rank hca whole launch landed front)
    (shrinks : ∀ launch, fewer launch → whole launch) :
    Front setup rank hca fewer launch landed front := by
  refine ⟨fun request listed => ?_, part.covers⟩
  obtain ⟨pack, held, same, mine, right⟩ := part.carries request listed
  exact ⟨pack, held, same, mine, fun value given still => right value given (shrinks launch still)⟩

/-- Fewer launches may have been staged whole. -/
theorem Queued.weaken {count launch : ℕ} {landed : ℕ → Prop} {queue : List (Wr V)}
    {fewer : ℕ → Prop} (queued : Queued setup rank hca whole count launch landed queue)
    (shrinks : ∀ launch, fewer launch → whole launch) :
    Queued setup rank hca fewer count launch landed queue := by
  induction count generalizing launch landed queue with
  | zero => exact queued
  | succ count ih =>
    obtain ⟨front, rest, split, part, behind⟩ := queued
    exact ⟨front, rest, split, part.weaken shrinks, ih behind⟩

/-- More may have landed of the first launch of a queue. -/
theorem Queued.mono {count launch : ℕ} {landed later : ℕ → Prop} {queue : List (Wr V)}
    (queued : Queued setup rank hca whole count launch landed queue)
    (still : 0 < count → ∀ pack ∈ setup.stripe launch hca, landed pack → later pack) :
    Queued setup rank hca whole count launch later queue := by
  cases count with
  | zero => exact queued
  | succ count =>
    obtain ⟨front, rest, split, part, behind⟩ := queued
    exact ⟨front, rest, split, part.mono (still (Nat.succ_pos count)), behind⟩

/-- A whole stripe is queued when it is posted. -/
theorem front_posted (launch : ℕ) (landed : ℕ → Prop) :
    Front setup rank hca whole launch landed
      ((setup.stripe launch hca).map fun pack => .data ((launch + 1) % 2) pack none) := by
  constructor
  · intro request listed
    obtain ⟨pack, mine, rfl⟩ := List.mem_map.mp listed
    exact ⟨pack, none, rfl, mine, fun _ held => absurd held (Option.not_mem_none _)⟩
  · exact fun pack mine => Or.inr ⟨none, List.mem_map.mpr ⟨pack, mine, rfl⟩⟩

/-- Posting the next launch adds it at the end. -/
theorem Queued.post {count launch : ℕ} {landed : ℕ → Prop} {queue : List (Wr V)}
    (queued : Queued setup rank hca whole count launch landed queue) :
    Queued setup rank hca whole (count + 1) launch landed (queue ++
      stripeRequests hcas (word (launch + count + 1)) (word (setup.nbytes (launch + count))) hca) := by
  induction count generalizing launch landed queue with
  | zero =>
    have empty : queue = [] := queued
    rw [empty, List.nil_append]
    simp only [Nat.add_zero]
    rw [stripeRequests_eq setup launch hca]
    exact ⟨_, [], rfl, front_posted launch landed, rfl⟩
  | succ count ih =>
    obtain ⟨front, rest, rfl, part, behind⟩ := queued
    refine ⟨front, rest ++ stripeRequests hcas (word (launch + (count + 1) + 1))
      (word (setup.nbytes (launch + (count + 1)))) hca, ?_, part, ?_⟩
    · rw [List.append_assoc, List.cons_append]
    · have later := ih behind
      rw [show launch + 1 + count = launch + (count + 1) by omega] at later
      exact later

/-- Reading a pack into the network card keeps the front, as long as the send slot still holds
the launch. -/
theorem Front.fetch {launch index pack slot : ℕ} {landed : ℕ → Prop} {front : List (Wr V)} {value : V}
    (part : Front setup rank hca whole launch landed front)
    (here : front[index]? = some (.data slot pack none))
    (intact : slot = (launch + 1) % 2 → pack ∈ setup.stripe launch hca →
      Carries setup rank whole launch pack value) :
    Front setup rank hca whole launch landed (front.set index (.data slot pack (some value))) := by
  obtain ⟨pack', held', same, mine, _⟩ := part.carries _ (List.mem_of_getElem? here)
  obtain ⟨rfl, rfl, rfl⟩ := Wr.data.inj same
  constructor
  · intro request listed
    rcases List.mem_or_eq_of_mem_set listed with old | rfl
    · exact part.carries request old
    · refine ⟨pack, some value, rfl, mine, fun given held => ?_⟩
      rw [← Option.some.inj held]
      exact intact rfl mine
  · intro other mine'
    refine (part.covers other mine').imp_right ?_
    rintro ⟨held, listed⟩
    obtain ⟨place, found⟩ := List.mem_iff_getElem?.mp listed
    by_cases same : index = place
    · subst same
      obtain ⟨_, rfl, rfl⟩ := Wr.data.inj (Option.some.inj (here.symm.trans found))
      refine ⟨some value, List.mem_of_getElem? (i := index) ?_⟩
      rw [List.getElem?_set_self (List.getElem?_eq_some_iff.mp here).1]
    · refine ⟨held, List.mem_of_getElem? (i := place) ?_⟩
      rw [List.getElem?_set_ne same]
      exact found

/-- Reading a pack keeps a queue whose launches the send slots still hold. -/
theorem Queued.fetch {count launch index pack slot : ℕ} {landed : ℕ → Prop} {queue : List (Wr V)}
    {send : ℕ → ℕ → V} (queued : Queued setup rank hca whole count launch landed queue)
    (here : queue[index]? = some (.data slot pack none))
    (intact : ∀ later, launch ≤ later → later < launch + count → ∀ pack ∈ setup.stripe later hca,
      Carries setup rank whole later pack (send ((later + 1) % 2) pack)) :
    Queued setup rank hca whole count launch landed
      (queue.set index (.data slot pack (some (send slot pack)))) := by
  induction count generalizing launch landed queue index with
  | zero =>
    have empty : queue = [] := queued
    rw [empty, List.getElem?_nil] at here
    cases here
  | succ count ih =>
    obtain ⟨front, rest, rfl, part, behind⟩ := queued
    rw [List.set_append]
    split
    next inFront =>
      rw [List.getElem?_append_left inFront] at here
      refine ⟨_, rest, rfl, part.fetch here fun same mine => ?_, behind⟩
      rw [same]
      exact intact launch (Nat.le_refl _) (by omega) pack mine
    next beyond =>
      rw [List.getElem?_append_right (Nat.le_of_not_lt beyond)] at here
      cases distance : index - front.length with
      | zero =>
        rw [distance] at here
        cases here
      | succ distance =>
        rw [distance, List.getElem?_cons_succ] at here
        rw [List.set_cons_succ]
        exact ⟨front, _, rfl, part, ih behind here fun later above below =>
          intact later (by omega) (by omega)⟩

/-- A pack that may land belongs to the first launch of the queue; it leaves the queue. -/
theorem Queued.land {count launch index pack slot : ℕ} {landed : ℕ → Prop} {queue : List (Wr V)}
    {value : V} (queued : Queued setup rank hca whole count launch landed queue)
    (here : queue[index]? = some (.data slot pack (some value)))
    (first : (queue.take index).all Wr.isData = true) :
    0 < count ∧ slot = (launch + 1) % 2 ∧ pack ∈ setup.stripe launch hca ∧
      Carries setup rank whole launch pack value ∧
      Queued setup rank hca whole count launch (fun other => landed other ∨ other = pack)
        (queue.eraseIdx index) := by
  cases count with
  | zero =>
    have empty : queue = [] := queued
    rw [empty, List.getElem?_nil] at here
    cases here
  | succ count =>
    obtain ⟨front, rest, rfl, part, behind⟩ := queued
    have inFront : index < front.length := by
      rcases Nat.lt_trichotomy index front.length with less | same | more
      · exact less
      · rw [same, List.getElem?_append_right (Nat.le_refl _), Nat.sub_self] at here
        cases here
      · have flagged : Wr.flag ((launch + 1) % 2) (word (launch + 1)) ∈
            (front ++ Wr.flag ((launch + 1) % 2) (word (launch + 1)) :: rest).take index := by
          rw [List.take_append, List.mem_append]
          right
          rw [show index - front.length = (index - front.length - 1) + 1 by omega, List.take_succ_cons]
          exact List.mem_cons_self
        cases List.all_eq_true.mp first _ flagged
    rw [List.getElem?_append_left inFront] at here
    obtain ⟨pack', held, same, mine, sent⟩ := part.carries _ (List.mem_of_getElem? here)
    obtain ⟨rfl, rfl, rfl⟩ := Wr.data.inj same
    refine ⟨Nat.succ_pos count, rfl, mine, sent value rfl, ?_⟩
    rw [List.eraseIdx_append_of_lt_length inFront]
    refine ⟨_, rest, rfl, ⟨fun request listed => part.carries request (List.mem_of_mem_eraseIdx listed),
      fun other mine' => ?_⟩, behind⟩
    rcases part.covers other mine' with done | ⟨held, listed⟩
    · exact Or.inl (Or.inl done)
    · obtain ⟨place, found⟩ := List.mem_iff_getElem?.mp listed
      by_cases same : place = index
      · subst same
        obtain ⟨_, equal, _⟩ := Wr.data.inj (Option.some.inj (here.symm.trans found))
        exact Or.inl (Or.inr equal.symm)
      · exact Or.inr ⟨held, List.mem_eraseIdx_iff_getElem?.mpr ⟨place, same, found⟩⟩

/-- A flag that is first in the queue ends a launch whose whole stripe has landed. -/
theorem Queued.raise {count launch slot : ℕ} {seq : Word} {landed : ℕ → Prop} {queue : List (Wr V)}
    (queued : Queued setup rank hca whole count launch landed queue)
    (here : queue[0]? = some (.flag slot seq)) :
    0 < count ∧ slot = (launch + 1) % 2 ∧ seq = word (launch + 1) ∧
      (∀ pack ∈ setup.stripe launch hca, landed pack) ∧
      Queued setup rank hca whole (count - 1) (launch + 1) (fun _ => False) (queue.eraseIdx 0) := by
  cases count with
  | zero =>
    have empty : queue = [] := queued
    rw [empty, List.getElem?_nil] at here
    cases here
  | succ count =>
    obtain ⟨front, rest, rfl, part, behind⟩ := queued
    cases front with
    | cons request front =>
      have payload := part.isData request List.mem_cons_self
      rw [List.cons_append, List.getElem?_cons_zero] at here
      rw [Option.some.inj here] at payload
      cases payload
    | nil =>
      rw [List.nil_append, List.getElem?_cons_zero] at here
      obtain ⟨rfl, rfl⟩ := Wr.flag.inj (Option.some.inj here)
      refine ⟨Nat.succ_pos count, rfl, rfl, fun pack mine => ?_, behind⟩
      rcases part.covers pack mine with done | ⟨_, listed⟩
      · exact done
      · cases listed

/-- There is one flag for every launch under way. -/
theorem Queued.flags {count launch : ℕ} {landed : ℕ → Prop} {queue : List (Wr V)}
    (queued : Queued setup rank hca whole count launch landed queue) :
    queue.countP (fun request => !request.isData) = count := by
  induction count generalizing launch landed queue with
  | zero =>
    have empty : queue = [] := queued
    rw [empty, List.countP_nil]
  | succ count ih =>
    obtain ⟨front, rest, rfl, part, behind⟩ := queued
    have none : front.countP (fun request => !request.isData) = 0 := by
      refine List.countP_eq_zero.mpr fun request listed => ?_
      rw [part.isData request listed]
      exact Bool.false_ne_true
    rw [List.countP_append, none, List.countP_cons_of_pos rfl, ih behind, Nat.zero_add]

/-- Payload belongs to a launch under way, and what a network card holds of it is right. -/
theorem Queued.payload {count launch slot pack : ℕ} {held : Option V} {landed : ℕ → Prop}
    {queue : List (Wr V)} (queued : Queued setup rank hca whole count launch landed queue)
    (listed : Wr.data slot pack held ∈ queue) : ∃ carried, launch ≤ carried ∧
      carried < launch + count ∧ slot = (carried + 1) % 2 ∧ pack ∈ setup.stripe carried hca ∧
      ∀ value ∈ held, Carries setup rank whole carried pack value := by
  induction count generalizing launch landed queue with
  | zero =>
    have empty : queue = [] := queued
    rw [empty] at listed
    cases listed
  | succ count ih =>
    obtain ⟨front, rest, rfl, part, behind⟩ := queued
    rcases List.mem_append.mp listed with here | later
    · obtain ⟨pack', held', same, mine, right⟩ := part.carries _ here
      obtain ⟨rfl, rfl, rfl⟩ := Wr.data.inj same
      exact ⟨launch, Nat.le_refl _, by omega, rfl, mine, right⟩
    · rcases List.mem_cons.mp later with flag | later
      · cases flag
      · obtain ⟨carried, above, below, rest⟩ := ih behind later
        exact ⟨carried, by omega, by omega, rest⟩

/-- The last launch up to a count that used a slot. -/
def latest (count slot : ℕ) : ℕ := if count % 2 = slot then count else count - 1

/-- A sender, a receiver and a network card between them: so many launches were handed over and
so many flags have landed, and the receiver has consumed the launches below its epoch. -/
structure Channel (setup : Setup world hcas V) (rank : Fin world) (hca : Fin hcas)
    (whole : ℕ → Prop) (queue : List (Wr V)) (recv : ℕ → ℕ → V) (flag : ℕ → Word)
    (epoch posted delivered : ℕ) : Prop where
  queued : Queued setup rank hca whole (posted - delivered) delivered
    (fun pack => Carries setup rank whole delivered pack (recv ((delivered + 1) % 2) pack)) queue
  arrived : ∀ launch, epoch ≤ launch → launch < delivered → ∀ pack ∈ setup.stripe launch hca,
    Carries setup rank whole launch pack (recv ((launch + 1) % 2) pack)
  flags : ∀ slot < 2, flag slot = word (latest delivered slot)

/-- Whether a flag is the one of a launch the receiver works on. -/
theorem latest_iff {epoch delivered : ℕ} (ordered : epoch ≤ delivered) (near : delivered ≤ epoch + 2) :
    word (latest delivered ((epoch + 1) % 2)) = word (epoch + 1) ↔ epoch < delivered := by
  constructor
  · intro same
    by_contra behind
    have exact' : delivered = epoch := by omega
    refine @word_ne (latest delivered ((epoch + 1) % 2)) (epoch + 1) ?_ ?_ same <;>
      rw [latest] <;> split <;> omega
  · intro ahead
    have value : latest delivered ((epoch + 1) % 2) = epoch + 1 := by
      rw [latest]
      split <;> omega
    rw [value]

namespace Channel

variable {queue : List (Wr V)} {recv : ℕ → ℕ → V} {flag : ℕ → Word} {epoch posted delivered : ℕ}

/-- A channel before the first launch: nothing queued, nothing landed, no flag raised. -/
theorem fresh (recv : ℕ → ℕ → V) : Channel setup rank hca whole [] recv (fun _ => 0) 0 0 0 := by
  refine ⟨rfl, fun launch _ below => absurd below (Nat.not_lt_zero launch), fun slot _ => ?_⟩
  rw [latest, Nat.zero_sub, ite_self]
  rfl

variable (channel : Channel setup rank hca whole queue recv flag epoch posted delivered)
include channel

/-- A flag shows that a launch has arrived. -/
theorem flag_iff (ordered : epoch ≤ delivered) (near : delivered ≤ epoch + 2) :
    flag ((epoch + 1) % 2) = word (epoch + 1) ↔ epoch < delivered := by
  rw [channel.flags _ (Nat.mod_lt _ Nat.zero_lt_two)]
  exact latest_iff ordered near

/-- The sender hands over the next launch. -/
theorem post (ordered : delivered ≤ posted) :
    Channel setup rank hca whole (queue ++ stripeRequests hcas (word (posted + 1))
      (word (setup.nbytes posted)) hca) recv flag epoch (posted + 1) delivered := by
  refine ⟨?_, channel.arrived, channel.flags⟩
  have more := channel.queued.post
  rw [Nat.add_sub_cancel' ordered] at more
  rw [Nat.sub_add_comm ordered]
  exact more

/-- The network card reads a pack that the send slot still holds. -/
theorem fetch {send : ℕ → ℕ → V} {index slot pack : ℕ} (ordered : delivered ≤ posted)
    (here : queue[index]? = some (.data slot pack none))
    (intact : ∀ launch, delivered ≤ launch → launch < posted → ∀ pack ∈ setup.stripe launch hca,
      Carries setup rank whole launch pack (send ((launch + 1) % 2) pack)) :
    Channel setup rank hca whole (queue.set index (.data slot pack (some (send slot pack)))) recv flag
      epoch posted delivered := by
  refine ⟨channel.queued.fetch here fun launch above below => intact launch above ?_,
    channel.arrived, channel.flags⟩
  rw [Nat.add_sub_cancel' ordered] at below
  exact below

/-- A pack of another stripe lands in the receive slots. -/
theorem write {slot pack : ℕ} {value : V} (ordered : epoch ≤ delivered)
    (near : posted ≤ epoch + 2) (hands : delivered ≤ posted)
    (other : ∀ launch, epoch ≤ launch → launch < epoch + 2 → slot = (launch + 1) % 2 →
      pack ∉ setup.stripe launch hca) :
    Channel setup rank hca whole queue
      (Function.update recv slot (Function.update (recv slot) pack value)) flag
      epoch posted delivered := by
  have untouched : ∀ launch, epoch ≤ launch → launch < epoch + 2 →
      ∀ kept ∈ setup.stripe launch hca,
        Function.update recv slot (Function.update (recv slot) pack value) ((launch + 1) % 2) kept =
          recv ((launch + 1) % 2) kept := by
    intro launch above below kept mine
    rw [Function.update_apply]
    split
    next same =>
      rw [Function.update_of_ne, same]
      rintro rfl
      exact other launch above below same.symm mine
    next => rfl
  refine ⟨channel.queued.mono fun pending kept mine landed => ?_, fun launch above below kept mine => ?_,
    channel.flags⟩
  · rw [untouched delivered ordered (by omega) kept mine]
    exact landed
  · rw [untouched launch above (by omega) kept mine]
    exact channel.arrived launch above below kept mine

/-- A pack lands in the slot of the launch that is next to be delivered, and the receiver has left
that slot. -/
theorem land {index slot pack : ℕ} {value : V} (ordered : epoch ≤ delivered)
    (near : posted ≤ epoch + 2)
    (here : queue[index]? = some (.data slot pack (some value)))
    (first : (queue.take index).all Wr.isData = true) :
    delivered < posted ∧ slot = (delivered + 1) % 2 ∧ pack ∈ setup.stripe delivered hca ∧
      Channel setup rank hca whole (queue.eraseIdx index)
        (Function.update recv slot (Function.update (recv slot) pack value)) flag
        epoch posted delivered := by
  obtain ⟨pending, rfl, mine, right, rest⟩ := channel.queued.land here first
  refine ⟨by omega, rfl, mine, rest.mono fun _ kept _ landed => ?_, fun launch above below kept own => ?_,
    channel.flags⟩
  · rw [Function.update_self, Function.update_apply]
    split
    next same =>
      rw [same]
      exact right
    next different => exact landed.resolve_right different
  · have different : (launch + 1) % 2 ≠ (delivered + 1) % 2 := by omega
    rw [Function.update_of_ne different]
    exact channel.arrived launch above below kept own

/-- The flag lands when it is first in the queue, so behind all packs of its stripe; one more launch
is then delivered. -/
theorem raise {slot : ℕ} {seq : Word} (here : queue[0]? = some (.flag slot seq)) :
    delivered < posted ∧ Channel setup rank hca whole (queue.eraseIdx 0) recv
      (Function.update flag slot seq) epoch posted (delivered + 1) := by
  obtain ⟨pending, rfl, rfl, landed, rest⟩ := channel.queued.raise here
  refine ⟨by omega, ?_, fun launch above below pack mine => ?_, fun slot small => ?_⟩
  · rw [← Nat.sub_sub]
    exact rest.mono fun _ _ _ none => none.elim
  · by_cases last : launch = delivered
    · subst last
      exact landed pack mine
    · exact channel.arrived launch above (by omega) pack mine
  · rw [Function.update_apply]
    split
    next same =>
      rw [latest, if_pos same.symm]
    next different =>
      rw [channel.flags slot small]
      congr 1
      rw [latest, latest, if_neg (Ne.symm different)]
      split <;> omega

/-- The receiver is done with a launch. -/
theorem advance {later : ℕ} (grows : epoch ≤ later) :
    Channel setup rank hca whole queue recv flag later posted delivered :=
  ⟨channel.queued, fun launch above => channel.arrived launch (Nat.le_trans grows above),
    channel.flags⟩

/-- Fewer launches may have been staged whole. -/
theorem weaken {fewer : ℕ → Prop} (shrinks : ∀ launch, fewer launch → whole launch) :
    Channel setup rank hca fewer queue recv flag epoch posted delivered :=
  ⟨(channel.queued.weaken shrinks).mono fun _ _ _ landed still => landed (shrinks _ still),
    fun launch above below pack mine still =>
      channel.arrived launch above below pack mine (shrinks launch still),
    channel.flags⟩

/-- A queue that is empty has delivered all it was handed. -/
theorem drained (empty : queue = []) : posted ≤ delivered := by
  have queued := channel.queued
  by_contra more
  obtain ⟨count, rest⟩ : ∃ count, posted - delivered = count + 1 := ⟨posted - delivered - 1, by omega⟩
  rw [rest, empty] at queued
  obtain ⟨front, behind, split, _⟩ := queued
  cases front <;> cases split

end Channel

end GlmSpark.RoceOneshot
