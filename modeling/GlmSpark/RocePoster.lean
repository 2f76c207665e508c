import GlmSpark.RoceCollective
import GlmSpark.RoceTransport

/-!
# The proxy of one rank

The proxy learns of launches only from the newest sequence number in the doorbell, which
may be several ahead of what it has posted. It posts each missed launch in order with the
size published for its slot. As long as at most two launches are missing, no size it still
needs has been overwritten and none of its checks ever fails.
-/

namespace GlmSpark.RoceOneshot

open Grid RoceLayout

universe u
variable {V : Type u} {world hcas : ℕ}

/-- The sizes of the announced launches from some launch on are published. -/
def Sizes (setup : Setup world hcas V) (size : ℕ → Word) (first rung : ℕ) : Prop :=
  ∀ launch, first ≤ launch → launch < rung →
    size ((launch + 1) % 2) = word (setup.nbytes launch)

/-- Where the proxy can be when it has handed so many launches to each channel. -/
def ProxyOk (setup : Setup world hcas V) (rank : Fin world) (size : ℕ → Word) (last : Word) (rung : ℕ)
    (handed : Fin world → Fin hcas → ℕ) : Proxy world hcas → Prop
  | .idle => ∃ launch, last = word launch ∧ launch ≤ rung ∧
    (∀ peer ≠ rank, ∀ hca, handed peer hca = launch) ∧ Sizes setup size launch rung
  | .next seq pending => ∃ launch more, last = word launch ∧ seq = word (launch + 1) ∧
    pending = word (more + 1) ∧ more ≤ 1 ∧ launch + more + 1 ≤ rung ∧
    (∀ peer ≠ rank, ∀ hca, handed peer hca = launch) ∧ Sizes setup size launch rung
  | .posting seq pending nbytes todo => ∃ launch more, last = word launch ∧ seq = word (launch + 1) ∧
    pending = word (more + 1) ∧ more ≤ 1 ∧ launch + more + 1 ≤ rung ∧
    nbytes = word (setup.nbytes launch) ∧ todo.Nodup ∧ (∀ pair ∈ todo, pair.1 ≠ rank) ∧
    (∀ peer ≠ rank, ∀ hca, handed peer hca = if (peer, hca) ∈ todo then launch else launch + 1) ∧
    Sizes setup size (launch + 1) rung
  | .failed => False

/-- The proxy of a rank that announced so many launches. -/
structure Poster (setup : Setup world hcas V) (rank : Fin world) (node : Node world hcas V) (rung : ℕ)
    (handed : Fin world → Fin hcas → ℕ) : Prop where
  bell : node.doorbell = word rung
  proxy : ProxyOk setup rank node.size node.last rung handed node.proxy

variable {setup : Setup world hcas V} {rank : Fin world} {node next : Node world hcas V} {rung : ℕ}
  {handed : Fin world → Fin hcas → ℕ}

/-- The proxy and its cards before the first launch: nothing rung, nothing posted. -/
theorem Poster.fresh (zero : V) : Poster setup rank (Node.fresh zero) 0 (fun _ _ => 0) :=
  ⟨rfl, 0, rfl, Nat.le_refl 0, fun _ _ _ => rfl, fun launch _ less => absurd less (Nat.not_lt_zero launch)⟩

/-- A payload is not empty and a multiple of a pack. -/
theorem nbytes_valid (launch : ℕ) : word (setup.nbytes launch) ≠ 0 ∧
    (word (setup.nbytes launch)).toNat % packBytes = 0 := by
  have positive : 0 < setup.nbytes launch := Nat.mul_pos (setup.ops launch).positive (by decide)
  constructor
  · intro zero
    have value := congrArg BitVec.toNat zero
    rw [nbytes_word] at value
    exact absurd value (Nat.ne_of_gt positive)
  · rw [nbytes_word, Setup.nbytes]
    exact Nat.mul_mod_left _ _

section Steps

variable (poster : Poster setup rank node rung handed)
include poster

/-- Only the published sizes, the doorbell and its own state matter to the proxy. -/
theorem Poster.frame (size : next.size = node.size) (bell : next.doorbell = node.doorbell)
    (last : next.last = node.last) (proxy : next.proxy = node.proxy) :
    Poster setup rank next rung handed := by
  refine ⟨bell.trans poster.bell, ?_⟩
  rw [size, last, proxy]
  exact poster.proxy

/-- The proxy notices the launches it has missed; they are never more than two. -/
theorem Poster.poll (hcas' : 0 < hcas) (near : ∀ peer ≠ rank, ∀ hca, rung ≤ handed peer hca + 2)
    (stepped : act setup rank node .poll = some next) : Poster setup rank next rung handed := by
  rw [act] at stepped
  split at stepped
  next here =>
    have ok := poster.proxy
    rw [here] at ok
    obtain ⟨launch, last, known, all, sizes⟩ := ok
    obtain ⟨peer, other⟩ := exists_peer setup.ranks rank
    have two := near peer other ⟨0, hcas'⟩
    rw [all peer other] at two
    have gap : node.doorbell - node.last = word (rung - launch) := by
      rw [poster.bell, last, word_sub known]
    rw [gap] at stepped
    split at stepped
    · cases stepped
    next missed =>
      have ahead : launch < rung := by
        refine Nat.lt_of_le_of_ne known fun same => missed ?_
        rw [poster.bell, last, same]
      have count : (word (rung - launch)).toNat = rung - launch := by
        rw [word_toNat]
        exact Nat.mod_eq_of_lt (by omega)
      rw [count, if_neg (show ¬ (slots : ℕ) < rung - launch by rw [slots]; omega)] at stepped
      obtain rfl := Option.some.inj stepped
      refine ⟨poster.bell, launch, rung - launch - 1, last, ?_, ?_, by omega, by omega, all, sizes⟩
      · rw [last, word_succ]
      · rw [Nat.sub_add_cancel (by omega)]
  next => cases stepped

/-- The size of a missed launch is still published and passes the check. -/
theorem Poster.read (stepped : act setup rank node .read = some next) :
    Poster setup rank next rung handed := by
  rw [act] at stepped
  split at stepped
  next seq pending here =>
    have ok := poster.proxy
    rw [here] at ok
    obtain ⟨launch, more, last, rfl, count, few, known, all, sizes⟩ := ok
    obtain ⟨positive, whole⟩ := @nbytes_valid _ _ _ setup launch
    dsimp only at stepped
    rw [slotOf_word, sizes launch (Nat.le_refl _) (by omega), if_neg (by
      rintro (zero | ragged)
      · exact positive zero
      · exact ragged whole)] at stepped
    obtain rfl := Option.some.inj stepped
    refine ⟨poster.bell, launch, more, last, rfl, count, few, known, rfl, nodup_peersOf rank,
      fun pair listed => mem_peersOf.mp listed, fun peer other hca => ?_,
      fun later above => sizes later (by omega)⟩
    rw [if_pos (mem_peersOf.mpr other), all peer other]
  next => cases stepped

/-- The proxy posts the stripes of an announced launch to one peer on one network card. -/
theorem Poster.post (stepped : act setup rank node .post = some next) :
    ∃ peer hca, peer ≠ rank ∧ handed peer hca < rung ∧
      (∃ proxy, next = { node with
        proxy := proxy
        queue := Function.update node.queue peer (Function.update (node.queue peer) hca
          (node.queue peer hca ++ stripeRequests hcas (word (handed peer hca + 1))
            (word (setup.nbytes (handed peer hca))) hca)) }) ∧
      Poster setup rank next rung fun p h => if p = peer ∧ h = hca then handed p h + 1 else handed p h := by
  rw [act] at stepped
  split at stepped
  next seq pending nbytes peer hca todo here =>
    have ok := poster.proxy
    rw [here] at ok
    obtain ⟨launch, more, last, rfl, count, few, known, rfl, nodup, others, all, sizes⟩ := ok
    obtain rfl := Option.some.inj stepped
    have other := others (peer, hca) List.mem_cons_self
    have value := all peer other hca
    rw [if_pos List.mem_cons_self] at value
    obtain ⟨once, nodup'⟩ := List.nodup_cons.mp nodup
    refine ⟨peer, hca, other, by omega, ⟨_, by rw [value]⟩, poster.bell, launch, more, last, rfl, count, few,
      known, rfl, nodup', fun pair listed => others pair (List.mem_cons_of_mem _ listed),
      fun p different h => ?_, sizes⟩
    have before := all p different h
    dsimp only
    by_cases same : p = peer ∧ h = hca
    · obtain ⟨rfl, rfl⟩ := same
      rw [if_pos ⟨rfl, rfl⟩, if_neg once, value]
    · have distinct : (p, h) ≠ (peer, hca) := fun equal => same (Prod.mk.inj equal)
      rw [if_neg same, before]
      refine if_congr ?_ rfl rfl
      rw [List.mem_cons]
      exact ⟨fun either => either.resolve_left distinct, Or.inr⟩
  next => cases stepped

/-- A posted launch is remembered; the proxy goes on with the next missed one. -/
theorem Poster.posted (stepped : act setup rank node .posted = some next) :
    Poster setup rank next rung handed := by
  rw [act] at stepped
  split at stepped
  next seq pending nbytes here =>
    have ok := poster.proxy
    rw [here] at ok
    obtain ⟨launch, more, last, rfl, rfl, few, known, rfl, _, _, all, sizes⟩ := ok
    have handed' : ∀ peer ≠ rank, ∀ hca, handed peer hca = launch + 1 := by
      intro peer other hca
      rw [all peer other hca, if_neg List.not_mem_nil]
    have fewer : word (more + 1) - 1 = word more := by
      have difference := word_sub (show 1 ≤ more + 1 by omega)
      rw [Nat.add_sub_cancel] at difference
      exact difference
    rw [fewer] at stepped
    obtain rfl := Option.some.inj stepped
    refine ⟨poster.bell, ?_⟩
    dsimp only
    cases more with
    | zero =>
      rw [if_pos (show word 0 = 0 from rfl)]
      exact ⟨launch + 1, rfl, known, handed', sizes⟩
    | succ more =>
      have none : more = 0 := by omega
      subst none
      rw [if_neg (by decide)]
      exact ⟨launch + 1, 0, rfl, word_succ _, rfl, Nat.zero_le 1, by omega, handed', sizes⟩
  next => cases stepped

/-- Publishing the size of the next launch overwrites one that is no longer needed. -/
theorem Poster.publish (hcas' : 0 < hcas) {nbytes : Word} {epoch : ℕ} (announced : rung = epoch)
    (kept : ∀ peer ≠ rank, ∀ hca, epoch ≤ handed peer hca + 1)
    (size : next.size = Function.update node.size ((epoch + 1) % 2) nbytes)
    (bell : next.doorbell = node.doorbell) (last : next.last = node.last)
    (proxy : next.proxy = node.proxy) : Poster setup rank next rung handed := by
  obtain ⟨peer, other⟩ := exists_peer setup.ranks rank
  have recent := kept peer other ⟨0, hcas'⟩
  have untouched : ∀ first, epoch ≤ first + 1 → Sizes setup node.size first rung →
      Sizes setup next.size first rung := by
    intro first near sizes launch above below
    rw [size, Function.update_of_ne (by omega)]
    exact sizes launch above below
  refine ⟨bell.trans poster.bell, ?_⟩
  have ok := poster.proxy
  rw [proxy, last]
  cases here : node.proxy with
  | idle =>
    rw [here] at ok
    obtain ⟨launch, posted, known, all, sizes⟩ := ok
    rw [all peer other] at recent
    exact ⟨launch, posted, known, all, untouched launch recent sizes⟩
  | next seq pending =>
    rw [here] at ok
    obtain ⟨launch, more, posted, seq', count, few, known, all, sizes⟩ := ok
    rw [all peer other] at recent
    exact ⟨launch, more, posted, seq', count, few, known, all, untouched launch recent sizes⟩
  | posting seq pending nbytes' todo =>
    rw [here] at ok
    obtain ⟨launch, more, posted, seq', count, few, known, bytes, nodup, others, all, sizes⟩ := ok
    rw [all peer other] at recent
    refine ⟨launch, more, posted, seq', count, few, known, bytes, nodup, others, all,
      untouched (launch + 1) ?_ sizes⟩
    split at recent <;> omega
  | failed =>
    rw [here] at ok
    exact ok

/-- The doorbell announces one more launch, whose size was published before it. -/
theorem Poster.ring {epoch : ℕ} (announced : rung = epoch)
    (published : node.size ((epoch + 1) % 2) = word (setup.nbytes epoch))
    (size : next.size = node.size) (bell : next.doorbell = word (epoch + 1))
    (last : next.last = node.last) (proxy : next.proxy = node.proxy) :
    Poster setup rank next (epoch + 1) handed := by
  have extended : ∀ first, Sizes setup node.size first rung →
      Sizes setup node.size first (epoch + 1) := by
    intro first sizes launch above below
    by_cases newest : launch = epoch
    · rw [newest]
      exact published
    · exact sizes launch above (by omega)
  refine ⟨bell, ?_⟩
  have ok := poster.proxy
  rw [size, proxy, last]
  cases here : node.proxy with
  | idle =>
    rw [here] at ok
    obtain ⟨launch, posted, known, all, sizes⟩ := ok
    exact ⟨launch, posted, by omega, all, extended launch sizes⟩
  | next seq pending =>
    rw [here] at ok
    obtain ⟨launch, more, posted, seq', count, few, known, all, sizes⟩ := ok
    exact ⟨launch, more, posted, seq', count, few, by omega, all, extended launch sizes⟩
  | posting seq pending nbytes todo =>
    rw [here] at ok
    obtain ⟨launch, more, posted, seq', count, few, known, bytes, nodup, others, all, sizes⟩ := ok
    exact ⟨launch, more, posted, seq', count, few, by omega, bytes, nodup, others, all,
      extended (launch + 1) sizes⟩
  | failed =>
    rw [here] at ok
    exact ok

end Steps

end GlmSpark.RoceOneshot
