import Mathlib.Algebra.BigOperators.Group.Multiset.Basic
import Mathlib.Algebra.Order.BigOperators.Group.Finset
import Cryptochan.Lib.Tally
import Cryptochan.Queue.Clients
import Cryptochan.Queue.Fifo

/-!
# Cryptochan.Queue.Delivery — every value is consumed exactly once

Every value is at every moment still to be claimed, or owed by one producer, or in the queue, or held
by one consumer (`Test.Inv`, `Test.Conserved`).  So, when the consumers have returned, each was
consumed once and the sums that `main` compares are equal (`testCyclicQueue_exactlyOnce`).
-/

namespace Cryptochan.Queue

/-! ### Where every value is -/

/-- The element `values[i]`. -/
def valueElement (values : ℕ → Region) (i : ℕ) : Element := bytes (values i) sizeofComplexUint64

/-- The push of this call has counted its element. -/
def inQueue : Option Op → Bool
  | some (.push _ pc) => pc.counted
  | _ => false

/-- The element that the take of this call has counted off. -/
def outOfQueue : Option Op → Multiset Element
  | some (.take dest pc) => if pc.counted = true then {bytes dest sizeofComplexUint64} else 0
  | _ => 0

/-- The value that a producer has claimed and not yet pushed. -/
def owed (n : ℕ) (values : ℕ → Region) (x : Producer × Option Op) : Multiset Element :=
  let v : Multiset Element := {valueElement values x.1.vidx.toNat}
  match x.1.pc with
  | .bound => if x.1.vidx < n then v else 0
  | .pushing => if inQueue x.2 = true then 0 else v
  | _ => if x.1.cached = true then v else 0

/-- 1 for a producer that claimed an index behind the last value; it claims no other one. -/
def overrun (n : ℕ) (x : Producer × Option Op) : ℕ :=
  match x.1.pc with
  | .bound => if x.1.vidx < n then 0 else 1
  | .done => 1
  | _ => 0

/-- What a consumer took and has still to add. -/
def inHand (x : Consumer × Option Op) : Multiset Element :=
  match x.1.pc with
  | .taking => outOfQueue x.2
  | .add => {bytes x.1.nextVal sizeofComplexUint64}
  | _ => 0

/-- What a consumer took. -/
def held (x : Consumer × Option Op) : Multiset Element := (x.1.got : Multiset Element) + inHand x

/-- 1 for a consumer that has still to count what it took. -/
def uncounted (x : Consumer × Option Op) : ℕ := if x.1.pc = .count then 1 else 0

/-- What a producer knows about its index, and the call it is in. -/
def Producer.Ok (n : ℕ) (values : ℕ → Region) (x : Producer × Option Op) : Prop :=
  (x.1.cached = true → 0 ≤ x.1.vidx ∧ x.1.vidx < n) ∧
  match x.1.pc with
  | .test | .stage => x.2 = none
  | .load | .done => x.1.cached = false ∧ x.2 = none
  | .cas | .bound => x.1.cached = false ∧ 0 ≤ x.1.vidx ∧ x.2 = none
  | .push => x.1.cached = true ∧ x.2 = none
  | .pushing => x.1.cached = true ∧ ∃ pc, x.2 = some (.push (values x.1.vidx.toNat) pc)

/-- What a consumer added up, and the call it is in. -/
def Consumer.Ok (x : Consumer × Option Op) : Prop :=
  x.1.result = (x.1.got.map complexOfElement).sum ∧
  match x.1.pc with
  | .taking => ∃ dest pc, x.2 = some (.take dest pc)
  | _ => x.2 = none

section Invariant

variable {π κ : Type} [DecidableEq π] [DecidableEq κ] {n : ℕ} {values : ℕ → Region}
  {s s' : Test π κ} {p : π} {c : κ} {ch : Choice}

def Test.producing (s : Test π κ) (p : π) : Producer × Option Op :=
  (s.producers p, s.sys.calls (.inl p))

def Test.consuming (s : Test π κ) (c : κ) : Consumer × Option Op :=
  (s.consumers c, s.sys.calls (.inr c))

variable [Fintype π] [Fintype κ]

open Tally in
/-- Where every value is, and how far the counters are. -/
structure Test.Inv (n : ℕ) (values : ℕ → Region) (s : Test π κ) : Prop where
  queue : ∃ V, InvAt s.sys V
  elementSize : s.sys.queue.elementSize = sizeofComplexUint64
  producers : ∀ p, Producer.Ok n values (s.producing p)
  consumers : ∀ c, Consumer.Ok (s.consuming c)
  /-- What was claimed is pushed, or owed by one producer. -/
  claimed : (s.sys.history.pushed : Multiset Element) + total (owed n values) s.producing =
    (Multiset.range (min s.vindex n)).map (valueElement values)
  /-- What was taken is held by one consumer. -/
  taken : (s.sys.history.taken : Multiset Element) = total held s.consuming
  vindex : s.vindex ≤ n + total (overrun n) s.producing
  consumed : s.consumedCount + total uncounted s.consuming =
    total (fun x => x.1.got.length) s.consuming

namespace Test.Inv

open Tally

omit [DecidableEq π] [DecidableEq κ] in
/-- A step of a producer. -/
theorem of_producer (h : Inv n values s) (hqueue : ∃ V, InvAt s'.sys V)
    (hes : s'.sys.queue.elementSize = s.sys.queue.elementSize)
    (hstep : StepOf p s.producing s'.producing) (hcons : s'.consuming = s.consuming)
    (hcount : s'.consumedCount = s.consumedCount)
    (htaken : s'.sys.history.taken = s.sys.history.taken)
    (hok : Producer.Ok n values (s'.producing p))
    (hclaimed : (s'.sys.history.pushed : Multiset Element) + total (owed n values) s'.producing =
      (Multiset.range (min s'.vindex n)).map (valueElement values))
    (hover : s'.vindex ≤ n + total (overrun n) s'.producing) : Inv n values s' where
  queue := hqueue
  elementSize := hes.trans h.elementSize
  producers u := by
    rcases eq_or_ne u p with rfl | hne
    · exact hok
    · rw [hstep u hne]
      exact h.producers u
  consumers := by rw [hcons]; exact h.consumers
  claimed := hclaimed
  taken := by rw [htaken, hcons]; exact h.taken
  vindex := hover
  consumed := by rw [hcount, hcons]; exact h.consumed

omit [DecidableEq π] [DecidableEq κ] in
/-- A step of a consumer. -/
theorem of_consumer (h : Inv n values s) (hqueue : ∃ V, InvAt s'.sys V)
    (hes : s'.sys.queue.elementSize = s.sys.queue.elementSize)
    (hstep : StepOf c s.consuming s'.consuming) (hprod : s'.producing = s.producing)
    (hvindex : s'.vindex = s.vindex)
    (hpushed : s'.sys.history.pushed = s.sys.history.pushed)
    (hok : Consumer.Ok (s'.consuming c))
    (htaken : (s'.sys.history.taken : Multiset Element) = total held s'.consuming)
    (hconsumed : s'.consumedCount + total uncounted s'.consuming =
      total (fun x => x.1.got.length) s'.consuming) : Inv n values s' where
  queue := hqueue
  elementSize := hes.trans h.elementSize
  producers := by rw [hprod]; exact h.producers
  consumers u := by
    rcases eq_or_ne u c with rfl | hne
    · exact hok
    · rw [hstep u hne]
      exact h.consumers u
  claimed := by rw [hpushed, hprod, hvindex]; exact h.claimed
  taken := htaken
  vindex := by rw [hprod, hvindex]; exact h.vindex
  consumed := hconsumed

omit [Fintype π] [Fintype κ] [DecidableEq κ] in
theorem producing_setProducer (q : Producer) :
    (s.setProducer p q).producing p = (q, s.sys.calls (.inl p)) :=
  Prod.ext (Function.update_self _ _ _) rfl

omit [Fintype π] [Fintype κ] [DecidableEq κ] in
theorem stepOf_setProducer (q : Producer) :
    StepOf p s.producing (s.setProducer p q).producing :=
  fun _ hu => Prod.ext (Function.update_of_ne hu _ _) rfl

omit [Fintype π] [Fintype κ] [DecidableEq π] in
theorem consuming_setConsumer (q : Consumer) :
    (s.setConsumer c q).consuming c = (q, s.sys.calls (.inr c)) :=
  Prod.ext (Function.update_self _ _ _) rfl

omit [Fintype π] [Fintype κ] [DecidableEq π] in
theorem stepOf_setConsumer (q : Consumer) :
    StepOf c s.consuming (s.setConsumer c q).consuming :=
  fun _ hu => Prod.ext (Function.update_of_ne hu _ _) rfl

omit [DecidableEq κ] in
/-- A producer changes its locals only, and owes what it owed. -/
theorem local_producer (h : Inv n values s) {q : Producer} {x : ℕ}
    (hok : Producer.Ok n values (q, s.sys.calls (.inl p)))
    (howed : owed n values (q, s.sys.calls (.inl p)) = owed n values (s.producing p))
    (hover : overrun n (q, s.sys.calls (.inl p)) = overrun n (s.producing p) + x) :
    Inv n values (s.setProducer p q) := by
  have hstep : StepOf p s.producing (s.setProducer p q).producing := stepOf_setProducer q
  have hself := producing_setProducer (s := s) (p := p) q
  refine h.of_producer h.queue rfl hstep rfl rfl rfl (hself ▸ hok) ?_ ?_
  · rw [total_same hstep (by rw [hself, howed])]
    exact h.claimed
  · rw [total_gain hstep (x := x) (by rw [hself, hover])]
    exact h.vindex.trans (by rw [← Nat.add_assoc]; exact Nat.le_add_right _ _)

omit [DecidableEq π] in
/-- A consumer changes its locals only, and holds what it held. -/
theorem local_consumer (h : Inv n values s) {q : Consumer} {k : ℕ}
    (hok : Consumer.Ok (q, s.sys.calls (.inr c)))
    (hheld : held (q, s.sys.calls (.inr c)) = held (s.consuming c))
    (hlen : q.got.length = (s.consumers c).got.length + k)
    (hun : uncounted (q, s.sys.calls (.inr c)) = uncounted (s.consuming c) + k) :
    Inv n values (s.setConsumer c q) := by
  have hstep : StepOf c s.consuming (s.setConsumer c q).consuming := stepOf_setConsumer q
  have hself := consuming_setConsumer (s := s) (c := c) q
  refine h.of_consumer h.queue rfl hstep rfl rfl rfl (hself ▸ hok) ?_ ?_
  · rw [total_same hstep (by rw [hself, hheld])]
    exact h.taken
  · rw [total_gain hstep (x := k) (by rw [hself, hun]), total_gain (f := fun x => x.1.got.length) hstep
      (x := k) (by rw [hself]; exact hlen), ← h.consumed, ← Nat.add_assoc]
    rfl

omit [Fintype π] [Fintype κ] in
/-- A step of the queue by a producer. -/
theorem framed_producer {sys : Sys (π ⊕ κ)} {e : Event (π ⊕ κ)} (hs : s.sys.step e = some sys)
    (he : e.thread = .inl p) (q : Producer) :
    StepOf p s.producing ({ s with sys := sys }.setProducer p q).producing ∧
      ({ s with sys := sys }.setProducer p q).consuming = s.consuming := by
  have hcalls : ∀ t, t ≠ .inl p → sys.calls t = s.sys.calls t :=
    fun t ht => Sys.step_calls_of_ne hs (he ▸ ht)
  constructor
  · intro u hu
    exact Prod.ext (Function.update_of_ne hu _ _) (hcalls _ fun he => hu (Sum.inl.inj he))
  · funext c
    exact Prod.ext rfl (hcalls _ (by simp))

omit [Fintype π] [Fintype κ] in
/-- A step of the queue by a consumer. -/
theorem framed_consumer {sys : Sys (π ⊕ κ)} {e : Event (π ⊕ κ)} (hs : s.sys.step e = some sys)
    (he : e.thread = .inr c) (q : Consumer) :
    StepOf c s.consuming ({ s with sys := sys }.setConsumer c q).consuming ∧
      ({ s with sys := sys }.setConsumer c q).producing = s.producing := by
  have hcalls : ∀ t, t ≠ .inr c → sys.calls t = s.sys.calls t :=
    fun t ht => Sys.step_calls_of_ne hs (he ▸ ht)
  constructor
  · intro u hu
    exact Prod.ext (Function.update_of_ne hu _ _) (hcalls _ fun he => hu (Sum.inr.inj he))
  · funext p
    exact Prod.ext rfl (hcalls _ (by simp))

/-! ### Steps of a producer -/

/-- A step of a producer in the queue; `l` is what it counted. -/
theorem queue_producer (h : Inv n values s) {sys : Sys (π ⊕ κ)} {e : Event (π ⊕ κ)} {q : Producer}
    (hs : s.sys.step e = some sys) (he : e.thread = .inl p)
    (hes : sys.queue.elementSize = s.sys.queue.elementSize)
    (htaken : sys.history.taken = s.sys.history.taken) {l : List Element}
    (hpushed : sys.history.pushed = s.sys.history.pushed ++ l)
    (hok : Producer.Ok n values (q, sys.calls (.inl p)))
    (howed : owed n values (s.producing p) = owed n values (q, sys.calls (.inl p)) + ↑l)
    (hover : overrun n (q, sys.calls (.inl p)) = overrun n (s.producing p)) :
    Inv n values ({ s with sys := sys }.setProducer p q) := by
  obtain ⟨V, hV⟩ := h.queue
  obtain ⟨hstep, hcons⟩ := framed_producer hs he q
  have hself := producing_setProducer (s := { s with sys := sys }) (p := p) q
  refine h.of_producer (step_inv hV hs) hes hstep hcons rfl htaken (hself ▸ hok) ?_ ?_
  · have htotal := total_gain (f := owed n values) hstep.symm (x := ↑l) (by rw [hself, howed])
    have hclaimed := h.claimed
    rw [htotal, add_comm (total _ _), ← add_assoc, Multiset.coe_add, ← hpushed] at hclaimed
    exact hclaimed
  · rw [total_same hstep (by rw [hself, hover])]
    exact h.vindex

theorem producer_push (h : Inv n values s) {q : Producer} (hq : s.producers p = q)
    (hpc : q.pc = .push) {sys : Sys (π ⊕ κ)}
    (hs : s.sys.step (.push (.inl p) (values q.vidx.toNat)) = some sys) :
    Inv n values ({ s with sys := sys }.setProducer p { q with pc := .pushing }) := by
  have hstart : sys.shared = s.sys.shared ∧ sys.history = s.sys.history ∧
      sys.calls (.inl p) = some (.push (values q.vidx.toNat) .lockPushLoad) := by
    simp only [Sys.step, Sys.invoke] at hs
    split_ifs at hs
    obtain rfl := Option.some.inj hs
    exact ⟨rfl, rfl, Function.update_self _ _ _⟩
  obtain ⟨hshared, hhist, hcalls⟩ := hstart
  obtain ⟨pc, vidx, cached, processed⟩ := q
  obtain rfl : pc = .push := hpc
  have hok : Producer.Ok n values (⟨.push, vidx, cached, processed⟩, s.sys.calls (.inl p)) :=
    hq ▸ h.producers p
  obtain ⟨hrange, rfl, -⟩ := hok
  refine h.queue_producer (l := []) hs rfl (by rw [Sys.queue, hshared]) (by rw [hhist])
    (by rw [hhist, List.append_nil]) ⟨hrange, rfl, _, hcalls⟩ ?_ ?_
  · rw [hcalls, producing, hq]
    exact (add_zero _).symm
  · rw [producing, hq]
    rfl

theorem producer_pushing (h : Inv n values s) {q : Producer} (hq : s.producers p = q)
    (hpc : q.pc = .pushing) {sys : Sys (π ⊕ κ)} (hs : s.sys.step (.step (.inl p) ch) = some sys) :
    Inv n values ({ s with sys := sys }.setProducer p (q.afterPush (s.sys.returns (.inl p) ch))) := by
  obtain ⟨pc, vidx, cached, processed⟩ := q
  obtain rfl : pc = .pushing := hpc
  have hok : Producer.Ok n values (⟨.pushing, vidx, cached, processed⟩, s.sys.calls (.inl p)) :=
    hq ▸ h.producers p
  obtain ⟨hrange, rfl, pc, hop⟩ := hok
  have hx : s.producing p =
      (⟨.pushing, vidx, true, processed⟩, some (.push (values vidx.toNat) pc)) :=
    Prod.ext hq hop
  obtain ⟨hes, htaken, hcases⟩ := step_push hop hs
  rcases hcases with ⟨pc', hnone, hop', ⟨hc, hc', hpushed⟩ | ⟨hc, hpushed⟩⟩ | ⟨hret, hop', hpushed⟩
  · -- the `fetch_add`
    rw [hnone]
    refine h.queue_producer hs rfl hes htaken hpushed ⟨hrange, rfl, pc', hop'⟩ ?_ ?_
    · rw [hx, hop', h.elementSize]
      simp [owed, inQueue, hc, hc', valueElement, Producer.afterPush]
    · rw [hx]
      rfl
  · rw [hnone]
    refine h.queue_producer (l := []) hs rfl hes htaken (by rw [hpushed, List.append_nil])
      ⟨hrange, rfl, pc', hop'⟩ ?_ ?_
    · have hin : inQueue (some (.push (values vidx.toNat) pc')) =
          inQueue (some (.push (values vidx.toNat) pc)) := hc
      rw [hx, hop', owed, owed, Producer.afterPush, hin]
      exact (add_zero _).symm
    · rw [hx]
      rfl
  · rw [hret]
    cases hc : pc.counted with
    | true =>
      refine h.queue_producer (l := []) hs rfl hes htaken (by rw [hpushed, List.append_nil])
        ⟨fun he => absurd he (by simp [Producer.afterPush]), hop'⟩ ?_ ?_
      · rw [hx, hop']
        simp [owed, inQueue, hc, Producer.afterPush]
      · rw [hx]
        rfl
    | false =>
      refine h.queue_producer (l := []) hs rfl hes htaken (by rw [hpushed, List.append_nil])
        ⟨hrange, hop'⟩ ?_ ?_
      · rw [hx, hop']
        simp [owed, inQueue, hc, Producer.afterPush]
      · rw [hx]
        rfl

omit [DecidableEq κ] in
/-- The compare-exchange claims the index. -/
theorem producer_claim (h : Inv n values s) {q : Producer} (hq : s.producers p = q)
    (hpc : q.pc = .cas) (hvidx : (s.vindex : ℤ) = q.vidx) :
    Inv n values ({ s with vindex := s.vindex + 1 }.setProducer p { q with pc := .bound }) := by
  obtain ⟨pc, vidx, cached, processed⟩ := q
  obtain rfl : pc = .cas := hpc
  obtain rfl : (s.vindex : ℤ) = vidx := hvidx
  have hok : Producer.Ok n values (⟨.cas, s.vindex, cached, processed⟩, s.sys.calls (.inl p)) :=
    hq ▸ h.producers p
  obtain ⟨hrange, rfl, hnn, hnone⟩ := hok
  have hx : s.producing p = (⟨.cas, s.vindex, false, processed⟩, none) := Prod.ext hq hnone
  have hstep : StepOf p s.producing ({ s with vindex := s.vindex + 1 }.setProducer p
      ⟨.bound, s.vindex, false, processed⟩).producing := stepOf_setProducer _
  have hself : ({ s with vindex := s.vindex + 1 }.setProducer p
      ⟨.bound, s.vindex, false, processed⟩).producing p =
        (⟨.bound, s.vindex, false, processed⟩, none) :=
    (producing_setProducer _).trans (Prod.ext rfl hnone)
  refine h.of_producer h.queue rfl hstep rfl rfl rfl ?_ ?_ ?_
  · rw [hself]
    exact ⟨hrange, rfl, hnn, rfl⟩
  · rcases Nat.lt_or_ge s.vindex n with hlt | hge
    · have howed : owed n values (⟨.bound, s.vindex, false, processed⟩, none) =
          owed n values (s.producing p) + {valueElement values s.vindex} := by
        rw [hx]
        simp [owed, hlt]
      rw [total_gain hstep (by rw [hself, howed]), ← add_assoc]
      have hclaimed := h.claimed
      rw [min_eq_left hlt.le] at hclaimed
      show _ = (Multiset.range (min (s.vindex + 1) n)).map (valueElement values)
      rw [min_eq_left hlt, Multiset.range_succ, Multiset.map_cons, ← hclaimed,
        ← Multiset.singleton_add, add_comm]
      rfl
    · have howed : owed n values (⟨.bound, s.vindex, false, processed⟩, none) =
          owed n values (s.producing p) := by
        rw [hx]
        simp [owed, Nat.not_lt.mpr hge]
      rw [total_same hstep (by rw [hself, howed])]
      show _ = (Multiset.range (min (s.vindex + 1) n)).map (valueElement values)
      have hclaimed := h.claimed
      rw [min_eq_right hge] at hclaimed
      rw [min_eq_right (by omega)]
      exact hclaimed
  · have hvindex := h.vindex
    show s.vindex + 1 ≤ _
    rcases Nat.lt_or_ge s.vindex n with hlt | hge
    · exact Nat.le_trans hlt (Nat.le_add_right _ _)
    · have hover : overrun n (⟨.bound, s.vindex, false, processed⟩, none) =
          overrun n (s.producing p) + 1 := by
        rw [hx]
        simp [overrun, Nat.not_lt.mpr hge]
      rw [total_gain hstep (by rw [hself, hover])]
      omega

theorem producerStep (h : Inv n values s) (hs : s.producerStep n values p ch = some s') :
    Inv n values s' := by
  unfold Test.producerStep at hs
  generalize hq : s.producers p = q at hs
  have hok : Producer.Ok n values (q, s.sys.calls (.inl p)) := hq ▸ h.producers p
  have hx : s.producing p = (q, s.sys.calls (.inl p)) := Prod.ext hq rfl
  obtain ⟨pc, vidx, cached, processed⟩ := q
  obtain ⟨hrange, hpc⟩ := hok
  cases pc with
  | test =>
    obtain rfl := Option.some.inj hs
    dsimp only
    split_ifs with hcond
    · exact h.local_producer (x := 0) ⟨hrange, hpc⟩ (by rw [hx]; rfl) (by rw [hx]; rfl)
    · have hcached : cached = false := Bool.eq_false_iff.mpr fun he => hcond (Or.inr he)
      exact h.local_producer (x := 1) ⟨hrange, hcached, hpc⟩ (by rw [hx]; rfl) (by rw [hx]; rfl)
  | stage =>
    obtain rfl := Option.some.inj hs
    dsimp only
    split_ifs with hstage hcached
    · exact h.local_producer (x := 0) ⟨hrange, hpc⟩ (by rw [hx]; rfl) (by rw [hx]; rfl)
    · exact h.local_producer (x := 0) ⟨hrange, hcached, hpc⟩ (by rw [hx]; rfl) (by rw [hx]; rfl)
    · exact h.local_producer (x := 0) ⟨hrange, Bool.eq_false_iff.mpr hcached, hpc⟩
        (by rw [hx]; rfl) (by rw [hx]; rfl)
  | load =>
    obtain rfl := Option.some.inj hs
    obtain ⟨rfl, hnone⟩ := hpc
    exact h.local_producer (x := 0) ⟨fun he => absurd he (by simp), rfl, Int.natCast_nonneg _, hnone⟩
      (by rw [hx]; rfl) (by rw [hx]; rfl)
  | cas =>
    obtain ⟨rfl, hnn, hnone⟩ := hpc
    dsimp only at hs
    split_ifs at hs with hcas
    · obtain rfl := Option.some.inj hs
      exact h.producer_claim hq rfl hcas.1
    · obtain rfl := Option.some.inj hs
      exact h.local_producer (x := 0) ⟨fun he => absurd he (by simp), rfl, hnone⟩
        (by rw [hx]; rfl) (by rw [hx]; rfl)
  | bound =>
    obtain ⟨rfl, hnn, hnone⟩ := hpc
    obtain rfl := Option.some.inj hs
    dsimp only
    split_ifs with hbound
    · refine h.local_producer (x := 0) ⟨hrange, rfl, hnone⟩ ?_ ?_
      · rw [hx]
        exact (if_neg (not_lt.mpr hbound)).symm
      · rw [hx]
        exact (if_neg (not_lt.mpr hbound)).symm
    · refine h.local_producer (x := 0) ⟨fun _ => ⟨hnn, not_le.mp hbound⟩, rfl, hnone⟩ ?_ ?_
      · rw [hx]
        exact (if_pos (not_le.mp hbound)).symm
      · rw [hx]
        exact (if_pos (not_le.mp hbound)).symm
  | push =>
    obtain ⟨sys, hsys, rfl⟩ := Option.map_eq_some_iff.mp hs
    exact h.producer_push hq rfl hsys
  | pushing =>
    obtain ⟨sys, hsys, rfl⟩ := Option.map_eq_some_iff.mp hs
    exact h.producer_pushing hq rfl hsys
  | done => exact absurd hs (by simp)

/-! ### Steps of a consumer -/

/-- A step of a consumer in the queue; `l` is what it counted off. -/
theorem queue_consumer (h : Inv n values s) {sys : Sys (π ⊕ κ)} {e : Event (π ⊕ κ)} {q : Consumer}
    (hs : s.sys.step e = some sys) (he : e.thread = .inr c)
    (hes : sys.queue.elementSize = s.sys.queue.elementSize)
    (hpushed : sys.history.pushed = s.sys.history.pushed) {l : List Element}
    (htaken : sys.history.taken = s.sys.history.taken ++ l)
    (hok : Consumer.Ok (q, sys.calls (.inr c)))
    (hheld : held (q, sys.calls (.inr c)) = held (s.consuming c) + ↑l)
    (hgot : q.got = (s.consumers c).got)
    (hun : uncounted (q, sys.calls (.inr c)) = uncounted (s.consuming c)) :
    Inv n values ({ s with sys := sys }.setConsumer c q) := by
  obtain ⟨V, hV⟩ := h.queue
  obtain ⟨hstep, hprod⟩ := framed_consumer hs he q
  have hself := consuming_setConsumer (s := { s with sys := sys }) (c := c) q
  refine h.of_consumer (step_inv hV hs) hes hstep hprod rfl hpushed (hself ▸ hok) ?_ ?_
  · rw [total_gain hstep (by rw [hself, hheld]), ← h.taken, Multiset.coe_add, ← htaken]
    rfl
  · rw [total_same hstep (by rw [hself, hun]), total_same (f := fun x => x.1.got.length) hstep
      (by rw [hself]; exact congrArg List.length hgot)]
    exact h.consumed

theorem consumer_take (h : Inv n values s) {q : Consumer} (hq : s.consumers c = q)
    (hpc : q.pc = .take) {sys : Sys (π ⊕ κ)}
    (hs : s.sys.step (.take (.inr c) q.nextVal) = some sys) :
    Inv n values ({ s with sys := sys }.setConsumer c { q with pc := .taking }) := by
  have hstart : sys.shared = s.sys.shared ∧ sys.history = s.sys.history ∧
      sys.calls (.inr c) = some (.take q.nextVal .loadSize) := by
    simp only [Sys.step, Sys.invoke] at hs
    split_ifs at hs
    obtain rfl := Option.some.inj hs
    exact ⟨rfl, rfl, Function.update_self _ _ _⟩
  obtain ⟨hshared, hhist, hcalls⟩ := hstart
  obtain ⟨pc, nextVal, result, processed, got⟩ := q
  obtain rfl : pc = .take := hpc
  have hok : Consumer.Ok (⟨.take, nextVal, result, processed, got⟩, s.sys.calls (.inr c)) :=
    hq ▸ h.consumers c
  refine h.queue_consumer (l := []) hs rfl (by rw [Sys.queue, hshared]) (by rw [hhist])
    (by rw [hhist, List.append_nil]) ⟨hok.1, _, _, hcalls⟩ ?_ (by rw [hq]) ?_
  · rw [hcalls, consuming, hq]
    exact (add_zero _).symm
  · rw [consuming, hq]
    rfl

theorem consumer_taking (h : Inv n values s) {q : Consumer} (hq : s.consumers c = q)
    (hpc : q.pc = .taking) {sys : Sys (π ⊕ κ)} (hs : s.sys.step (.step (.inr c) ch) = some sys) :
    Inv n values ({ s with sys := sys }.setConsumer c (q.afterTake (s.sys.returns (.inr c) ch))) := by
  obtain ⟨pc, nextVal, result, processed, got⟩ := q
  obtain rfl : pc = .taking := hpc
  have hok : Consumer.Ok (⟨.taking, nextVal, result, processed, got⟩, s.sys.calls (.inr c)) :=
    hq ▸ h.consumers c
  obtain ⟨hresult, dest, pc, hop⟩ := hok
  have hx : s.consuming c =
      (⟨.taking, nextVal, result, processed, got⟩, some (.take dest pc)) := Prod.ext hq hop
  obtain ⟨hes, hpushed, hcases⟩ := step_take hop hs
  rcases hcases with ⟨dest', pc', hnone, hop', ⟨hc, hc', htaken⟩ | ⟨hc, hdest, htaken⟩⟩ |
    ⟨dest', hret, hdest, hop', htaken⟩
  · -- the `fetch_sub`
    rw [hnone]
    refine h.queue_consumer hs rfl hes hpushed htaken ⟨hresult, dest', pc', hop'⟩ ?_ (by rw [hq]; rfl)
      ?_
    · rw [hx, hop', h.elementSize]
      simp [held, inHand, outOfQueue, hc, hc', Consumer.afterTake]
    · rw [hx]
      rfl
  · rw [hnone]
    refine h.queue_consumer (l := []) hs rfl hes hpushed (by rw [htaken, List.append_nil])
      ⟨hresult, dest', pc', hop'⟩ ?_ (by rw [hq]; rfl) ?_
    · have hout : outOfQueue (some (.take dest' pc')) = outOfQueue (some (.take dest pc)) := by
        simp only [outOfQueue, hc]
        split_ifs with hcounted
        · rw [hdest hcounted]
        · rfl
      rw [hx, hop', held, held, inHand, inHand, Consumer.afterTake, hout]
      exact (add_zero _).symm
    · rw [hx]
      rfl
  · rw [hret]
    cases hc : pc.counted with
    | true =>
      obtain rfl := hdest hc
      refine h.queue_consumer (l := []) hs rfl hes hpushed (by rw [htaken, List.append_nil])
        ⟨hresult, hop'⟩ ?_ (by rw [hq]; rfl) ?_
      · rw [hx, hop']
        simp [held, inHand, outOfQueue, hc, Consumer.afterTake]
      · rw [hx]
        rfl
    | false =>
      refine h.queue_consumer (l := []) hs rfl hes hpushed (by rw [htaken, List.append_nil])
        ⟨hresult, hop'⟩ ?_ (by rw [hq]; rfl) ?_
      · rw [hx, hop']
        simp [held, inHand, outOfQueue, hc, Consumer.afterTake]
      · rw [hx]
        rfl

omit [DecidableEq π] in
/-- `consumed_count` is incremented. -/
theorem consumer_count (h : Inv n values s) {q : Consumer} (hq : s.consumers c = q)
    (hpc : q.pc = .count) : Inv n values ({ s with consumedCount := s.consumedCount + 1 }.setConsumer c
      { q with pc := .test, processedCount := q.processedCount + 1 }) := by
  obtain ⟨pc, nextVal, result, processed, got⟩ := q
  obtain rfl : pc = .count := hpc
  have hok : Consumer.Ok (⟨.count, nextVal, result, processed, got⟩, s.sys.calls (.inr c)) :=
    hq ▸ h.consumers c
  obtain ⟨hresult, hnone⟩ := hok
  have hx : s.consuming c = (⟨.count, nextVal, result, processed, got⟩, none) := Prod.ext hq hnone
  have hstep : StepOf c s.consuming ({ s with consumedCount := s.consumedCount + 1 }.setConsumer c
      ⟨.test, nextVal, result, processed + 1, got⟩).consuming := stepOf_setConsumer _
  have hself : ({ s with consumedCount := s.consumedCount + 1 }.setConsumer c
      ⟨.test, nextVal, result, processed + 1, got⟩).consuming c =
        (⟨.test, nextVal, result, processed + 1, got⟩, none) :=
    (consuming_setConsumer _).trans (Prod.ext rfl hnone)
  refine h.of_consumer h.queue rfl hstep rfl rfl rfl ?_ ?_ ?_
  · rw [hself]
    exact ⟨hresult, rfl⟩
  · rw [total_same hstep (by rw [hself, hx]; rfl)]
    exact h.taken
  · have hun := total_gain (f := uncounted) hstep.symm (x := 1) (by rw [hself, hx]; rfl)
    rw [total_same (f := fun x => x.1.got.length) hstep (by rw [hself, hx]), ← h.consumed, hun]
    exact Nat.add_right_comm _ _ _

theorem consumerStep (h : Inv n values s) (hs : s.consumerStep n c ch = some s') :
    Inv n values s' := by
  unfold Test.consumerStep at hs
  generalize hq : s.consumers c = q at hs
  have hok : Consumer.Ok (q, s.sys.calls (.inr c)) := hq ▸ h.consumers c
  have hx : s.consuming c = (q, s.sys.calls (.inr c)) := Prod.ext hq rfl
  obtain ⟨pc, nextVal, result, processed, got⟩ := q
  obtain ⟨hresult, hpc⟩ := hok
  cases pc with
  | test =>
    obtain rfl := Option.some.inj hs
    dsimp only
    split_ifs <;>
    · exact h.local_consumer (k := 0) ⟨hresult, hpc⟩ (by rw [hx]; rfl) (by rw [hq]; rfl)
        (by rw [hx]; rfl)
  | stage =>
    obtain rfl := Option.some.inj hs
    dsimp only
    split_ifs <;>
    · exact h.local_consumer (k := 0) ⟨hresult, hpc⟩ (by rw [hx]; rfl) (by rw [hq]; rfl)
        (by rw [hx]; rfl)
  | take =>
    obtain ⟨sys, hsys, rfl⟩ := Option.map_eq_some_iff.mp hs
    exact h.consumer_take hq rfl hsys
  | taking =>
    obtain ⟨sys, hsys, rfl⟩ := Option.map_eq_some_iff.mp hs
    exact h.consumer_taking hq rfl hsys
  | add =>
    obtain rfl := Option.some.inj hs
    refine h.local_consumer (k := 1) ⟨?_, hpc⟩ ?_ (by rw [hq]; simp) (by rw [hx]; rfl)
    · simp only [List.map_append, List.sum_append, List.map_cons, List.map_nil, List.sum_singleton]
      rw [← hresult]
    · rw [hx, held, held, inHand, inHand, ← Multiset.coe_add, Multiset.coe_singleton]
      exact add_zero _
  | count =>
    obtain rfl := Option.some.inj hs
    exact h.consumer_count hq rfl
  | done => exact absurd hs (by simp)

theorem step (h : Inv n values s) {e : TestEvent π κ} (hs : s.step n values e = some s') :
    Inv n values s' := by
  cases e with
  | go =>
    obtain rfl := Option.some.inj hs
    exact { h with }
  | producer p ch => exact h.producerStep hs
  | consumer c ch => exact h.consumerStep hs

end Test.Inv

/-! ### Runs -/

open Tally

/-- A consumer has left its loop only when all values were counted. -/
def Test.DoneOk (n : ℕ) (s : Test π κ) : Prop :=
  ∀ c, (s.consumers c).pc = .done → n ≤ s.consumedCount

omit [Fintype π] [Fintype κ] in
theorem Test.DoneOk.step (h : s.DoneOk n) {e : TestEvent π κ} (hs : s.step n values e = some s') :
    s'.DoneOk n := by
  have hlocal : ∀ {s1 : Test π κ} {c : κ} {q : Consumer}, s1.consumers = s.consumers →
      s.consumedCount ≤ s1.consumedCount → (q.pc = .done → n ≤ s1.consumedCount) →
      (s1.setConsumer c q).DoneOk n := by
    intro s1 c q hcons hle hq u hu
    simp only [Test.setConsumer] at hu
    rcases eq_or_ne u c with rfl | hne
    · rw [Function.update_self] at hu
      exact hq hu
    · rw [Function.update_of_ne hne, hcons] at hu
      exact (h u hu).trans hle
  cases e with
  | go =>
    obtain rfl := Option.some.inj hs
    exact h
  | producer p ch =>
    have hsame : s'.consumers = s.consumers ∧ s'.consumedCount = s.consumedCount := by
      unfold Test.step Test.producerStep at hs
      dsimp only at hs
      split at hs
      · obtain rfl := Option.some.inj hs
        exact ⟨rfl, rfl⟩
      · obtain rfl := Option.some.inj hs
        exact ⟨rfl, rfl⟩
      · obtain rfl := Option.some.inj hs
        exact ⟨rfl, rfl⟩
      · split_ifs at hs <;> obtain rfl := Option.some.inj hs <;> exact ⟨rfl, rfl⟩
      · obtain rfl := Option.some.inj hs
        exact ⟨rfl, rfl⟩
      · obtain ⟨sys, -, rfl⟩ := Option.map_eq_some_iff.mp hs
        exact ⟨rfl, rfl⟩
      · obtain ⟨sys, -, rfl⟩ := Option.map_eq_some_iff.mp hs
        exact ⟨rfl, rfl⟩
      · exact absurd hs (by simp)
    intro c hc
    rw [hsame.1] at hc
    exact hsame.2 ▸ h c hc
  | consumer c ch =>
    unfold Test.step Test.consumerStep at hs
    dsimp only at hs
    split at hs
    · obtain rfl := Option.some.inj hs
      refine hlocal rfl le_rfl fun hpc => ?_
      by_contra hlt
      rw [if_pos (not_le.mp hlt)] at hpc
      exact absurd hpc (by simp)
    · obtain rfl := Option.some.inj hs
      refine hlocal rfl le_rfl fun hpc => ?_
      dsimp only at hpc
      split_ifs at hpc
    · obtain ⟨sys, -, rfl⟩ := Option.map_eq_some_iff.mp hs
      exact hlocal rfl le_rfl fun hpc => absurd hpc (by simp)
    · rename_i hq
      obtain ⟨sys, -, rfl⟩ := Option.map_eq_some_iff.mp hs
      refine hlocal rfl le_rfl fun hpc => ?_
      unfold Consumer.afterTake at hpc
      split at hpc
      · rw [hq] at hpc
        exact absurd hpc (by simp)
      · exact absurd hpc (by simp)
      · exact absurd hpc (by simp)
    · obtain rfl := Option.some.inj hs
      exact hlocal rfl le_rfl fun hpc => absurd hpc (by simp)
    · obtain rfl := Option.some.inj hs
      exact hlocal rfl (Nat.le_succ _) fun hpc => absurd hpc (by simp)
    · exact absurd hs (by simp)

/-- What the consumers were given. -/
def Test.gotten (s : Test π κ) : Multiset Element := ∑ c, ((s.consumers c).got : Multiset Element)

/-- `consumed_sum` in `main`, after the threads were joined. -/
def Test.consumedSum (s : Test π κ) : ComplexUint64 := ∑ c, (s.consumers c).result

/-- `expected_sum` in `main`. -/
def expectedSum (n : ℕ) (values : ℕ → Region) : ComplexUint64 :=
  ∑ i ∈ Finset.range n, complexOfElement (valueElement values i)

/-- The elements to be sent. -/
def allValues (n : ℕ) (values : ℕ → Region) : Multiset Element :=
  (Multiset.range n).map (valueElement values)

/-- No value that was claimed is lost: each is owed by one producer, or in the memory of the queue, or
in the hand of one consumer, or was consumed. -/
structure Test.Conserved (n : ℕ) (values : ℕ → Region) (s : Test π κ) : Prop where
  claimed : (s.sys.history.pushed : Multiset Element) + total (owed n values) s.producing =
    (Multiset.range (min s.vindex n)).map (valueElement values)
  window : ∃ w, s.sys.Window w
  queued : ∀ w, s.sys.Window w → s.sys.history.pushed = s.sys.history.taken ++ s.sys.contents w
  taken : (s.sys.history.taken : Multiset Element) = s.gotten + total inHand s.consuming

namespace Test.Inv

omit [DecidableEq π] [DecidableEq κ] in
theorem conserved (h : Inv n values s) : s.Conserved n values := by
  obtain ⟨V, hV⟩ := h.queue
  refine ⟨h.claimed, hV.exists_window, fun w hw => ?_, ?_⟩
  · rw [hV.contents_eq hw]
    exact hV.history
  · rw [h.taken]
    exact total_add

omit [DecidableEq π] [DecidableEq κ] in
theorem gotten_le (h : Inv n values s) : s.gotten ≤ allValues n values := by
  obtain ⟨hclaimed, ⟨w, hw⟩, hqueued, htaken⟩ := h.conserved
  calc s.gotten ≤ ↑s.sys.history.taken := htaken ▸ Multiset.le_add_right _ _
    _ ≤ ↑s.sys.history.pushed := by
      rw [hqueued w hw, ← Multiset.coe_add]
      exact Multiset.le_add_right _ _
    _ ≤ (Multiset.range (min s.vindex n)).map (valueElement values) :=
      hclaimed ▸ Multiset.le_add_right _ _
    _ ≤ allValues n values :=
      Multiset.map_le_map (Multiset.range_le.mpr (min_le_right _ _))

omit [DecidableEq π] [DecidableEq κ] [Fintype π] in
theorem card_gotten (s : Test π κ) :
    s.gotten.card = total (fun x => x.1.got.length) s.consuming := by
  unfold gotten
  rw [Multiset.card_sum]
  rfl

omit [DecidableEq π] [DecidableEq κ] in
theorem consumedCount_le (h : Inv n values s) : s.consumedCount ≤ s.gotten.card := by
  rw [card_gotten, ← h.consumed]
  exact Nat.le_add_right _ _

omit [DecidableEq π] [DecidableEq κ] in
theorem consumedSum_eq (h : Inv n values s) :
    s.consumedSum = (s.gotten.map complexOfElement).sum := by
  have hsum : ∀ c, (s.consumers c).result =
      (((s.consumers c).got : Multiset Element).map complexOfElement).sum := fun c =>
    (h.consumers c).1
  unfold consumedSum gotten
  rw [Finset.sum_congr rfl fun c _ => hsum c]
  exact total_map (f := fun q : Consumer => (q.got : Multiset Element))
    (Multiset.sumAddMonoidHom.comp (Multiset.mapAddMonoidHom complexOfElement))

omit [DecidableEq π] [DecidableEq κ] [Fintype π] [Fintype κ] in
theorem card_allValues : (allValues n values).card = n := by
  rw [allValues, Multiset.card_map, Multiset.card_range]

omit [DecidableEq π] [DecidableEq κ] in
/-- Once all values are counted, each was consumed once. -/
theorem sums_of_counted (h : Inv n values s) (hge : n ≤ s.consumedCount) :
    s.gotten = allValues n values ∧ s.consumedSum = expectedSum n values := by
  have heq : s.gotten = allValues n values := Multiset.eq_of_le_of_card_le h.gotten_le
    (card_allValues.trans_le (hge.trans h.consumedCount_le))
  refine ⟨heq, ?_⟩
  rw [h.consumedSum_eq, heq, allValues, Multiset.map_map]
  rfl

end Test.Inv

variable {heap : Heap} {initialCapacity : ℕ} {block : Option (ℕ × Region)} {m : Shared} {max : ℕ}

omit [DecidableEq π] [DecidableEq κ] in
theorem start_test (hinit : cyclicQueueInit heap sizeofComplexUint64 initialCapacity block = .ok m)
    (hcap : m.queue.capacity ≤ max) (hmax : max ≤ cyclicQueueMaxCapacity) (nextVal : κ → Region) :
    Test.Inv n values (Test.start (m.setMaxCapacity max) nextVal : Test π κ) where
  queue := start_inv hinit hcap hmax
  elementSize := by
    obtain ⟨c, addr, data, -, -, -, -, rfl⟩ := of_cyclicQueueInit hinit
    rfl
  producers p := ⟨fun he => absurd he (by simp [Test.producing, Test.start, Producer.start]), rfl⟩
  consumers c := ⟨rfl, rfl⟩
  claimed := by
    have howed : total (owed n values) (Test.start (m.setMaxCapacity max) nextVal :
        Test π κ).producing = 0 := total_zero fun p => rfl
    rw [howed]
    simp [Test.start, Sys.start]
  taken := (total_zero fun c => rfl).symm
  vindex := Nat.zero_le _
  consumed := by
    have hun : total uncounted (Test.start (m.setMaxCapacity max) nextVal :
        Test π κ).consuming = 0 := total_zero fun c => rfl
    rw [hun, total_zero (f := fun x : Consumer × Option Op => x.1.got.length) fun c => rfl]
    rfl

/-- **Every value is consumed exactly once**: whatever the number of producers and consumers and
their interleaving, growths and failed pushes included, no value is lost, doubled or invented (the
values claimed are those owed, in the queue, in a hand or consumed), the counters stay in range, and
when the consumers have returned the two sums that `main` compares are equal: the test never aborts. -/
theorem testCyclicQueue_exactlyOnce [Nonempty κ]
    (hinit : cyclicQueueInit heap sizeofComplexUint64 initialCapacity block = .ok m)
    (hcap : m.queue.capacity ≤ max) (hmax : max ≤ cyclicQueueMaxCapacity) (nextVal : κ → Region)
    (es : List (TestEvent π κ)) (s : Test π κ)
    (hrun : Run.run (Test.step n values) (Test.start (m.setMaxCapacity max) nextVal) es = some s) :
    s.Conserved n values ∧ s.gotten ≤ allValues n values ∧ s.consumedCount ≤ n ∧
      s.vindex ≤ n + Fintype.card π ∧
      ((∀ c, (s.consumers c).pc = .done) →
        s.gotten = allValues n values ∧ s.consumedSum = expectedSum n values) := by
  obtain ⟨h, hdone⟩ : Test.Inv n values s ∧ s.DoneOk n := by
    refine Run.run_invariant (fun _ => True) (fun s => Test.Inv n values s ∧ s.DoneOk n)
      ⟨start_test hinit hcap hmax nextVal, fun c hc => absurd hc (by simp [Test.start, Consumer.start])⟩
      ?_ (fun _ _ => trivial) hrun
    rintro s e s' - ⟨h, hdone⟩ hs
    exact ⟨h.step hs, hdone.step hs⟩
  have hcard : s.gotten.card ≤ n :=
    (Test.Inv.card_allValues : (allValues n values).card = n) ▸ Multiset.card_le_card h.gotten_le
  refine ⟨h.conserved, h.gotten_le, h.consumedCount_le.trans hcard, ?_, fun hall => ?_⟩
  · have hover : total (overrun n) s.producing ≤ Fintype.card π := by
      refine (Finset.sum_le_card_nsmul _ _ 1 fun p _ => ?_).trans (by simp)
      unfold overrun
      split
      · split_ifs <;> omega
      · exact le_rfl
      · exact Nat.zero_le 1
    exact h.vindex.trans (Nat.add_le_add_left hover n)
  · obtain ⟨c⟩ := ‹Nonempty κ›
    exact h.sums_of_counted (hdone c (hall c))

end Invariant

/-- An empty queue for the numbers of the test. -/
def complexQueue : Shared :=
  ⟨⟨1, 16, 0x40, 0x40000, 0, 0, 0⟩, Heap.alloc (fun _ => none) 1 0x400 fun _ => 0⟩

/-- One producer sends one value and finds no other one, one consumer takes it and returns. -/
def sendOne : List (TestEvent Unit Unit) :=
  .go :: List.replicate 36 (.producer () ⟨false, none⟩) ++
    List.replicate 31 (.consumer () ⟨false, none⟩)

theorem testCyclicQueue_exactlyOnce_sendOne : ∃ s : Test Unit Unit,
    Run.run (Test.step 1 fun _ k => k.toUInt8)
      (Test.start (complexQueue.setMaxCapacity 0x2000) fun _ _ => 0) sendOne = some s ∧
    s.gotten = allValues 1 fun _ k => k.toUInt8 := by
  have h : (Run.run (Test.step 1 fun _ k => k.toUInt8)
      (Test.start (complexQueue.setMaxCapacity 0x2000) fun _ _ => 0) sendOne).map
        (fun s => (s.consumers ()).pc) = some .done := by
    decide +kernel
  obtain ⟨s, hs, hdone⟩ := Option.map_eq_some_iff.mp h
  have hinit : cyclicQueueInit (fun _ => none) sizeofComplexUint64 0 (some (1, fun _ => 0)) =
      .ok complexQueue := rfl
  exact ⟨s, hs, ((testCyclicQueue_exactlyOnce hinit (by decide) (by decide) _ sendOne s hs).2.2.2.2
    fun _ => hdone).1⟩

end Cryptochan.Queue
