import Mathlib.Data.Fintype.Sum
import Cryptochan.Queue.Advance
import Cryptochan.Queue.Returns

/-!
# Cryptochan.Queue.Finish — the producers and consumers can always finish

From every state of `test_cyclic_queue.c` the scheduler leads all threads to their return, whatever
`malloc` answers (`testCyclicQueue_finishes`).  It goes in rounds: first the calls in progress
return, one unhindered call after the other, then one thread is run until an element was pushed,
taken or counted, or until it returns.
-/

namespace Cryptochan.Queue

variable {π κ : Type} [DecidableEq π] [DecidableEq κ]

/-! ### Statement -/

/-- Who is scheduled: `main`, which sets `stage`, or a thread. -/
inductive Turn (π κ : Type)
  | go
  | thread (t : π ⊕ κ)

/-- The step of the one who is scheduled; no compare-exchange fails spuriously. -/
def Test.turn (n : ℕ) (values : ℕ → Region) (s : Test π κ) : Turn π κ → Malloc → Option (Test π κ)
  | .go, _ => s.step n values .go
  | .thread (.inl p), malloc => s.step n values (.producer p (malloc.answer s.sys.shared))
  | .thread (.inr c), malloc => s.step n values (.consumer c (malloc.answer s.sys.shared))

/-- All threads have returned, every value was consumed once, and `main` finds the sums equal. -/
structure Test.Finished [Fintype κ] (n : ℕ) (values : ℕ → Region) (s : Test π κ) : Prop where
  producers : ∀ p, (s.producers p).pc = .done
  consumers : ∀ c, (s.consumers c).pc = .done
  gotten : s.gotten = allValues n values
  sums : s.consumedSum = expectedSum n values

variable {n : ℕ} {values : ℕ → Region} {s s' : Test π κ} {p : π} {c : κ} [Fintype π] [Fintype κ]

/-! ### Calls in progress -/

section Rounds

variable {t : π ⊕ κ}

omit [Fintype π] [Fintype κ] in
theorem Test.of_turn {w : Turn π κ} {malloc : Malloc} (hs : s.turn n values w malloc = some s') :
    ∃ e, s.step n values e = some s' := by
  match w with
  | .go => exact ⟨_, by simpa only [Test.turn] using hs⟩
  | .thread (.inl p) => exact ⟨_, by simpa only [Test.turn] using hs⟩
  | .thread (.inr c) => exact ⟨_, by simpa only [Test.turn] using hs⟩

omit [Fintype π] [Fintype κ] in
theorem Test.turn_advances {w : Turn π κ} {malloc : Malloc}
    (hs : s.turn n values w malloc = some s') : s.Advances s' := by
  obtain ⟨e, he⟩ := Test.of_turn hs
  exact Test.step_advances he

theorem Test.Sound.turn (h : s.Sound n values) {w : Turn π κ} {malloc : Malloc}
    (hs : s.turn n values w malloc = some s') : s'.Sound n values := by
  obtain ⟨e, he⟩ := Test.of_turn hs
  exact h.step he

/-- The turn of a thread in a call is a step of its call. -/
theorem Test.Sound.turn_in_call (h : s.Sound n values) (hin : (s.sys.calls t).isSome)
    (malloc : Malloc) : ∃ s', s.turn n values (.thread t) malloc = some s' ∧
      s.sys.step (.step t (malloc.answer s.sys.shared)) = some s'.sys := by
  obtain ⟨sys, hsys⟩ := exists_step_answer malloc hin
  cases t with
  | inl p =>
    have hok := (h.inv.producers p).2
    have hpc : (s.producers p).pc = .pushing := by
      simp only [Test.producing] at hok
      cases hpc : (s.producers p).pc with
      | pushing => rfl
      | test | stage =>
        rw [hpc] at hok
        rw [hok] at hin
        exact absurd hin (by simp)
      | _ =>
        rw [hpc] at hok
        simp [hok] at hin
    refine ⟨{ s with sys := sys }.setProducer p
      ((s.producers p).afterPush (s.sys.returns (.inl p) (malloc.answer s.sys.shared))), ?_, hsys⟩
    simp only [Test.turn, Test.step, Test.producerStep, hpc, hsys, Option.map_some]
  | inr c =>
    have hok := (h.inv.consumers c).2
    have hpc : (s.consumers c).pc = .taking := by
      simp only [Test.consuming] at hok
      cases hpc : (s.consumers c).pc with
      | taking => rfl
      | _ =>
        rw [hpc] at hok
        rw [hok] at hin
        exact absurd hin (by simp)
    refine ⟨{ s with sys := sys }.setConsumer c
      ((s.consumers c).afterTake (s.sys.returns (.inr c) (malloc.answer s.sys.shared))), ?_, hsys⟩
    simp only [Test.turn, Test.step, Test.consumerStep, hpc, hsys, Option.map_some]

/-- A call that nothing hinders returns when its thread is run. -/
theorem Test.Sound.returns_alone (h : s.Sound n values) (hun : s.sys.Unhindered t) :
    Run.Forces (Test.turn n values) (fun s' => s'.Sound n values ∧ s.Advances s' ∧
      s'.sys.calls t = none ∧ ∀ u, u ≠ t → s'.sys.calls u = s.sys.calls u) s := by
  refine Run.forces_of_descent Nat.lt_wfRel.wf
    (fun s1 => s1.Sound n values ∧ s.Advances s1 ∧ (∀ u, u ≠ t → s1.sys.calls u = s.sys.calls u) ∧
      ((s1.sys.calls t).isSome → s1.sys.Unhindered t)) _
    (fun s1 => toReturn s1.sys.shared (s1.sys.calls t)) ?_
    ⟨h, .refl s, fun _ _ => rfl, fun _ => hun⟩
  rintro s1 ⟨h1, hadv, hothers, hun1⟩ hnot
  have hin1 : (s1.sys.calls t).isSome := by
    by_contra hnone
    exact hnot ⟨h1, hadv, by simpa using hnone, hothers⟩
  refine ⟨.thread t, fun malloc => ?_⟩
  obtain ⟨s2, hs, hsys⟩ := h1.turn_in_call hin1 malloc
  obtain ⟨V, hV⟩ := h1.inv.queue
  refine ⟨s2, hs, ⟨h1.turn hs, hadv.trans (Test.turn_advances hs), fun u hne => ?_,
    (hun1 hin1).step hsys⟩, step_toReturn hin1 (hV.not_spins (hun1 hin1)) rfl hsys⟩
  rw [Sys.step_calls_of_ne hsys hne]
  exact hothers u hne

/-- All calls in progress return, one after the other. -/
theorem Test.Sound.all_return (h : s.Sound n values) :
    Run.Forces (Test.turn n values) (fun s' => (s'.Sound n values ∧ s.Advances s') ∧
      ∀ t, s'.sys.calls t = none) s := by
  refine Run.forces_of_rounds (fun s1 => s1.Sound n values ∧ s.Advances s1) _
    (fun s1 => Tally.left (fun c : Option Op => c.isNone) s1.sys.calls) ?_ ⟨h, .refl s⟩
  rintro s1 ⟨h1, hadv⟩ hnot
  obtain ⟨t, ht⟩ := not_forall.mp fun hnone => hnot ⟨⟨h1, hadv⟩, hnone⟩
  obtain ⟨V, hV⟩ := h1.inv.queue
  obtain ⟨u, hin, hun⟩ := hV.exists_unhindered (Option.isSome_iff_ne_none.mpr ht)
  refine (h1.returns_alone hun).trans ?_
  rintro s2 ⟨h2, hadv2, hnone, hothers⟩
  refine .now ⟨⟨h2, hadv.trans hadv2⟩, Or.inr (Tally.left_lt _ (t := u) (fun v hv => ?_) ?_ ?_)⟩
  · rcases eq_or_ne v u with rfl | hne
    · simp [hnone]
    · rwa [hothers v hne]
  · simpa using Option.isSome_iff_ne_none.mp hin
  · simp [hnone]

end Rounds

/-! ### One thread at work -/

section Alone

variable {t : π ⊕ κ}

omit [Fintype π] [Fintype κ] in
theorem Test.turn_calls_of_ne {malloc : Malloc} {u : π ⊕ κ}
    (hs : s.turn n values (.thread t) malloc = some s') (hne : u ≠ t) :
    s'.sys.calls u = s.sys.calls u := by
  have hsys : s'.sys = s.sys ∨ ∃ e, e.thread = t ∧ s.sys.step e = some s'.sys := by
    match t with
    | .inl p =>
      obtain ⟨-, -, -, -, -, -, hsys⟩ := Test.of_producerStep (p := p) hs
      exact hsys
    | .inr c =>
      obtain ⟨-, -, -, -, -, -, hsys⟩ := Test.of_consumerStep (c := c) hs
      exact hsys
  rcases hsys with he | ⟨e, rfl, he⟩
  · rw [he]
  · exact Sys.step_calls_of_ne he hne

/-- A thread alone whose rank goes down until something of what is left was done. -/
theorem Test.Sound.progresses_alone (Can : Test π κ → Prop) (rank : Test π κ → ℕ)
    (hstep : ∀ s : Test π κ, s.Sound n values → 1 ≤ s.stage →
      (∀ u, u ≠ t → s.sys.calls u = none) → Can s → ∀ malloc, ∃ s',
        s.turn n values (.thread t) malloc = some s' ∧
          (s.Progresses s' ∨ Can s' ∧ rank s' < rank s))
    (h : s.Sound n values) (hstage : 1 ≤ s.stage)
    (hothers : ∀ u, u ≠ t → s.sys.calls u = none) (hcan : Can s) :
    Run.Forces (Test.turn n values) (fun s' => s'.Sound n values ∧ s'.todo n < s.todo n) s := by
  induction hr : rank s using Nat.strongRecOn generalizing s with
  | ind r ih =>
    choose next hnext hor using hstep s h hstage hothers hcan
    refine .later (.thread t) next hnext fun malloc => ?_
    have hadv := Test.turn_advances (hnext malloc)
    have hsound := h.turn (hnext malloc)
    rcases hor malloc with hmore | ⟨hcan', hlt⟩
    · exact .now ⟨hsound, hadv.todo_lt hsound.inv hmore⟩
    · have hothers' : ∀ u, u ≠ t → (next malloc).sys.calls u = none := fun u hne =>
        (Test.turn_calls_of_ne (hnext malloc) hne).trans (hothers u hne)
      refine (ih _ (hr ▸ hlt) hsound (hadv.stage hstage) hothers' hcan' rfl).trans ?_
      rintro s2 ⟨h2, hlt2⟩
      exact .now ⟨h2, hlt2.trans_le hadv.todo_le⟩

omit [Fintype π] [Fintype κ] in
theorem exists_invoke {sys : Sys (π ⊕ κ)} (hnone : sys.calls t = none) (op : Op) :
    ∃ sys', sys.invoke t op = some sys' ∧ sys'.shared = sys.shared ∧ sys'.calls t = some op :=
  ⟨{ sys with calls := Function.update sys.calls t (some op) },
    if_pos (by rw [hnone]; rfl), rfl, Function.update_self _ _ _⟩

/-! ### A consumer -/

/-- A consumer that can count an element or return: there is one for it to take, or it has one, or
all were counted. -/
def Test.ConsumerCan (n : ℕ) (c : κ) (s : Test π κ) : Prop :=
  (s.consumers c).pc ≠ .done ∧ (n ≤ s.consumedCount ∨ match (s.consumers c).pc with
    | .test | .stage | .take => 0 < s.sys.queue.size
    | .taking => ∀ dest pc, s.sys.calls (.inr c) = some (.take dest pc) → pc.Sure s.sys.shared
    | _ => True)

/-- How far it is from that when it is alone. -/
def Test.consumerRank (n : ℕ) (c : κ) (s : Test π κ) : ℕ :=
  match (s.consumers c).pc with
  | .test => if s.consumedCount < n then 16 + s.sys.queue.elementSize else 0
  | .stage => 15 + s.sys.queue.elementSize
  | .take => 14 + s.sys.queue.elementSize
  | .taking => 3 + toReturn s.sys.shared (s.sys.calls (.inr c))
  | .add => 2
  | .count => 1
  | .done => 0

/-- Its turn does something of what is left, or comes nearer to that. -/
def Test.ConsumerTurns (n : ℕ) (values : ℕ → Region) (s : Test π κ) (c : κ) (malloc : Malloc) :
    Prop :=
  ∃ s', s.turn n values (.thread (.inr c)) malloc = some s' ∧
    (s.Progresses s' ∨ s'.ConsumerCan n c ∧ s'.consumerRank n c < s.consumerRank n c)

omit [DecidableEq π] [Fintype π] [Fintype κ] in
@[simp] theorem Test.consumers_setConsumer (s : Test π κ) (q : Consumer) :
    (s.setConsumer c q).consumers c = q := Function.update_self _ _ _

omit [Fintype π] [Fintype κ] in
/-- When all was counted, the consumer leaves, which is something done. -/
theorem Test.consumer_test (hpc : (s.consumers c).pc = .test) (hcan : s.ConsumerCan n c)
    (malloc : Malloc) : s.ConsumerTurns n values c malloc := by
  refine ⟨_, by simp only [Test.turn, Test.step, Test.consumerStep, hpc]; rfl, ?_⟩
  obtain ⟨-, hcan⟩ := hcan
  rw [hpc] at hcan
  rcases Nat.lt_or_ge s.consumedCount n with hlt | hge
  · refine Or.inr ⟨⟨?_, Or.inr ?_⟩, ?_⟩
    · simp [hlt]
    · simp only [Test.consumers_setConsumer, if_pos hlt]
      exact hcan.resolve_left (not_le.mpr hlt)
    · simp only [Test.consumerRank, Test.consumers_setConsumer, hpc, if_pos hlt]
      show 15 + s.sys.queue.elementSize < 16 + s.sys.queue.elementSize
      omega
  · refine Or.inl ?_
    refine Or.inr (Or.inr (Or.inr (Or.inr (Or.inr ⟨c, by simp [hpc], ?_⟩))))
    simp [not_lt.mpr hge]

omit [Fintype π] [Fintype κ] in
theorem Test.consumer_stage (hstage : 1 ≤ s.stage) (hpc : (s.consumers c).pc = .stage)
    (hcan : s.ConsumerCan n c) (malloc : Malloc) : s.ConsumerTurns n values c malloc := by
  refine ⟨_, by simp only [Test.turn, Test.step, Test.consumerStep, hpc]; rfl,
    Or.inr ⟨⟨?_, ?_⟩, ?_⟩⟩
  · simp [not_lt.mpr hstage]
  · obtain ⟨-, hcan⟩ := hcan
    rw [hpc] at hcan
    simp only [Test.consumers_setConsumer, if_neg (not_lt.mpr hstage)]
    exact hcan
  · simp only [Test.consumerRank, Test.consumers_setConsumer, hpc, if_neg (not_lt.mpr hstage)]
    show 14 + s.sys.queue.elementSize < 15 + s.sys.queue.elementSize
    omega

/-- The take is started, and is sure to find an element unless all was counted. -/
theorem Test.Sound.consumer_take (h : s.Sound n values) (hpc : (s.consumers c).pc = .take)
    (hcan : s.ConsumerCan n c) (malloc : Malloc) : s.ConsumerTurns n values c malloc := by
  have hok := (h.inv.consumers c).2
  simp only [Test.consuming, hpc] at hok
  obtain ⟨sys, hsys, hshared, hop⟩ := exists_invoke hok (.take (s.consumers c).nextVal .loadSize)
  refine ⟨{ s with sys := sys }.setConsumer c { s.consumers c with pc := .taking },
    by simp only [Test.turn, Test.step, Test.consumerStep, hpc, Sys.step, hsys, Option.map_some],
    Or.inr ⟨⟨?_, ?_⟩, ?_⟩⟩
  · simp
  · obtain ⟨-, hcan⟩ := hcan
    rw [hpc] at hcan
    refine hcan.imp_right fun hsize => ?_
    simp only [Test.consumers_setConsumer]
    intro dest pc hop'
    obtain ⟨-, rfl⟩ := Op.take.inj (Option.some.inj (hop.symm.trans hop'))
    show 0 < sys.shared.queue.size
    rwa [hshared]
  · simp only [Test.consumerRank, Test.consumers_setConsumer, hpc]
    show 3 + toReturn sys.shared (sys.calls (.inr c)) < _
    rw [hop, hshared]
    show 3 + (10 + s.sys.queue.elementSize) < 14 + s.sys.queue.elementSize
    omega

theorem Test.Sound.consumer_taking (h : s.Sound n values) (hpc : (s.consumers c).pc = .taking)
    (hun : s.sys.Unhindered (.inr c)) (hcan : s.ConsumerCan n c) (malloc : Malloc) :
    s.ConsumerTurns n values c malloc := by
  obtain ⟨-, hcan⟩ := hcan
  rw [hpc] at hcan
  have hok := (h.inv.consumers c).2
  simp only [Test.consuming, hpc] at hok
  obtain ⟨dest, pc, hop⟩ := hok
  have hin : (s.sys.calls (.inr c)).isSome := by rw [hop]; rfl
  obtain ⟨V, hV⟩ := h.inv.queue
  obtain ⟨sys, hsys⟩ := exists_step_answer malloc hin
  have hlt := step_toReturn hin (hV.not_spins hun) rfl hsys
  obtain ⟨s', hturn, rfl, hq, hcount⟩ : ∃ s', s.turn n values (.thread (.inr c)) malloc = some s' ∧
      s'.sys = sys ∧ s'.consumers c = (s.consumers c).afterTake
        (s.sys.returns (.inr c) (malloc.answer s.sys.shared)) ∧
      s'.consumedCount = s.consumedCount :=
    ⟨{ s with sys := sys }.setConsumer c _,
      by simp only [Test.turn, Test.step, Test.consumerStep, hpc, hsys, Option.map_some], rfl,
      Function.update_self _ _ _, rfl⟩
  refine ⟨s', hturn, ?_⟩
  have hsure : n ≤ s.consumedCount ∨ s.sys.history.taken.length < s'.sys.history.taken.length ∨
      ∃ dest' pc', s'.sys.calls (.inr c) = some (.take dest' pc') ∧ pc'.Sure s'.sys.shared :=
    hcan.imp_right fun hsure => step_sure_take hop (hsure dest pc hop) hsys
  obtain ⟨-, -, ⟨dest', pc', hnone, hop', -⟩ | ⟨dest', hret, -, hop', -⟩⟩ := step_take hop hsys
  · -- the call goes on
    rw [hnone, Consumer.afterTake] at hq
    have hnot : (s'.consumers c).pc ≠ .done := by simp [hq, hpc]
    have hrank : s'.consumerRank n c < s.consumerRank n c := by
      simp only [Test.consumerRank, hq, hpc]
      exact Nat.add_lt_add_left hlt 3
    rcases hsure with hge | hmore | ⟨dest1, pc1, hop1, hsure1⟩
    · exact Or.inr ⟨⟨hnot, Or.inl (hcount ▸ hge)⟩, hrank⟩
    · exact Or.inl (Or.inr (Or.inr (Or.inl hmore)))
    · refine Or.inr ⟨⟨hnot, Or.inr ?_⟩, hrank⟩
      rw [hq, hpc]
      intro dest2 pc2 hop2
      obtain ⟨-, rfl⟩ := Op.take.inj (Option.some.inj (hop1.symm.trans hop2))
      exact hsure1
  · -- it returns: with an element, or all were counted
    rcases hsure with hge | hmore | ⟨dest1, pc1, hop1, -⟩
    · cases hc : pc.counted with
      | true =>
        have hpc' : (s'.consumers c).pc = .add := by
          rw [hq, hret, hc]
          rfl
        refine Or.inr ⟨⟨by simp [hpc'], Or.inl (hcount ▸ hge)⟩, ?_⟩
        simp only [Test.consumerRank, hpc', hpc]
        omega
      | false =>
        have hpc' : (s'.consumers c).pc = .test := by
          rw [hq, hret, hc]
          rfl
        refine Or.inr ⟨⟨by simp [hpc'], Or.inl (hcount ▸ hge)⟩, ?_⟩
        simp only [Test.consumerRank, hpc', hpc, hcount, if_neg (not_lt.mpr hge)]
        omega
    · exact Or.inl (Or.inr (Or.inr (Or.inl hmore)))
    · rw [hop'] at hop1
      exact absurd hop1 (by simp)

omit [Fintype π] [Fintype κ] in
theorem Test.consumer_add (hpc : (s.consumers c).pc = .add) (malloc : Malloc) :
    s.ConsumerTurns n values c malloc := by
  refine ⟨_, by simp only [Test.turn, Test.step, Test.consumerStep, hpc]; rfl,
    Or.inr ⟨⟨?_, ?_⟩, ?_⟩⟩
  · simp
  · simp
  · simp only [Test.consumerRank, Test.consumers_setConsumer, hpc]
    exact Nat.lt_succ_self 1

omit [Fintype π] [Fintype κ] in
/-- Counting an element is something done. -/
theorem Test.consumer_count (hpc : (s.consumers c).pc = .count) (malloc : Malloc) :
    s.ConsumerTurns n values c malloc :=
  ⟨_, by simp only [Test.turn, Test.step, Test.consumerStep, hpc]; rfl,
    Or.inl (Or.inr (Or.inr (Or.inr (Or.inl (Nat.lt_succ_self _)))))⟩

/-- A consumer alone comes to the end of what it can do. -/
theorem Test.Sound.consumer_turn (h : s.Sound n values) (hstage : 1 ≤ s.stage)
    (hothers : ∀ u, u ≠ .inr c → s.sys.calls u = none) (hcan : s.ConsumerCan n c)
    (malloc : Malloc) : s.ConsumerTurns n values c malloc := by
  cases hpc : (s.consumers c).pc with
  | test => exact Test.consumer_test hpc hcan malloc
  | stage => exact Test.consumer_stage hstage hpc hcan malloc
  | take => exact h.consumer_take hpc hcan malloc
  | taking =>
    exact h.consumer_taking hpc ⟨fun u hne => by simp [hothers u hne, OwnsTake],
      Or.inl fun u hne => by simp [hothers u hne, OwnsPush]⟩ hcan malloc
  | add => exact Test.consumer_add hpc malloc
  | count => exact Test.consumer_count hpc malloc
  | done => exact absurd hpc hcan.1

/-! ### A producer -/

/-- A producer that can push an element or return: there is room for an element. -/
def Test.ProducerCan (p : π) (s : Test π κ) : Prop :=
  match (s.producers p).pc with
  | .pushing => ∀ element pc,
      s.sys.calls (.inl p) = some (.push element pc) → pc.Sure s.sys.shared
  | .done => False
  | _ => s.sys.queue.size < s.sys.queue.capacity

/-- How far it is from that when it is alone. -/
def Test.producerRank (p : π) (s : Test π κ) : ℕ :=
  match (s.producers p).pc with
  | .test => 29 + s.sys.queue.elementSize + moveBound
  | .stage => 28 + s.sys.queue.elementSize + moveBound
  | .load => 26 + s.sys.queue.elementSize + moveBound
  | .cas => (if (s.vindex : ℤ) = (s.producers p).vidx then 25 else 27) +
      s.sys.queue.elementSize + moveBound
  | .bound => 24 + s.sys.queue.elementSize + moveBound
  | .push => 22 + s.sys.queue.elementSize + moveBound
  | .pushing => toReturn s.sys.shared (s.sys.calls (.inl p))
  | .done => 0

/-- Its turn does something of what is left, or comes nearer to that. -/
def Test.ProducerTurns (n : ℕ) (values : ℕ → Region) (s : Test π κ) (p : π) (malloc : Malloc) :
    Prop :=
  ∃ s', s.turn n values (.thread (.inl p)) malloc = some s' ∧
    (s.Progresses s' ∨ s'.ProducerCan p ∧ s'.producerRank p < s.producerRank p)

omit [DecidableEq κ] [Fintype π] [Fintype κ] in
@[simp] theorem Test.producers_setProducer (s : Test π κ) (q : Producer) :
    (s.setProducer p q).producers p = q := Function.update_self _ _ _

theorem Test.Sound.producer_test (h : s.Sound n values) (hpc : (s.producers p).pc = .test)
    (hcan : s.ProducerCan p) (malloc : Malloc) : s.ProducerTurns n values p malloc := by
  have hlt : (s.producers p).vidx < n := by
    have hwithin := h.within p
    unfold Producer.Within at hwithin
    rwa [hpc] at hwithin
  simp only [Test.ProducerCan, hpc] at hcan
  refine ⟨_, by simp only [Test.turn, Test.step, Test.producerStep, hpc]; rfl, Or.inr ⟨?_, ?_⟩⟩
  · simp only [Test.ProducerCan, Test.producers_setProducer, if_pos (Or.inl hlt)]
    exact hcan
  · simp only [Test.producerRank, Test.producers_setProducer, hpc, if_pos (Or.inl hlt)]
    show 28 + s.sys.queue.elementSize + moveBound < _
    omega

omit [Fintype π] [Fintype κ] in
/-- Behind the start, a cached index is pushed at once. -/
theorem Test.producer_stage (hstage : 1 ≤ s.stage) (hpc : (s.producers p).pc = .stage)
    (hcan : s.ProducerCan p) (malloc : Malloc) : s.ProducerTurns n values p malloc := by
  simp only [Test.ProducerCan, hpc] at hcan
  refine ⟨_, by simp only [Test.turn, Test.step, Test.producerStep, hpc]; rfl, Or.inr ⟨?_, ?_⟩⟩
  · simp only [Test.ProducerCan, Test.producers_setProducer, if_neg (not_lt.mpr hstage)]
    split_ifs <;> exact hcan
  · by_cases hcached : (s.producers p).cached = true
    · simp only [Test.producerRank, Test.producers_setProducer, hpc, if_neg (not_lt.mpr hstage),
        if_pos hcached]
      show 22 + s.sys.queue.elementSize + moveBound < _
      omega
    · simp only [Test.producerRank, Test.producers_setProducer, hpc, if_neg (not_lt.mpr hstage),
        if_neg hcached]
      show 26 + s.sys.queue.elementSize + moveBound < _
      omega

omit [Fintype π] [Fintype κ] in
theorem Test.producer_load (hpc : (s.producers p).pc = .load) (hcan : s.ProducerCan p)
    (malloc : Malloc) : s.ProducerTurns n values p malloc := by
  simp only [Test.ProducerCan, hpc] at hcan
  refine ⟨_, by simp only [Test.turn, Test.step, Test.producerStep, hpc]; rfl, Or.inr ⟨?_, ?_⟩⟩
  · simp only [Test.ProducerCan, Test.producers_setProducer]
    exact hcan
  · simp only [Test.producerRank, Test.producers_setProducer, hpc]
    show (if (s.vindex : ℤ) = s.vindex then 25 else 27) + s.sys.queue.elementSize + moveBound < _
    rw [if_pos rfl]
    omega

omit [Fintype π] [Fintype κ] in
/-- The compare-and-swap claims an index, or loads the one that it will find. -/
theorem Test.producer_cas (hpc : (s.producers p).pc = .cas) (hcan : s.ProducerCan p)
    (malloc : Malloc) : s.ProducerTurns n values p malloc := by
  simp only [Test.ProducerCan, hpc] at hcan
  by_cases hcas : (s.vindex : ℤ) = (s.producers p).vidx
  · refine ⟨_, by simp only [Test.turn, Test.step, Test.producerStep, hpc, Malloc.answer, hcas]; rfl,
      Or.inr ⟨?_, ?_⟩⟩
    · simp only [Test.ProducerCan, Test.producers_setProducer]
      exact hcan
    · simp only [Test.producerRank, Test.producers_setProducer, hpc, if_pos hcas]
      show 24 + s.sys.queue.elementSize + moveBound < _
      omega
  · refine ⟨_, by simp only [Test.turn, Test.step, Test.producerStep, hpc, Malloc.answer, hcas]; rfl,
      Or.inr ⟨?_, ?_⟩⟩
    · simp only [Test.ProducerCan, Test.producers_setProducer]
      exact hcan
    · simp only [Test.producerRank, Test.producers_setProducer, hpc, if_neg hcas]
      show 26 + s.sys.queue.elementSize + moveBound < _
      omega

omit [Fintype π] [Fintype κ] in
/-- An index that is too large ends the producer, which is something done. -/
theorem Test.producer_bound (hpc : (s.producers p).pc = .bound) (hcan : s.ProducerCan p)
    (malloc : Malloc) : s.ProducerTurns n values p malloc := by
  simp only [Test.ProducerCan, hpc] at hcan
  refine ⟨_, by simp only [Test.turn, Test.step, Test.producerStep, hpc]; rfl, ?_⟩
  by_cases hbound : (n : ℤ) ≤ (s.producers p).vidx
  · exact Or.inl (Or.inr (Or.inr (Or.inr (Or.inr (Or.inl
      ⟨p, by simp [hpc], by simp [hbound]⟩)))))
  · refine Or.inr ⟨?_, ?_⟩
    · simp only [Test.ProducerCan, Test.producers_setProducer, if_neg hbound]
      exact hcan
    · simp only [Test.producerRank, Test.producers_setProducer, hpc, if_neg hbound]
      show 22 + s.sys.queue.elementSize + moveBound < _
      omega

/-- The push is started, and is sure to find room. -/
theorem Test.Sound.producer_push (h : s.Sound n values) (hpc : (s.producers p).pc = .push)
    (hcan : s.ProducerCan p) (malloc : Malloc) : s.ProducerTurns n values p malloc := by
  have hok := (h.inv.producers p).2
  simp only [Test.producing, hpc] at hok
  simp only [Test.ProducerCan, hpc] at hcan
  obtain ⟨sys, hsys, hshared, hop⟩ :=
    exists_invoke hok.2 (.push (values (s.producers p).vidx.toNat) .lockPushLoad)
  refine ⟨{ s with sys := sys }.setProducer p { s.producers p with pc := .pushing },
    by simp only [Test.turn, Test.step, Test.producerStep, hpc, Sys.step, hsys, Option.map_some],
    Or.inr ⟨?_, ?_⟩⟩
  · simp only [Test.ProducerCan, Test.producers_setProducer]
    intro element pc hop'
    obtain ⟨-, rfl⟩ := Op.push.inj (Option.some.inj (hop.symm.trans hop'))
    show sys.shared.queue.size < sys.shared.queue.capacity
    rwa [hshared]
  · simp only [Test.producerRank, Test.producers_setProducer, hpc]
    show toReturn sys.shared (sys.calls (.inl p)) < _
    rw [hop, hshared]
    show 21 + s.sys.queue.elementSize + moveBound < _
    omega

theorem Test.Sound.producer_pushing (h : s.Sound n values) (hpc : (s.producers p).pc = .pushing)
    (hun : s.sys.Unhindered (.inl p)) (hcan : s.ProducerCan p) (malloc : Malloc) :
    s.ProducerTurns n values p malloc := by
  unfold Test.ProducerCan at hcan
  rw [hpc] at hcan
  have hok := (h.inv.producers p).2
  simp only [Test.producing, hpc] at hok
  obtain ⟨-, pc, hop⟩ := hok
  have hin : (s.sys.calls (.inl p)).isSome := by rw [hop]; rfl
  obtain ⟨V, hV⟩ := h.inv.queue
  obtain ⟨sys, hsys⟩ := exists_step_answer malloc hin
  have hlt := step_toReturn hin (hV.not_spins hun) rfl hsys
  obtain ⟨s', hturn, rfl, hq⟩ : ∃ s', s.turn n values (.thread (.inl p)) malloc = some s' ∧
      s'.sys = sys ∧ s'.producers p = (s.producers p).afterPush
        (s.sys.returns (.inl p) (malloc.answer s.sys.shared)) :=
    ⟨{ s with sys := sys }.setProducer p _,
      by simp only [Test.turn, Test.step, Test.producerStep, hpc, hsys, Option.map_some], rfl,
      Function.update_self _ _ _⟩
  refine ⟨s', hturn, ?_⟩
  rcases step_sure_push hop (hcan _ _ hop) hsys with hmore | ⟨pc1, hop1, hsure1⟩
  · exact Or.inl (Or.inr (Or.inl hmore))
  · obtain ⟨-, -, ⟨pc', hnone, -, -⟩ | ⟨-, hop', -⟩⟩ := step_push hop hsys
    · rw [hnone, Producer.afterPush] at hq
      refine Or.inr ⟨?_, ?_⟩
      · unfold Test.ProducerCan
        rw [hq, hpc]
        intro element2 pc2 hop2
        obtain ⟨-, rfl⟩ := Op.push.inj (Option.some.inj (hop1.symm.trans hop2))
        exact hsure1
      · simp only [Test.producerRank, hq, hpc]
        exact hlt
    · rw [hop'] at hop1
      exact absurd hop1 (by simp)

/-- A producer alone comes to the end of what it can do. -/
theorem Test.Sound.producer_turn (h : s.Sound n values) (hstage : 1 ≤ s.stage)
    (hothers : ∀ u, u ≠ .inl p → s.sys.calls u = none) (hcan : s.ProducerCan p)
    (malloc : Malloc) : s.ProducerTurns n values p malloc := by
  cases hpc : (s.producers p).pc with
  | test => exact h.producer_test hpc hcan malloc
  | stage => exact Test.producer_stage hstage hpc hcan malloc
  | load => exact Test.producer_load hpc hcan malloc
  | cas => exact Test.producer_cas hpc hcan malloc
  | bound => exact Test.producer_bound hpc hcan malloc
  | push => exact h.producer_push hpc hcan malloc
  | pushing =>
    exact h.producer_pushing hpc ⟨fun u hne => by simp [hothers u hne, OwnsTake],
      Or.inl fun u hne => by simp [hothers u hne, OwnsPush]⟩ hcan malloc
  | done =>
    simp only [Test.ProducerCan, hpc] at hcan

/-! ### Rounds -/

omit [DecidableEq π] [DecidableEq κ] [Fintype π] [Fintype κ] in
/-- A consumer outside a call that can do nothing waits at an empty queue. -/
theorem Test.empty_of_not_can (hnone : s.sys.calls (.inr c) = none)
    (hdone : (s.consumers c).pc ≠ .done) (hnot : ¬ s.ConsumerCan n c) :
    s.consumedCount < n ∧ s.sys.queue.size = 0 ∧ (s.consumers c).pc ≠ .add ∧
      (s.consumers c).pc ≠ .count := by
  have hlt : s.consumedCount < n := by
    by_contra hge
    exact hnot ⟨hdone, Or.inl (not_lt.mp hge)⟩
  have hnot' : ¬ _ := fun hcan => hnot ⟨hdone, Or.inr hcan⟩
  refine ⟨hlt, ?_⟩
  cases hpc : (s.consumers c).pc with
  | test | stage | take =>
    rw [hpc] at hnot'
    exact ⟨Nat.eq_zero_of_not_pos hnot', by simp, by simp⟩
  | taking =>
    rw [hpc] at hnot'
    exact absurd (fun dest pc hop => absurd (hnone.symm.trans hop) (by simp)) hnot'
  | add | count =>
    rw [hpc] at hnot'
    exact absurd trivial hnot'
  | done => exact absurd hpc hdone

omit [DecidableEq π] [DecidableEq κ] in
/-- When the producers are done and nothing is left in the queue or in a hand, all was counted. -/
theorem Test.Sound.counted_of_quiet [Nonempty π] (h : s.Sound n values)
    (hnone : ∀ t, s.sys.calls t = none) (hprod : ∀ p, (s.producers p).pc = .done)
    (hsize : s.sys.queue.size = 0)
    (hcons : ∀ c, (s.consumers c).pc ≠ .add ∧ (s.consumers c).pc ≠ .count) :
    n ≤ s.consumedCount := by
  obtain ⟨p⟩ := ‹Nonempty π›
  have hvindex : n ≤ s.vindex := by
    have hwithin := h.within p
    unfold Producer.Within at hwithin
    rwa [hprod p] at hwithin
  have howed : Tally.total (owed n values) s.producing = 0 := Tally.total_zero fun p => by
    have hok := (h.inv.producers p).2
    simp only [Test.producing, hprod p] at hok
    simp [owed, Test.producing, hprod p, hok.1]
  have hhand : Tally.total inHand s.consuming = 0 := Tally.total_zero fun c => by
    unfold inHand
    split
    · rw [Test.consuming, hnone]
      rfl
    · rename_i hadd
      exact absurd hadd (hcons c).1
    · rfl
  have huncounted : Tally.total uncounted s.consuming = 0 := Tally.total_zero fun c =>
    if_neg (hcons c).2
  have hpushed := congrArg Multiset.card h.inv.claimed
  rw [howed, add_zero, min_eq_right hvindex, Multiset.coe_card, Multiset.card_map,
    Multiset.card_range] at hpushed
  have hheld : Tally.total held s.consuming = s.gotten + Tally.total inHand s.consuming :=
    Tally.total_add
  have htaken := congrArg Multiset.card (h.inv.taken.trans hheld)
  rw [hhand, add_zero, Multiset.coe_card, Test.Inv.card_gotten, ← h.inv.consumed, huncounted]
    at htaken
  have heq := h.inv.pushed_eq
  omega

/-- When no call is in progress, one thread alone does something of what is left, if there is. -/
theorem Test.Sound.quiet_round [Nonempty π] [Nonempty κ] (h : s.Sound n values)
    (hstage : 1 ≤ s.stage) (hnone : ∀ t, s.sys.calls t = none) (hnot : ¬ s.Finished n values) :
    Run.Forces (Test.turn n values) (fun s' => s'.Sound n values ∧ s'.todo n < s.todo n) s := by
  by_cases hc : ∃ c, s.ConsumerCan n c
  · obtain ⟨c, hcan⟩ := hc
    exact h.progresses_alone (t := .inr c) (Test.ConsumerCan n c) (Test.consumerRank n c)
      (fun s1 h1 hst hothers hcan1 => h1.consumer_turn hst hothers hcan1) hstage
      (fun u _ => hnone u) hcan
  have hempty : s.sys.queue.size = 0 := by
    obtain ⟨c⟩ := ‹Nonempty κ›
    by_cases hdone : (s.consumers c).pc = .done
    · exact h.inv.size_of_counted (h.doneOk c hdone)
    · exact (Test.empty_of_not_can (hnone _) hdone fun hcan => hc ⟨c, hcan⟩).2.1
  by_cases hp : ∃ p, (s.producers p).pc ≠ .done
  · obtain ⟨p, hdone⟩ := hp
    have hcan : s.ProducerCan p := by
      obtain ⟨V, hV⟩ := h.inv.queue
      have hroom : s.sys.queue.size < s.sys.queue.capacity := hempty ▸ hV.stored.capPos
      unfold Test.ProducerCan
      split
      · intro element pc hop
        exact absurd ((hnone _).symm.trans hop) (by simp)
      · rename_i hpc
        exact hdone hpc
      · exact hroom
    exact h.progresses_alone (t := .inl p) (Test.ProducerCan p) (Test.producerRank p)
      (fun s1 h1 hst hothers hcan1 => h1.producer_turn hst hothers hcan1) hstage
      (fun u _ => hnone u) hcan
  · exfalso
    have hprod : ∀ p, (s.producers p).pc = .done := fun p => not_not.mp fun hdone => hp ⟨p, hdone⟩
    have hcons : ∀ c, (s.consumers c).pc = .done := by
      by_contra hsome
      obtain ⟨c, hdone⟩ := not_forall.mp hsome
      have hlt := (Test.empty_of_not_can (hnone _) hdone fun hcan => hc ⟨c, hcan⟩).1
      refine absurd (h.counted_of_quiet hnone hprod hempty fun c' => ?_) (not_le.mpr hlt)
      by_cases hdone' : (s.consumers c').pc = .done
      · simp [hdone']
      · exact (Test.empty_of_not_can (hnone _) hdone' fun hcan => hc ⟨c', hcan⟩).2.2
    obtain ⟨c⟩ := ‹Nonempty κ›
    obtain ⟨hgotten, hsums⟩ := h.inv.sums_of_counted (h.doneOk c (hcons c))
    exact hnot ⟨hprod, hcons, hgotten, hsums⟩

end Alone

variable {heap : Heap} {initialCapacity : ℕ} {block : Option (ℕ × Region)} {m : Shared} {max : ℕ}

/-- **The test can always be brought to its end**: from every state that the producers and consumers
can come to, growths, failed pushes and spurious failures included, the scheduler leads all of them to
their return, with every value consumed once, whatever `malloc` answers from then on. -/
theorem testCyclicQueue_finishes [Nonempty π] [Nonempty κ]
    (hinit : cyclicQueueInit heap sizeofComplexUint64 initialCapacity block = .ok m)
    (hcap : m.queue.capacity ≤ max) (hmax : max ≤ cyclicQueueMaxCapacity) (nextVal : κ → Region)
    (es : List (TestEvent π κ)) (s : Test π κ)
    (hrun : Run.run (Test.step n values) (Test.start (m.setMaxCapacity max) nextVal) es = some s) :
    Run.Forces (Test.turn n values) (Test.Finished n values) s := by
  have h : s.Sound n values := Run.run_invariant (fun _ => True) (Test.Sound n values)
    ⟨start_test hinit hcap hmax nextVal,
      fun c hc => absurd hc (by simp [Test.start, Consumer.start]),
      fun p => by
        show (-1 : ℤ) < n
        omega⟩
    (fun _ _ _ _ hi hs => hi.step hs) (fun _ _ => trivial) hrun
  refine Run.forces_of_rounds (Test.Sound n values) _ (Test.todo n) (fun s1 h1 hnot => ?_) h
  by_cases hstage : 1 ≤ s1.stage
  · -- first the calls in progress, then one thread
    refine h1.all_return.trans ?_
    rintro s2 ⟨⟨h2, hadv⟩, hnone⟩
    by_cases hfin : s2.Finished n values
    · exact .now ⟨h2, Or.inl hfin⟩
    · refine (h2.quiet_round (hadv.stage hstage) hnone hfin).trans ?_
      rintro s3 ⟨h3, hlt⟩
      exact .now ⟨h3, Or.inr (hlt.trans_le hadv.todo_le)⟩
  · refine .later .go (fun _ => { s1 with stage := 1 }) (fun _ => rfl) fun malloc => .now ?_
    have hgo : s1.step n values .go = some { s1 with stage := 1 } := rfl
    have h2 := h1.step hgo
    exact ⟨h2, Or.inr ((Test.step_advances hgo).todo_lt h2.inv
      (Or.inl ⟨not_le.mp hstage, le_rfl⟩))⟩

/-- One producer is in its push and one consumer waits. -/
theorem testCyclicQueue_finishes_sendOne : ∃ s : Test Unit Unit,
    Run.run (Test.step 1 fun _ k => k.toUInt8)
      (Test.start (complexQueue.setMaxCapacity 0x2000) fun _ _ => 0) (sendOne.take 20) = some s ∧
    Run.Forces (Test.turn 1 fun _ k => k.toUInt8) (Test.Finished 1 fun _ k => k.toUInt8) s := by
  have h : (Run.run (Test.step 1 fun _ k => k.toUInt8)
      (Test.start (complexQueue.setMaxCapacity 0x2000) fun _ _ => 0)
        (sendOne.take 20 : List (TestEvent Unit Unit))).isSome := by decide +kernel
  obtain ⟨s, hs⟩ := Option.isSome_iff_exists.mp h
  have hinit : cyclicQueueInit (fun _ => none) sizeofComplexUint64 0 (some (1, fun _ => 0)) =
      .ok complexQueue := rfl
  exact ⟨s, hs, testCyclicQueue_finishes hinit (by decide) (by decide) _ _ s hs⟩

end Cryptochan.Queue
