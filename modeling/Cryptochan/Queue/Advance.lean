import Cryptochan.Queue.Delivery

/-!
# Cryptochan.Queue.Advance — what the producers and consumers have still to do

No step of `test_cyclic_queue.c` takes back what was pushed, taken or counted, or lets a thread that
has returned run again (`Test.step_advances`).  `Test.todo` is what is left of that; each step that does
some of it lowers the number.
-/

namespace Cryptochan.Queue

variable {π κ : Type} [DecidableEq π] [DecidableEq κ]

/-! ### Nothing that was done is undone -/

/-- A producer goes on only with an index of `values`, and leaves when all were claimed. -/
def Producer.Within (n vindex : ℕ) (q : Producer) : Prop :=
  match q.pc with
  | .test | .stage | .push | .pushing => q.vidx < n
  | .load | .cas => True
  | .bound => q.vidx < vindex
  | .done => n ≤ vindex

/-- What counts as progress from `s` to `s'` is never taken back. -/
structure Test.Advances (s s' : Test π κ) : Prop where
  stage : 1 ≤ s.stage → 1 ≤ s'.stage
  pushed : s.sys.history.pushed.length ≤ s'.sys.history.pushed.length
  taken : s.sys.history.taken.length ≤ s'.sys.history.taken.length
  counted : s.consumedCount ≤ s'.consumedCount
  producers : ∀ p, (s.producers p).pc = .done → (s'.producers p).pc = .done
  consumers : ∀ c, (s.consumers c).pc = .done → (s'.consumers c).pc = .done

variable {n : ℕ} {values : ℕ → Region} {s s' : Test π κ} {p : π} {c : κ} {ch : Choice}

omit [DecidableEq π] [DecidableEq κ] in
theorem Test.Advances.refl (s : Test π κ) : s.Advances s :=
  ⟨id, le_rfl, le_rfl, le_rfl, fun _ => id, fun _ => id⟩

omit [DecidableEq π] [DecidableEq κ] in
theorem Test.Advances.trans {s'' : Test π κ} (h : s.Advances s') (h' : s'.Advances s'') :
    s.Advances s'' where
  stage hs := h'.stage (h.stage hs)
  pushed := h.pushed.trans h'.pushed
  taken := h.taken.trans h'.taken
  counted := h.counted.trans h'.counted
  producers p hp := h'.producers p (h.producers p hp)
  consumers c hc := h'.consumers c (h.consumers c hc)

/-- The history only grows. -/
theorem Sys.step_history {τ : Type} [DecidableEq τ] {s s' : Sys τ} {e : Event τ}
    (hs : s.step e = some s') : s.history.pushed.length ≤ s'.history.pushed.length ∧
      s.history.taken.length ≤ s'.history.taken.length := by
  rcases Sys.step_cases hs with ⟨op, -, -, rfl⟩ | ⟨t, ch, element, pc, m, c, rfl, -, -, rfl⟩ |
    ⟨t, ch, dest, pc, m, dest', c, rfl, -, -, rfl⟩
  · exact ⟨le_rfl, le_rfl⟩
  · cases c with
    | ret r => exact ⟨le_rfl, le_rfl⟩
    | goto pc' => cases pc <;> simp [Sys.afterPush]
  · cases c with
    | ret r => exact ⟨le_rfl, le_rfl⟩
    | goto pc' => cases pc <;> simp [Sys.afterTake]

/-- A producer that is not done changes its own locals, maybe `vindex`, and does steps of the queue. -/
theorem Test.of_producerStep (hs : s.producerStep n values p ch = some s') :
    (s.producers p).pc ≠ .done ∧ (∃ q, s'.producers = Function.update s.producers p q) ∧
      s'.consumers = s.consumers ∧ s'.stage = s.stage ∧ s'.consumedCount = s.consumedCount ∧
      s.vindex ≤ s'.vindex ∧
      (s'.sys = s.sys ∨ ∃ e, e.thread = .inl p ∧ s.sys.step e = some s'.sys) := by
  unfold Test.producerStep at hs
  dsimp only at hs
  split at hs
  case h_7 hpc =>
    obtain ⟨sys, hsys, rfl⟩ := Option.map_eq_some_iff.mp hs
    exact ⟨by simp [hpc], ⟨_, rfl⟩, rfl, rfl, rfl, le_rfl, Or.inr ⟨_, rfl, hsys⟩⟩
  case h_6 hpc =>
    obtain ⟨sys, hsys, rfl⟩ := Option.map_eq_some_iff.mp hs
    exact ⟨by simp [hpc], ⟨_, rfl⟩, rfl, rfl, rfl, le_rfl, Or.inr ⟨_, rfl, hsys⟩⟩
  case h_4 hpc =>
    split_ifs at hs
    · obtain rfl := Option.some.inj hs
      exact ⟨by simp [hpc], ⟨_, rfl⟩, rfl, rfl, rfl, Nat.le_succ _, Or.inl rfl⟩
    · obtain rfl := Option.some.inj hs
      exact ⟨by simp [hpc], ⟨_, rfl⟩, rfl, rfl, rfl, le_rfl, Or.inl rfl⟩
  case h_8 => exact absurd hs (by simp)
  all_goals
    rename_i hpc
    obtain rfl := Option.some.inj hs
    exact ⟨by simp [hpc], ⟨_, rfl⟩, rfl, rfl, rfl, le_rfl, Or.inl rfl⟩

theorem Test.of_consumerStep (hs : s.consumerStep n c ch = some s') :
    (s.consumers c).pc ≠ .done ∧ (∃ q, s'.consumers = Function.update s.consumers c q) ∧
      s'.producers = s.producers ∧ s'.stage = s.stage ∧ s.consumedCount ≤ s'.consumedCount ∧
      s'.vindex = s.vindex ∧
      (s'.sys = s.sys ∨ ∃ e, e.thread = .inr c ∧ s.sys.step e = some s'.sys) := by
  unfold Test.consumerStep at hs
  dsimp only at hs
  split at hs
  case h_3 hpc =>
    obtain ⟨sys, hsys, rfl⟩ := Option.map_eq_some_iff.mp hs
    exact ⟨by simp [hpc], ⟨_, rfl⟩, rfl, rfl, le_rfl, rfl, Or.inr ⟨_, rfl, hsys⟩⟩
  case h_4 hpc =>
    obtain ⟨sys, hsys, rfl⟩ := Option.map_eq_some_iff.mp hs
    exact ⟨by simp [hpc], ⟨_, rfl⟩, rfl, rfl, le_rfl, rfl, Or.inr ⟨_, rfl, hsys⟩⟩
  case h_6 hpc =>
    obtain rfl := Option.some.inj hs
    exact ⟨by simp [hpc], ⟨_, rfl⟩, rfl, rfl, Nat.le_succ _, rfl, Or.inl rfl⟩
  case h_7 => exact absurd hs (by simp)
  all_goals
    rename_i hpc
    obtain rfl := Option.some.inj hs
    exact ⟨by simp [hpc], ⟨_, rfl⟩, rfl, rfl, le_rfl, rfl, Or.inl rfl⟩

theorem Test.step_advances {e : TestEvent π κ} (hs : s.step n values e = some s') :
    s.Advances s' := by
  have hhist : ∀ {t}, (s'.sys = s.sys ∨ ∃ e, e.thread = t ∧ s.sys.step e = some s'.sys) →
      s.sys.history.pushed.length ≤ s'.sys.history.pushed.length ∧
        s.sys.history.taken.length ≤ s'.sys.history.taken.length := by
    rintro t (he | ⟨e, -, he⟩)
    · rw [he]
      exact ⟨le_rfl, le_rfl⟩
    · exact Sys.step_history he
  cases e with
  | go =>
    obtain rfl := Option.some.inj hs
    exact ⟨fun _ => le_rfl, le_rfl, le_rfl, le_rfl, fun _ => id, fun _ => id⟩
  | producer p ch =>
    obtain ⟨hnot, ⟨q, hq⟩, hcons, hstage, hcount, -, hsys⟩ := Test.of_producerStep hs
    refine ⟨fun h => hstage ▸ h, (hhist hsys).1, (hhist hsys).2, hcount.ge, fun u hu => ?_,
      fun c hc => hcons ▸ hc⟩
    rw [hq, Function.update_of_ne (show u ≠ p from fun he => hnot (he ▸ hu))]
    exact hu
  | consumer c ch =>
    obtain ⟨hnot, ⟨q, hq⟩, hprod, hstage, hcount, -, hsys⟩ := Test.of_consumerStep hs
    refine ⟨fun h => hstage ▸ h, (hhist hsys).1, (hhist hsys).2, hcount, fun p hp => hprod ▸ hp,
      fun u hu => ?_⟩
    rw [hq, Function.update_of_ne (show u ≠ c from fun he => hnot (he ▸ hu))]
    exact hu

/-! ### What the rounds rely on -/

omit [DecidableEq π] in
theorem Producer.Within.mono {vindex vindex' : ℕ} {q : Producer} (h : q.Within n vindex)
    (hle : vindex ≤ vindex') : q.Within n vindex' := by
  unfold Within at h ⊢
  split <;> rename_i hpc <;> rw [hpc] at h
  · exact h
  · exact h
  · exact h
  · exact h
  · trivial
  · trivial
  · exact h.trans_le (Int.ofNat_le.mpr hle)
  · exact h.trans hle

/-- A producer claims an index once, and drops one that is too large. -/
theorem Test.producerStep_within (h : (s.producers p).Within n s.vindex)
    (hs : s.producerStep n values p ch = some s') : (s'.producers p).Within n s'.vindex := by
  unfold Test.producerStep at hs
  generalize s.producers p = q at h hs
  obtain ⟨pc, vidx, cached, processed⟩ := q
  have hself : ∀ (s1 : Test π κ) (q1 : Producer), (s1.setProducer p q1).producers p = q1 :=
    fun s1 q1 => Function.update_self _ _ _
  cases pc with
  | test =>
    obtain rfl := Option.some.inj hs
    have hlt : vidx < n := h
    rw [hself]
    dsimp only
    rw [if_pos (Or.inl hlt)]
    exact hlt
  | stage =>
    obtain rfl := Option.some.inj hs
    rw [hself]
    dsimp only
    split_ifs
    · exact h
    · exact h
    · trivial
  | load =>
    obtain rfl := Option.some.inj hs
    rw [hself]
    trivial
  | cas =>
    dsimp only at hs
    split_ifs at hs with hcas
    · obtain rfl := Option.some.inj hs
      rw [hself]
      show vidx < ((s.vindex + 1 : ℕ) : ℤ)
      omega
    · obtain rfl := Option.some.inj hs
      rw [hself]
      trivial
  | bound =>
    obtain rfl := Option.some.inj hs
    rw [hself]
    dsimp only
    split_ifs with hbound
    · have hlt : vidx < s.vindex := h
      show n ≤ s.vindex
      omega
    · exact not_le.mp hbound
  | push =>
    obtain ⟨sys, -, rfl⟩ := Option.map_eq_some_iff.mp hs
    rw [hself]
    exact h
  | pushing =>
    obtain ⟨sys, -, rfl⟩ := Option.map_eq_some_iff.mp hs
    rw [hself]
    dsimp only [Producer.afterPush]
    split <;> exact h
  | done => exact absurd hs (by simp)

variable [Fintype π] [Fintype κ]

/-- What holds in every state that is reached. -/
structure Test.Sound (n : ℕ) (values : ℕ → Region) (s : Test π κ) : Prop where
  inv : s.Inv n values
  doneOk : s.DoneOk n
  within : ∀ p, (s.producers p).Within n s.vindex

theorem Test.Sound.step (h : s.Sound n values) {e : TestEvent π κ}
    (hs : s.step n values e = some s') : s'.Sound n values where
  inv := h.inv.step hs
  doneOk := h.doneOk.step hs
  within u := by
    cases e with
    | go =>
      obtain rfl := Option.some.inj hs
      exact h.within u
    | producer p ch =>
      rcases eq_or_ne u p with rfl | hne
      · exact Test.producerStep_within (h.within u) hs
      · obtain ⟨-, ⟨q, hq⟩, -, -, -, hle, -⟩ := Test.of_producerStep hs
        rw [hq, Function.update_of_ne hne]
        exact (h.within u).mono hle
    | consumer c ch =>
      obtain ⟨-, -, hprod, -, -, hvindex, -⟩ := Test.of_consumerStep hs
      rw [hprod, hvindex]
      exact h.within u

section Counts

omit [DecidableEq π] [DecidableEq κ]

theorem Test.Inv.pushed_le (h : s.Inv n values) : s.sys.history.pushed.length ≤ n := by
  have hcard := congrArg Multiset.card h.claimed
  rw [Multiset.card_add, Multiset.coe_card, Multiset.card_map, Multiset.card_range] at hcard
  omega

/-- The size of the queue is what was pushed and not yet taken. -/
theorem Test.Inv.pushed_eq (h : s.Inv n values) :
    s.sys.history.pushed.length = s.sys.history.taken.length + s.sys.queue.size := by
  obtain ⟨V, hV⟩ := h.queue
  rw [hV.history, List.length_append, hV.stored.sizeEq]

theorem Test.Inv.counted_le (h : s.Inv n values) :
    s.consumedCount ≤ s.sys.history.taken.length := by
  have hheld : Tally.total held s.consuming = s.gotten + Tally.total inHand s.consuming :=
    Tally.total_add
  have hcard := congrArg Multiset.card (h.taken.trans hheld)
  rw [Multiset.coe_card, Multiset.card_add] at hcard
  exact h.consumedCount_le.trans (by omega)

/-- When all values were counted the queue is empty. -/
theorem Test.Inv.size_of_counted (h : s.Inv n values) (hge : n ≤ s.consumedCount) :
    s.sys.queue.size = 0 := by
  have h1 := h.pushed_le
  have h2 := h.pushed_eq
  have h3 := h.counted_le
  omega

end Counts

/-! ### What is left to do -/

/-- The elements to be pushed, taken and counted, the threads that have not returned, the start. -/
def Test.todo (n : ℕ) (s : Test π κ) : ℕ :=
  (if s.stage < 1 then 1 else 0) + (n - s.sys.history.pushed.length) +
    (n - s.sys.history.taken.length) + (n - s.consumedCount) +
    Tally.left (fun q : Producer => q.pc = .done) s.producers +
    Tally.left (fun q : Consumer => q.pc = .done) s.consumers

/-- Something of that was done on the way from `s` to `s'`. -/
def Test.Progresses (s s' : Test π κ) : Prop :=
  s.stage < 1 ∧ 1 ≤ s'.stage ∨ s.sys.history.pushed.length < s'.sys.history.pushed.length ∨
    s.sys.history.taken.length < s'.sys.history.taken.length ∨ s.consumedCount < s'.consumedCount ∨
    (∃ p, (s.producers p).pc ≠ .done ∧ (s'.producers p).pc = .done) ∨
    ∃ c, (s.consumers c).pc ≠ .done ∧ (s'.consumers c).pc = .done

section Todo

omit [DecidableEq π] [DecidableEq κ]

omit [Fintype π] [Fintype κ] in
theorem Test.Advances.todo_stage (h : s.Advances s') :
    (if s'.stage < 1 then 1 else 0) ≤ (if s.stage < 1 then 1 else 0) := by
  have := h.stage
  split_ifs <;> omega

theorem Test.Advances.todo_le (h : s.Advances s') : s'.todo n ≤ s.todo n := by
  have h0 := h.todo_stage
  have h1 := h.pushed
  have h2 := h.taken
  have h3 := h.counted
  have h4 := Tally.left_le (fun q : Producer => q.pc = .done) h.producers
  have h5 := Tally.left_le (fun q : Consumer => q.pc = .done) h.consumers
  unfold Test.todo
  omega

theorem Test.Advances.todo_lt (h : s.Advances s') (h' : s'.Inv n values)
    (hmore : s.Progresses s') : s'.todo n < s.todo n := by
  have h0 := h.todo_stage
  have h1 := h.pushed
  have h2 := h.taken
  have h3 := h.counted
  have h4 := Tally.left_le (fun q : Producer => q.pc = .done) h.producers
  have h5 := Tally.left_le (fun q : Consumer => q.pc = .done) h.consumers
  have hpushed := h'.pushed_le
  have htaken := h'.pushed_eq
  have hcounted := h'.counted_le
  unfold Test.todo
  rcases hmore with ⟨hst, hst'⟩ | hlt | hlt | hlt | ⟨p, hp, hp'⟩ | ⟨c, hc, hc'⟩
  · rw [if_pos hst, if_neg (not_lt.mpr hst')]
    omega
  · omega
  · omega
  · omega
  · have hlt := Tally.left_lt (fun q : Producer => q.pc = .done) h.producers hp hp'
    omega
  · have hlt := Tally.left_lt (fun q : Consumer => q.pc = .done) h.consumers hc hc'
    omega

end Todo

end Cryptochan.Queue
