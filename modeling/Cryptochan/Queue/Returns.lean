import Cryptochan.Queue.Clients
import Cryptochan.Queue.Progress

/-!
# Cryptochan.Queue.Returns — calls that nothing hinders

A call whose locks nobody else holds comes to its return alone, whatever `malloc` answers: `toReturn`
goes down with every step.  Among the calls in progress there is always one that nothing hinders.  If
there is an element at its beginning, a take that nothing hinders succeeds, and a push if there is
room.
-/

namespace Cryptochan.Queue

variable {τ : Type} {s s' : Sys τ} {V : View} {t u : τ} {m m' : Shared}
  {element dest dest' : Region} {ch : Choice} {c : Option Op}

/-! ### How far a call is from its return -/

/-- A bound on the number of steps that a push still does when it is alone. -/
def PushPc.toReturn (m : Shared) : PushPc → ℕ
  | lockPushCas p => (if m.queue.pushIdx = p then 20 else 22) + m.queue.elementSize + moveBound
  | lockPushLoad => 21 + m.queue.elementSize + moveBound
  | pc => pc.rank m

/-- A bound on the number of steps that a take still does when it is alone. -/
def TakePc.toReturn (m : Shared) : TakePc → ℕ
  | lockTakeCas t => (if m.queue.takeIdx = t then 7 else 9) + m.queue.elementSize
  | lockTakeLoad => 8 + m.queue.elementSize
  | loadSize => 10 + m.queue.elementSize
  | pc => pc.rank m

def toReturn (m : Shared) : Option Op → ℕ
  | none => 0
  | some (.push _ pc) => pc.toReturn m
  | some (.take _ pc) => pc.toReturn m

/-- From its lock on nothing but the thread itself delays a call. -/
theorem toReturn_of_owns (h : OwnsPush c ∨ OwnsTake c) : toReturn m c = rank m c := by
  match c, h with
  | none, h => exact h.elim False.elim False.elim
  | some (.push _ pc), h =>
    cases pc with
    | lockPushLoad | lockPushCas => exact h.elim False.elim False.elim
    | _ => rfl
  | some (.take _ pc), h =>
    cases pc with
    | loadSize | lockTakeLoad | lockTakeCas => exact h.elim False.elim False.elim
    | _ => rfl

/-- What has not returned has a step to do. -/
theorem toReturn_pos (h : c.isSome) : 0 < toReturn m c := by
  by_cases hown : OwnsPush c ∨ OwnsTake c
  · rw [toReturn_of_owns hown]
    exact rank_pos hown
  · match c, h with
    | some (.push _ pc), _ =>
      cases pc with
      | lockPushLoad =>
        simp only [toReturn, PushPc.toReturn]
        omega
      | lockPushCas =>
        simp only [toReturn, PushPc.toReturn]
        split_ifs <;> omega
      | _ => exact absurd (Or.inl trivial) hown
    | some (.take _ pc), _ =>
      cases pc with
      | loadSize | lockTakeLoad =>
        simp only [toReturn, TakePc.toReturn]
        omega
      | lockTakeCas =>
        simp only [toReturn, TakePc.toReturn]
        split_ifs <;> omega
      | _ => exact absurd (Or.inr trivial) hown

/-- A step of a push before its lock. -/
theorem pushStep_toReturn {pc pc' : PushPc} (hown : ¬ pc.OwnsPush)
    (hspin : ¬ Spins m.queue (some (.push element pc))) (hch : ch.spurious = false)
    (hr : pushStep m element ch pc = some (m', .goto pc')) : pc'.toReturn m' < pc.toReturn m := by
  cases pc with
  | lockPushLoad =>
    simp only [pushStep] at hr
    split_ifs at hr with hlocked
    · exact absurd hlocked hspin
    · obtain ⟨rfl, rfl⟩ : m = m' ∧ PushPc.lockPushCas m.queue.pushIdx = pc' := by simpa using hr
      simp [PushPc.toReturn]
  | lockPushCas p =>
    simp only [pushStep, hch, and_true] at hr
    split_ifs at hr with hcas
    · obtain ⟨rfl, rfl⟩ : m.setPushIdx uint32Max = m' ∧ PushPc.loadSize p = pc' := by simpa using hr
      simp [PushPc.toReturn, PushPc.rank, hcas, Shared.setPushIdx, Shared.withQueue]
    · obtain ⟨rfl, rfl⟩ : m = m' ∧ PushPc.lockPushLoad = pc' := by simpa using hr
      simp [PushPc.toReturn, hcas]
  | _ => exact absurd trivial hown

/-- A step of a take before its lock. -/
theorem takeStep_toReturn {pc pc' : TakePc} (hown : ¬ pc.OwnsTake)
    (hspin : ¬ Spins m.queue (some (.take dest pc))) (hch : ch.spurious = false)
    (hr : takeStep m dest ch pc = (m', dest', .goto pc')) : pc'.toReturn m' < pc.toReturn m := by
  cases pc with
  | loadSize =>
    simp only [takeStep] at hr
    split_ifs at hr
    · simp at hr
    · obtain ⟨rfl, -, rfl⟩ : m = m' ∧ dest = dest' ∧ TakePc.lockTakeLoad = pc' := by simpa using hr
      simp [TakePc.toReturn]
  | lockTakeLoad =>
    simp only [takeStep] at hr
    split_ifs at hr with hlocked
    · exact absurd hlocked hspin
    · obtain ⟨rfl, -, rfl⟩ : m = m' ∧ dest = dest' ∧ TakePc.lockTakeCas m.queue.takeIdx = pc' := by
        simpa using hr
      simp [TakePc.toReturn]
  | lockTakeCas i =>
    simp only [takeStep, hch, and_true] at hr
    split_ifs at hr with hcas
    · obtain ⟨rfl, -, rfl⟩ : m.setTakeIdx uint32Max = m' ∧ dest = dest' ∧
        TakePc.reloadSize i = pc' := by simpa using hr
      simp [TakePc.toReturn, TakePc.rank, hcas, Shared.setTakeIdx, Shared.withQueue]
    · obtain ⟨rfl, -, rfl⟩ : m = m' ∧ dest = dest' ∧ TakePc.lockTakeLoad = pc' := by simpa using hr
      simp [TakePc.toReturn, hcas]
  | _ => exact absurd trivial hown

theorem ownsPush_goto {pc pc' : PushPc} {m1 : Shared}
    (he : some (m1, Cont.goto pc) = some (m', .goto pc')) (h : pc.OwnsPush) : pc'.OwnsPush := by
  obtain rfl := Cont.goto.inj (Prod.mk.inj (Option.some.inj he)).2
  exact h

/-- A push keeps the push lock until it returns. -/
theorem pushStep_ownsPush {pc pc' : PushPc} (hown : pc.OwnsPush)
    (hr : pushStep m element ch pc = some (m', .goto pc')) : pc'.OwnsPush := by
  cases pc with
  | lockPushLoad | lockPushCas => exact absurd hown id
  | fetchAdd p i => exact ownsPush_goto hr (ownsPush_unlockFrom _ _ _)
  | unlockPush => simp [pushStep] at hr
  | loadSize | reloadSize | free | setData | setCapacity | readData | advance | unlockTake =>
    exact ownsPush_goto hr trivial
  | testFull | lockTakeLoad | lockTakeCas | retestFull | move | copy =>
    simp only [pushStep] at hr
    split_ifs at hr <;> exact ownsPush_goto hr trivial
  | calcCapacity p i sz =>
    simp only [pushStep] at hr
    split_ifs at hr
    · exact ownsPush_goto hr (ownsPush_unlockFrom _ _ _)
    · exact ownsPush_goto hr trivial
  | malloc p i sz nc =>
    unfold pushStep at hr
    dsimp only at hr
    cases hb : ch.block with
    | none =>
      rw [hb] at hr
      exact ownsPush_goto hr (ownsPush_unlockFrom _ _ _)
    | some b =>
      rw [hb] at hr
      dsimp only at hr
      split_ifs at hr
      exact ownsPush_goto hr trivial

/-- A take keeps the take lock until it returns. -/
theorem takeStep_ownsTake {pc pc' : TakePc} (hown : pc.OwnsTake)
    (hr : takeStep m dest ch pc = (m', dest', .goto pc')) : pc'.OwnsTake := by
  have hgoto : ∀ {m1 d1 pc0}, (m1, d1, Cont.goto pc0) = (m', dest', Cont.goto pc') →
      pc0.OwnsTake → pc'.OwnsTake := by
    intro m1 d1 pc0 he h
    obtain rfl := Cont.goto.inj (Prod.mk.inj (Prod.mk.inj he).2).2
    exact h
  cases pc with
  | loadSize | lockTakeLoad | lockTakeCas => exact absurd hown id
  | unlockTake => simp [takeStep] at hr
  | readData | advance | fetchSub => exact hgoto hr trivial
  | reloadSize | copy =>
    simp only [takeStep] at hr
    split_ifs at hr <;> exact hgoto hr trivial

section Step

variable [DecidableEq τ]

/-- A step that does not spin brings its call nearer to the return. -/
theorem step_toReturn (hin : (s.calls t).isSome) (hspin : ¬ Spins s.queue (s.calls t))
    (hch : ch.spurious = false) (hs : s.step (.step t ch) = some s') :
    toReturn s'.shared (s'.calls t) < toReturn s.shared (s.calls t) := by
  rcases Sys.step_cases hs with ⟨op, -, hnone, -⟩ | ⟨u, ch', element, pc, m, c, he, hop, hr, rfl⟩ |
    ⟨u, ch', dest, pc, m, dest', c, he, hop, hr, rfl⟩
  · rw [Event.thread] at hnone
    exact absurd hin (by simp [hnone])
  · obtain ⟨rfl, rfl⟩ := Event.step.inj he
    cases c with
    | ret r =>
      rw [Sys.afterPush_ret, Sys.finish_calls]
      exact toReturn_pos hin
    | goto pc' =>
      rw [Sys.afterPush_goto_calls, Sys.afterPush_shared]
      rw [hop] at hspin ⊢
      by_cases hown : pc.OwnsPush
      · have howns : ∀ pc1 : PushPc, pc1.OwnsPush → OwnsPush (some (.push element pc1)) :=
          fun _ => id
        rw [toReturn_of_owns (Or.inl (howns pc hown)),
          toReturn_of_owns (Or.inl (howns pc' (pushStep_ownsPush hown hr)))]
        exact pushStep_rank hown hspin hch hr
      · exact pushStep_toReturn hown hspin hch hr
  · obtain ⟨rfl, rfl⟩ := Event.step.inj he
    cases c with
    | ret r =>
      rw [Sys.afterTake_ret, Sys.finish_calls]
      exact toReturn_pos hin
    | goto pc' =>
      rw [Sys.afterTake_goto_calls, Sys.afterTake_shared]
      rw [hop] at hspin ⊢
      by_cases hown : pc.OwnsTake
      · have howns : ∀ dest1 (pc1 : TakePc), pc1.OwnsTake → OwnsTake (some (.take dest1 pc1)) :=
          fun _ _ => id
        rw [toReturn_of_owns (Or.inr (howns dest pc hown)),
          toReturn_of_owns (Or.inr (howns dest' pc' (takeStep_ownsTake hown hr)))]
        exact takeStep_rank hown hr
      · exact takeStep_toReturn hown hspin hch hr

end Step

/-! ### Unhindered calls -/

/-- No other thread holds a lock that the call of `t` may still ask for. -/
structure Sys.Unhindered (s : Sys τ) (t : τ) : Prop where
  take : ∀ u, u ≠ t → ¬ OwnsTake (s.calls u)
  push : (∀ u, u ≠ t → ¬ OwnsPush (s.calls u)) ∨ ∃ dest pc, s.calls t = some (.take dest pc)

/-- Such a call does not spin. -/
theorem InvAt.not_spins (h : InvAt s V) (hun : s.Unhindered t) : ¬ Spins s.queue (s.calls t) := by
  have htake : s.queue.takeIdx = uint32Max → OwnsTake (s.calls t) := by
    intro hlocked
    obtain ⟨u, hu⟩ := h.takeLock.locked_iff.mp hlocked
    rcases eq_or_ne u t with rfl | hne
    · exact hu
    · exact absurd hu (hun.take u hne)
  intro hspin
  match hc : s.calls t with
  | none =>
    rw [hc] at hspin
    exact hspin
  | some (.take dest pc) =>
    rw [hc] at hspin htake
    cases pc with
    | lockTakeLoad => exact htake hspin
    | _ => exact hspin
  | some (.push element pc) =>
    rw [hc] at hspin htake
    cases pc with
    | lockTakeLoad => exact htake hspin
    | lockPushLoad =>
      obtain ⟨u, hu⟩ := h.pushLock.locked_iff.mp hspin
      rcases eq_or_ne u t with rfl | hne
      · rw [hc] at hu
        exact hu
      · rcases hun.push with hpush | ⟨dest, pc, htaking⟩
        · exact hpush u hne hu
        · rw [hc] at htaking
          exact absurd htaking (by simp)
    | _ => exact hspin

/-- While a call is in progress, one of them is unhindered: that of the owner of the take lock, else
that of the owner of the push lock, else any. -/
theorem InvAt.exists_unhindered (h : InvAt s V) (hin : (s.calls t).isSome) :
    ∃ u, (s.calls u).isSome ∧ s.Unhindered u := by
  by_cases htake : s.queue.takeIdx = uint32Max
  · obtain ⟨u, hu⟩ := h.takeLock.locked_iff.mp htake
    refine ⟨u, isSome_of_owns (Or.inr hu), fun v hne => h.takeLock.not_own_of_ne hu hne, ?_⟩
    match hc : s.calls u with
    | none =>
      rw [hc] at hu
      exact hu.elim
    | some (.take dest pc) => exact Or.inr ⟨dest, pc, rfl⟩
    | some (.push element pc) =>
      rw [hc] at hu
      have hpush : OwnsPush (s.calls u) := by
        rw [hc]
        exact PushPc.ownsPush_of_ownsTake hu
      exact Or.inl fun v hne => h.pushLock.not_own_of_ne hpush hne
  · by_cases hpush : s.queue.pushIdx = uint32Max
    · obtain ⟨u, hu⟩ := h.pushLock.locked_iff.mp hpush
      exact ⟨u, isSome_of_owns (Or.inl hu), fun v _ => h.takeLock.not_own htake v,
        Or.inl fun v hne => h.pushLock.not_own_of_ne hu hne⟩
    · exact ⟨t, hin, fun v _ => h.takeLock.not_own htake v,
        Or.inl fun v _ => h.pushLock.not_own hpush v⟩

variable [DecidableEq τ]

/-- A call in progress stays unhindered while its thread is alone. -/
theorem Sys.Unhindered.step (h : s.Unhindered t) (hs : s.step (.step t ch) = some s')
    (hin : (s'.calls t).isSome) : s'.Unhindered t := by
  have hothers : ∀ u, u ≠ t → s'.calls u = s.calls u := fun u hne => Sys.step_calls_of_ne hs hne
  refine ⟨fun u hne => hothers u hne ▸ h.take u hne, ?_⟩
  rcases h.push with hpush | ⟨dest, pc, hop⟩
  · exact Or.inl fun u hne => hothers u hne ▸ hpush u hne
  · obtain ⟨-, -, ⟨dest', pc', -, hop', -⟩ | ⟨-, -, -, hnone, -⟩⟩ := step_take hop hs
    · exact Or.inr ⟨dest', pc', hop'⟩
    · rw [hnone] at hin
      exact absurd hin (by simp)

/-! ### Calls that succeed -/

/-- The take has seen an element wherever it looked, and there is one where it still has to look. -/
def TakePc.Sure (m : Shared) : TakePc → Prop
  | loadSize | lockTakeLoad | lockTakeCas _ | reloadSize _ => 0 < m.queue.size
  | unlockTake _ _ => False
  | _ => True

/-- The push has seen room wherever it looked, and there is room where it still has to look. -/
def PushPc.Sure (m : Shared) : PushPc → Prop
  | lockPushLoad | lockPushCas _ | loadSize _ => m.queue.size < m.queue.capacity
  | testFull _ sz => sz < m.queue.capacity
  | readData _ _ | copy _ _ _ _ | advance _ _ | fetchAdd _ _ => True
  | _ => False

omit [DecidableEq τ] in
theorem takeStep_sure {pc : TakePc} {c : Cont TakePc} (h : pc.Sure m)
    (hr : takeStep m dest ch pc = (m', dest', c)) :
    pc.IsFetchSub ∨ ∃ pc', c = .goto pc' ∧ pc'.Sure m' := by
  have hgoto : ∀ {m1 d1 pc0}, (m1, d1, Cont.goto pc0) = (m', dest', c) → pc0.Sure m1 →
      pc.IsFetchSub ∨ ∃ pc', c = .goto pc' ∧ pc'.Sure m' := by
    intro m1 d1 pc0 he h0
    obtain ⟨rfl, he1⟩ := Prod.mk.inj he
    exact Or.inr ⟨pc0, (Prod.mk.inj he1).2.symm, h0⟩
  cases pc with
  | fetchSub => exact Or.inl trivial
  | unlockTake => exact h.elim
  | loadSize | reloadSize =>
    simp only [takeStep] at hr
    split_ifs at hr with hempty
    · exact absurd hempty (Nat.ne_of_gt h)
    · first | exact hgoto hr h | exact hgoto hr trivial
  | lockTakeLoad | lockTakeCas =>
    simp only [takeStep] at hr
    split_ifs at hr <;> exact hgoto hr h
  | readData | advance => exact hgoto hr trivial
  | copy =>
    simp only [takeStep] at hr
    split_ifs at hr <;> exact hgoto hr trivial

omit [DecidableEq τ] in
theorem pushStep_sure {pc : PushPc} {c : Cont PushPc} (h : pc.Sure m)
    (hr : pushStep m element ch pc = some (m', c)) :
    pc.IsFetchAdd ∨ ∃ pc', c = .goto pc' ∧ pc'.Sure m' := by
  have hgoto : ∀ {m1 pc0}, some (m1, Cont.goto pc0) = some (m', c) → pc0.Sure m1 →
      pc.IsFetchAdd ∨ ∃ pc', c = .goto pc' ∧ pc'.Sure m' := by
    intro m1 pc0 he h0
    obtain ⟨rfl, he1⟩ := Prod.mk.inj (Option.some.inj he)
    exact Or.inr ⟨pc0, he1.symm, h0⟩
  cases pc with
  | fetchAdd => exact Or.inl trivial
  | lockPushLoad | lockPushCas =>
    simp only [pushStep] at hr
    split_ifs at hr <;> exact hgoto hr h
  | loadSize => exact hgoto hr h
  | testFull p sz =>
    simp only [pushStep] at hr
    split_ifs at hr with hfull
    · exact absurd hfull (Nat.ne_of_lt h)
    · exact hgoto hr trivial
  | readData | advance => exact hgoto hr trivial
  | copy =>
    simp only [pushStep] at hr
    split_ifs at hr <;> exact hgoto hr trivial
  | _ => exact h.elim

/-- A sure take goes on, or takes its element. -/
theorem step_sure_take {pc : TakePc} (hop : s.calls t = some (.take dest pc))
    (hsure : pc.Sure s.shared) (hs : s.step (.step t ch) = some s') :
    s.history.taken.length < s'.history.taken.length ∨
      ∃ dest' pc', s'.calls t = some (.take dest' pc') ∧ pc'.Sure s'.shared := by
  simp only [Sys.step, hop, Option.some.injEq] at hs
  obtain ⟨m, dest', c, hr⟩ : ∃ m dest' c, takeStep s.shared dest ch pc = (m, dest', c) :=
    ⟨_, _, _, rfl⟩
  rw [hr] at hs
  obtain rfl := hs
  rcases takeStep_sure hsure hr with hsub | ⟨pc', rfl, hsure'⟩
  · cases pc with
    | fetchSub i =>
      obtain ⟨-, hgoto⟩ := Prod.mk.inj hr
      obtain ⟨-, rfl⟩ := Prod.mk.inj hgoto
      exact Or.inl (by simp [Sys.afterTake])
    | _ => exact hsub.elim
  · exact Or.inr ⟨dest', pc', Sys.afterTake_goto_calls, by rwa [Sys.afterTake_shared]⟩

/-- A sure push goes on, or puts its element into the queue. -/
theorem step_sure_push {pc : PushPc} (hop : s.calls t = some (.push element pc))
    (hsure : pc.Sure s.shared) (hs : s.step (.step t ch) = some s') :
    s.history.pushed.length < s'.history.pushed.length ∨
      ∃ pc', s'.calls t = some (.push element pc') ∧ pc'.Sure s'.shared := by
  simp only [Sys.step, hop, Option.map_eq_some_iff] at hs
  obtain ⟨⟨m, c⟩, hr, rfl⟩ := hs
  rcases pushStep_sure hsure hr with hadd | ⟨pc', rfl, hsure'⟩
  · cases pc with
    | fetchAdd p i =>
      obtain ⟨-, rfl⟩ := Prod.mk.inj (Option.some.inj hr)
      exact Or.inl (by simp [Sys.afterPush])
    | _ => exact hadd.elim
  · exact Or.inr ⟨pc', Sys.afterPush_goto_calls, by rwa [Sys.afterPush_shared]⟩

end Cryptochan.Queue
