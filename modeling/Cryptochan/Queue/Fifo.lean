import Cryptochan.Queue.Counted
import Cryptochan.Queue.Kept

/-!
# Cryptochan.Queue.Fifo — one FIFO queue for all threads

Pushes take effect at their `fetch_add`, takes at their `fetch_sub`: in every reachable state the
elements pushed are the elements taken followed by what the memory holds (`Sys.contents`).  A call
returns `true` just if it has pushed its element, or taken the one it returns with (`Recorded`), and
`false` only if the queue was full, or empty, at some instant of the call (`cyclicQueue_fifo`).
-/

namespace Cryptochan.Queue

variable {τ : Type}

/-! ### The contents of the queue -/

/-- Where the elements are: a block, its capacity and the slot of the first element. -/
structure Window where
  block : ℕ
  cap : ℕ
  head : ℕ

/-- Where the owner of the take lock has them.  A push that has moved them all has them in the new
block, from the first slot on; a take that advanced its index has not yet counted the element off. -/
def Op.window (q : CyclicQueue) : Op → Option Window
  | .push _ (.reloadSize _ i) | .push _ (.retestFull _ i _) | .push _ (.calcCapacity _ i _)
  | .push _ (.malloc _ i _ _) | .push _ (.move _ i _ _ _ _) | .push _ (.unlockTake _ i _) =>
    some ⟨q.dataPtr, q.capacity, i⟩
  | .push _ (.free _ nc nb) | .push _ (.setData _ nc nb) => some ⟨nb, nc, 0⟩
  | .push _ (.setCapacity _ nc) => some ⟨q.dataPtr, nc, 0⟩
  | .push _ (.readData _ i) | .push _ (.copy _ i _ _) | .push _ (.advance _ i)
  | .push _ (.fetchAdd _ i) => if i = uint32Max then none else some ⟨q.dataPtr, q.capacity, i⟩
  | .push _ _ => none
  | .take _ (.reloadSize i) | .take _ (.readData i) | .take _ (.copy i _ _) | .take _ (.advance i)
  | .take _ (.unlockTake i _) => some ⟨q.dataPtr, q.capacity, i⟩
  | .take _ (.fetchSub i) => some ⟨q.dataPtr, q.capacity, (i + q.capacity - 1) % q.capacity⟩
  | .take _ _ => none

namespace Sys

variable (s : Sys τ)

/-- `take_idx` says where the elements are, or the thread that locked it. -/
def Window (w : Window) : Prop :=
  if s.queue.takeIdx = uint32Max then ∃ t op, s.calls t = some op ∧ op.window s.queue = some w
  else w = ⟨s.queue.dataPtr, s.queue.capacity, s.queue.takeIdx⟩

/-- The elements in memory. -/
def contents (w : Queue.Window) : List Element :=
  (List.range s.queue.size).map fun i =>
    s.shared.heap.slot w.block s.queue.elementSize ((w.head + i) % w.cap)

end Sys

/-! ### What is in memory -/

section Contents

variable {s : Sys τ} {V : View} {t : τ} {op : Op} {w : Window}

theorem op_window_isSome (q : CyclicQueue) (h : OwnsTake (some op)) : ∃ w, op.window q = some w := by
  cases op with
  | push element pc =>
    cases pc with
    | readData p i | copy p i _ _ | advance p i | fetchAdd p i => exact ⟨_, if_neg h⟩
    | lockPushLoad | lockPushCas | loadSize | testFull | lockTakeLoad | lockTakeCas | unlockPush =>
      exact absurd h id
    | _ => exact ⟨_, rfl⟩
  | take dest pc =>
    cases pc with
    | loadSize | lockTakeLoad | lockTakeCas => exact absurd h id
    | _ => exact ⟨_, rfl⟩

theorem InvAt.exists_window (h : InvAt s V) : ∃ w, s.Window w := by
  unfold Sys.Window
  split_ifs with hlocked
  · obtain ⟨t, ht⟩ := h.takeLock.locked_iff.mp hlocked
    cases hop : s.calls t with
    | none =>
      rw [hop] at ht
      exact absurd ht id
    | some op =>
      rw [hop] at ht
      obtain ⟨w, hw⟩ := op_window_isSome s.queue ht
      exact ⟨w, t, op, hop, hw⟩
  · exact ⟨_, rfl⟩

theorem pred_succ_mod {n N : ℕ} (h : n < N) : ((n + 1) % N + N - 1) % N = n := by
  rcases Nat.lt_or_ge (n + 1) N with hlt | hge
  · rw [Nat.mod_eq_of_lt hlt, show n + 1 + N - 1 = n + N by omega, Nat.add_mod_right,
      Nat.mod_eq_of_lt h]
  · obtain rfl : N = n + 1 := by omega
    rw [Nat.mod_self, Nat.zero_add, Nat.add_sub_cancel, Nat.mod_eq_of_lt (Nat.lt_succ_self n)]

/-- The window holds the elements of the view. -/
theorem InvAt.holds_window (h : InvAt s V) (hw : s.Window w) :
    Circular.Holds (s.shared.heap.slot w.block s.queue.elementSize) w.cap w.head V.items := by
  have hview : ∀ {i}, Settled s.shared V → i = V.head →
      some (⟨s.queue.dataPtr, s.queue.capacity, i⟩ : Window) = some w → Circular.Holds
        (s.shared.heap.slot w.block s.queue.elementSize) w.cap w.head V.items := by
    intro i hs hi he
    obtain rfl := Option.some.inj he
    dsimp only
    rw [Sys.queue, hs.1, hs.2, hi]
    exact h.stored.holds
  unfold Sys.Window at hw
  split_ifs at hw with hlocked
  · obtain ⟨t, op, hop, hw⟩ := hw
    have hok := h.ok_of hop
    cases op with
    | push element pc =>
      cases pc with
      | reloadSize p i => exact hview hok.2.1 hok.2.2 hw
      | unlockTake p i r => exact hview hok.2.1 hok.2.2 hw
      | retestFull p i sz => exact hview hok.2.1 hok.2.2.1 hw
      | calcCapacity p i sz => exact hview hok.2.1 hok.2.2.1 hw
      | malloc p i sz nc => exact hview hok.2.1 hok.2.2.1 hw
      | move p i sz nc nb k => exact hview hok.2.1 hok.2.2.1 hw
      | free sz nc nb =>
        obtain rfl := Option.some.inj hw
        obtain ⟨-, -, -, -, -, -, -, hholds⟩ := hok
        exact hholds
      | setData sz nc nb =>
        obtain rfl := Option.some.inj hw
        obtain ⟨-, -, rfl, rfl, hhead⟩ := hok
        exact hhead ▸ h.stored.holds
      | setCapacity sz nc =>
        obtain rfl := Option.some.inj hw
        obtain ⟨-, -, hblock, rfl, hhead⟩ := hok
        dsimp only
        rw [Sys.queue, hblock, ← hhead]
        exact h.stored.holds
      | readData p i | copy p i _ _ | advance p i | fetchAdd p i =>
        simp only [Op.window] at hw
        split_ifs at hw with hi
        first
        | exact hview hok.2.1 (hok.2.2.2 hi) hw
        | exact hview hok.2.1 (hok.2.2.2.1 hi) hw
      | _ => exact (Option.some_ne_none _ hw.symm).elim
    | take dest pc =>
      cases pc with
      | reloadSize i => exact hview hok.2 hok.1 hw
      | unlockTake i r => exact hview hok.2 hok.1 hw
      | readData i => exact hview hok.2.1 hok.1 hw
      | copy i a k => exact hview hok.2.1 hok.1 hw
      | advance i => exact hview hok.2.1 hok.1 hw
      | fetchSub i =>
        obtain ⟨hi, hs, -⟩ := hok
        refine hview hs ?_ hw
        rw [hi, Sys.queue, hs.capacity]
        exact pred_succ_mod h.stored.headLt
      | _ => exact (Option.some_ne_none _ hw.symm).elim
  · obtain ⟨hhead, hs⟩ := h.takeFree hlocked
    exact hview hs hhead (congrArg some hw.symm)

theorem InvAt.contents_eq (h : InvAt s V) (hw : s.Window w) : s.contents w = V.items := by
  have := (h.holds_window hw).eq_map
  rw [this, Sys.contents, ← h.stored.sizeEq]

end Contents

/-! ### Calls that return `false` -/

/-- `malloc` fails in the next event, for the push that `t` is in. -/
def MallocFails (t : τ) (s : Sys τ) (es : List (Event τ)) : Prop :=
  (∃ element p i sz nc, s.calls t = some (.push element (.malloc p i sz nc))) ∧
    ∃ ch es', es = .step t ch :: es' ∧ ch.block = none

/-- Why a call may return `false`: the queue is full and cannot grow, or it is empty.  The events are
those that follow. -/
def Reason (t : τ) : Kind → Sys τ → List (Event τ) → Prop
  | .push, s, es => s.queue.size = s.queue.maxCapacity ∨
      s.queue.size = s.queue.capacity ∧ MallocFails t s es
  | .take, s, _ => s.queue.size = 0

theorem Reason.append {t : τ} {k : Kind} {s : Sys τ} {es : List (Event τ)} (h : Reason t k s es)
    (e : Event τ) : Reason t k s (es ++ [e]) := by
  cases k with
  | take => exact h
  | push =>
    rcases h with hfull | ⟨hfull, hop, ch, es', rfl, hb⟩
    · exact Or.inl hfull
    · exact Or.inr ⟨hfull, hop, ch, es' ++ [e], rfl, hb⟩

variable [DecidableEq τ]

/-- At some instant of the call that `t` is in after the events `es`, there was the reason: `t` was in
a call then, and has not started one since. -/
def DuringCall (s0 : Sys τ) (es : List (Event τ)) (t : τ)
    (P : Sys τ → List (Event τ) → Prop) : Prop :=
  ∃ es1 es2 s1, es = es1 ++ es2 ∧ Run.run Sys.step s0 es1 = some s1 ∧ (s1.calls t).isSome ∧
    (∀ e ∈ es2, ¬ e.Starts t) ∧ P s1 es2

/-- A call on its way to return `false`. -/
def FailsAs : Kind → Option Op → Prop
  | .push, some (.push _ (.unlockTake _ _ false)) => True
  | .push, some (.push _ (.unlockPush _ false)) => True
  | .take, some (.take _ (.unlockTake _ false)) => True
  | _, _ => False

section Fails

variable {s s' : Sys τ} {V : View} {t u : τ} {k : Kind} {element dest : Region} {ch : Choice}

theorem failsAs_unlockFrom {p i : ℕ} {r : Bool}
    (h : FailsAs k (some (.push element (unlockFrom p i r)))) : r = false := by
  unfold unlockFrom at h
  cases r with
  | false => rfl
  | true =>
    split_ifs at h
    · cases k <;> exact absurd h id
    · cases k <;> exact absurd h id

omit [DecidableEq τ] in
/-- The steps after which a push fails. -/
theorem pushStep_fails (h : InvAt s V) {pc pc' : PushPc} {m' : Shared}
    (hop : s.calls t = some (.push element pc))
    (hr : pushStep s.shared element ch pc = some (m', .goto pc'))
    (hf : FailsAs k (some (.push element pc'))) :
    FailsAs k (some (.push element pc)) ∨ Reason t k s [.step t ch] := by
  have hk : k = .push := by
    cases k with
    | push => rfl
    | take => exact absurd hf id
  subst hk
  cases pc with
  | unlockTake p i r =>
    obtain ⟨-, he⟩ := Prod.mk.inj (Option.some.inj hr)
    obtain rfl := Cont.goto.inj he
    cases r with
    | false => exact Or.inl trivial
    | true => exact absurd hf id
  | fetchAdd p i =>
    obtain ⟨-, he⟩ := Prod.mk.inj (Option.some.inj hr)
    obtain rfl := Cont.goto.inj he
    exact absurd (failsAs_unlockFrom hf) (by decide)
  | calcCapacity p i sz =>
    obtain ⟨-, hs, -, hsz, hfull⟩ := h.ok_of hop
    simp only [pushStep] at hr
    split_ifs at hr with hmax
    · refine Or.inr (Or.inl ?_)
      have hcap := h.stored.maxLe
      have hpos := h.stored.capPos
      have hbound := h.stored.maxBound
      have hdouble : u32Mul s.shared.queue.capacity 2 = s.shared.queue.capacity * 2 := by
        unfold cyclicQueueMaxCapacity at hbound
        exact u32Mul_eq (by rw [hs.capacity]; omega)
      rw [hdouble] at hmax
      rw [← h.stored.sizeEq, ← hsz, hfull]
      show V.cap = s.shared.queue.maxCapacity
      rw [hs.capacity] at hmax hpos
      omega
    · obtain ⟨-, he⟩ := Prod.mk.inj (Option.some.inj hr)
      obtain rfl := Cont.goto.inj he
      exact absurd hf id
  | malloc p i sz nc =>
    obtain ⟨-, hs, -, hsz, hfull, -⟩ := h.ok_of hop
    unfold pushStep at hr
    dsimp only at hr
    cases hb : ch.block with
    | none =>
      refine Or.inr (Or.inr ⟨?_, ⟨element, p, i, sz, nc, hop⟩, ch, [], rfl, hb⟩)
      rw [← h.stored.sizeEq, ← hsz, hfull, Sys.queue, hs.capacity]
    | some b =>
      rw [hb] at hr
      dsimp only at hr
      split_ifs at hr
      obtain ⟨-, he⟩ := Prod.mk.inj (Option.some.inj hr)
      obtain rfl := Cont.goto.inj he
      exact absurd hf id
  | unlockPush p r => simp [pushStep] at hr
  | lockPushLoad | lockPushCas | testFull | lockTakeLoad | lockTakeCas | retestFull | move | copy =>
    simp only [pushStep] at hr
    split_ifs at hr <;>
    · obtain ⟨-, he⟩ := Prod.mk.inj (Option.some.inj hr)
      obtain rfl := Cont.goto.inj he
      exact absurd hf id
  | loadSize | reloadSize | free | setData | setCapacity | readData | advance =>
    obtain ⟨-, he⟩ := Prod.mk.inj (Option.some.inj hr)
    obtain rfl := Cont.goto.inj he
    exact absurd hf id

omit [DecidableEq τ] in
theorem takeStep_fails {pc pc' : TakePc} {m' : Shared} {dest' : Region}
    (hr : takeStep s.shared dest ch pc = (m', dest', .goto pc'))
    (hf : FailsAs k (some (.take dest' pc'))) : Reason t k s [.step t ch] := by
  have hk : k = .take := by
    cases k with
    | push => exact absurd hf id
    | take => rfl
  subst hk
  cases pc with
  | reloadSize i =>
    simp only [takeStep] at hr
    split_ifs at hr with hzero
    · exact hzero
    · obtain ⟨-, he⟩ := Prod.mk.inj hr
      obtain ⟨-, he⟩ := Prod.mk.inj he
      obtain rfl := Cont.goto.inj he
      exact absurd hf id
  | unlockTake i r => simp [takeStep] at hr
  | loadSize | lockTakeLoad | lockTakeCas | copy =>
    simp only [takeStep] at hr
    split_ifs at hr <;>
    · obtain ⟨-, he⟩ := Prod.mk.inj hr
      obtain ⟨-, he⟩ := Prod.mk.inj he
      cases he <;> exact absurd hf id
  | readData | advance | fetchSub =>
    obtain ⟨-, he⟩ := Prod.mk.inj hr
    obtain ⟨-, he⟩ := Prod.mk.inj he
    obtain rfl := Cont.goto.inj he
    exact absurd hf id

/-- A call that is on its way to fail was so before, or there is the reason now. -/
theorem step_fails (h : InvAt s V) {e : Event τ} (hs : s.step e = some s')
    (hf : FailsAs k (s'.calls t)) :
    ¬ e.Starts t ∧ (s.calls t).isSome ∧ (FailsAs k (s.calls t) ∨ Reason t k s [e]) := by
  have hsome : ∀ {c : Option Op}, FailsAs k c → c.isSome := by
    intro c hc
    cases c with
    | none => cases k <;> exact absurd hc id
    | some op => rfl
  by_cases hne : t = e.thread
  · subst hne
    rcases Sys.step_cases hs with ⟨op, hop, -, rfl⟩ | ⟨u, ch, element, pc, m, c, rfl, hop, hr, rfl⟩ |
      ⟨u, ch, dest, pc, m, dest', c, rfl, hop, hr, rfl⟩
    · dsimp only at hf
      rw [Function.update_self] at hf
      match op, hop with
      | .push _ .lockPushLoad, _ => cases k <;> exact absurd hf id
      | .take _ .loadSize, _ => cases k <;> exact absurd hf id
    · refine ⟨id, by rw [Event.thread, hop]; rfl, ?_⟩
      rw [Event.thread] at hf ⊢
      cases c with
      | ret r =>
        rw [Sys.afterPush_ret, Sys.finish_calls] at hf
        exact absurd (hsome hf) (by simp)
      | goto pc' =>
        rw [Sys.afterPush_goto_calls] at hf
        rw [hop]
        exact pushStep_fails h hop hr hf
    · refine ⟨id, by rw [Event.thread, hop]; rfl, ?_⟩
      rw [Event.thread] at hf ⊢
      cases c with
      | ret r =>
        rw [Sys.afterTake_ret, Sys.finish_calls] at hf
        exact absurd (hsome hf) (by simp)
      | goto pc' =>
        rw [Sys.afterTake_goto_calls] at hf
        exact Or.inr (takeStep_fails hr hf)
  · rw [Sys.step_calls_of_ne hs hne] at hf
    refine ⟨?_, hsome hf, Or.inl hf⟩
    cases e with
    | push u element => exact fun he => hne he.symm
    | take u dest => exact fun he => hne he.symm
    | step u ch => exact id

omit [DecidableEq τ] in
/-- A push returns at its last unlock. -/
theorem pc_of_push_returns {pc : PushPc} {r : Bool} (hop : s.calls t = some (.push element pc))
    (hret : s.returns t ch = some (r, dest)) : ∃ p, pc = .unlockPush p r := by
  simp only [Sys.returns, hop] at hret
  cases pc with
  | unlockPush p r' =>
    obtain ⟨rfl, -⟩ := Prod.mk.inj (Option.some.inj hret)
    exact ⟨p, rfl⟩
  | malloc p i sz nc =>
    unfold pushStep at hret
    cases hb : ch.block with
    | none => simp [hb] at hret
    | some b =>
      simp only [hb] at hret
      split_ifs at hret
  | lockPushLoad | lockPushCas | testFull | lockTakeLoad | lockTakeCas | retestFull |
    calcCapacity | move | copy =>
    simp only [pushStep] at hret
    split_ifs at hret
  | loadSize | reloadSize | free | setData | setCapacity | readData | advance | fetchAdd |
    unlockTake => simp [pushStep] at hret

omit [DecidableEq τ] in
/-- A take returns at its unlock, or where it found the queue empty. -/
theorem pc_of_take_returns {pc : TakePc} {r : Bool} {dest' : Region}
    (hop : s.calls t = some (.take dest pc)) (hret : s.returns t ch = some (r, dest')) :
    (∃ i, pc = .unlockTake i r) ∨ s.queue.size = 0 := by
  simp only [Sys.returns, hop] at hret
  cases pc with
  | loadSize =>
    by_cases hzero : s.shared.queue.size = 0
    · exact Or.inr hzero
    · simp [takeStep, hzero] at hret
  | unlockTake i r' =>
    obtain ⟨rfl, -⟩ := Prod.mk.inj (Option.some.inj hret)
    exact Or.inl ⟨i, rfl⟩
  | lockTakeLoad | lockTakeCas | reloadSize | copy =>
    simp only [takeStep] at hret
    split_ifs at hret
  | readData | advance | fetchSub => simp [takeStep] at hret

/-- A call that returns `false` was on its way to fail, or a take found the queue empty. -/
theorem returned_false {e : Event τ} (hs : s.step e = some s')
    (hret : s'.history.returned = s.history.returned ++ [⟨t, k, false⟩]) :
    (s.calls t).isSome ∧ (FailsAs k (s.calls t) ∨ Reason t k s []) := by
  obtain ⟨ch, op, rfl, hop, rfl, dest, hreturns⟩ := step_returns hs hret
  rw [hop]
  cases op with
  | push element pc =>
    obtain ⟨p, rfl⟩ := pc_of_push_returns hop hreturns
    exact ⟨rfl, Or.inl trivial⟩
  | take dest' pc =>
    rcases pc_of_take_returns hop hreturns with ⟨i, rfl⟩ | hzero
    · exact ⟨rfl, Or.inl trivial⟩
    · exact ⟨rfl, Or.inr hzero⟩

end Fails

/-! ### Runs -/

section Runs

variable {s0 s : Sys τ} {es : List (Event τ)} {t : τ}

theorem DuringCall.now {P : Sys τ → List (Event τ) → Prop} (hrun : Run.run Sys.step s0 es = some s)
    (hin : (s.calls t).isSome) (hP : P s []) : DuringCall s0 es t P :=
  ⟨es, [], s, (List.append_nil es).symm, hrun, hin, fun _ he => absurd he List.not_mem_nil, hP⟩

theorem DuringCall.last {P : Sys τ → List (Event τ) → Prop} {e : Event τ}
    (hrun : Run.run Sys.step s0 es = some s) (hin : (s.calls t).isSome) (he : ¬ e.Starts t)
    (hP : P s [e]) : DuringCall s0 (es ++ [e]) t P := by
  refine ⟨es, [e], s, rfl, hrun, hin, ?_, hP⟩
  intro e' he'
  rwa [List.mem_singleton.mp he']

theorem DuringCall.later {P : Sys τ → List (Event τ) → Prop} {e : Event τ}
    (h : DuringCall s0 es t P) (he : ¬ e.Starts t) (hP : ∀ s1 es2, P s1 es2 → P s1 (es2 ++ [e])) :
    DuringCall s0 (es ++ [e]) t P := by
  obtain ⟨es1, es2, s1, rfl, hrun, hin, hno, h1⟩ := h
  refine ⟨es1, es2 ++ [e], s1, List.append_assoc _ _ _, hrun, hin, ?_, hP _ _ h1⟩
  intro e' he'
  rcases List.mem_append.mp he' with he' | he'
  · exact hno e' he'
  · rwa [List.mem_singleton.mp he']

/-- If every state reached has a view, a call fails for a reason met during the call. -/
theorem fails_during (hinv : ∀ es s, Run.run Sys.step s0 es = some s → ∃ V, InvAt s V)
    (hstart : ∀ t, s0.calls t = none) (hrun : Run.run Sys.step s0 es = some s) :
    ∀ t k, FailsAs k (s.calls t) → DuringCall s0 es t (Reason t k) := by
  refine Run.run_induction (fun es s => ∀ t k, FailsAs k (s.calls t) →
    DuringCall s0 es t (Reason t k)) ?_ ?_ es s hrun
  · intro t k hf
    rw [hstart] at hf
    cases k <;> exact absurd hf id
  · intro es s e s' hrun ih hs t k hf
    obtain ⟨V, h⟩ := hinv es s hrun
    obtain ⟨hno, hin, hf | hreason⟩ := step_fails h hs hf
    · exact (ih t k hf).later hno fun _ _ hr => hr.append e
    · exact .last hrun hin hno hreason

end Runs

/-- The queue as one FIFO list, after the events `es`. -/
structure FifoAfter (s0 : Sys τ) (es : List (Event τ)) (s : Sys τ) : Prop where
  /-- What was pushed is what was taken and then what the memory holds. -/
  window : ∃ w, s.Window w
  elements : ∀ w, s.Window w → s.history.pushed = s.history.taken ++ s.contents w
  /-- A call returns `false` for a reason met during the call. -/
  fails : ∀ e s' t k, s.step e = some s' →
    s'.history.returned = s.history.returned ++ [⟨t, k, false⟩] → DuringCall s0 es t (Reason t k)
  /-- A call that returns `true` has pushed its element once, or taken once the one it leaves to its
  caller; a call that returns `false` has pushed and taken nothing. -/
  returns : ∀ e s' t k r, s.step e = some s' →
    s'.history.returned = s.history.returned ++ [⟨t, k, r⟩] → Recorded s0 es s e t k r

/-- **Linearizable FIFO**: whatever the interleaving of any number of threads, and of any growths. -/
theorem cyclicQueue_fifo {heap : Heap} {elementSize initialCapacity : ℕ}
    {block : Option (ℕ × Region)} {m : Shared} {max : ℕ}
    (hinit : cyclicQueueInit heap elementSize initialCapacity block = .ok m)
    (hcap : m.queue.capacity ≤ max) (hmax : max ≤ cyclicQueueMaxCapacity) (es : List (Event τ))
    (s : Sys τ) (hrun : Run.run Sys.step (Sys.start (m.setMaxCapacity max)) es = some s) :
    FifoAfter (Sys.start (m.setMaxCapacity max)) es s := by
  obtain ⟨V, h⟩ := exists_invAt hinit hcap hmax hrun
  refine ⟨h.exists_window, ?_, ?_, ?_⟩
  · intro w hw
    rw [h.contents_eq hw]
    exact h.history
  · intro e s' t k hs hret
    obtain ⟨hin, hf | hreason⟩ := returned_false hs hret
    · exact fails_during (fun _ _ => exists_invAt hinit hcap hmax) (fun _ => rfl) hrun t k hf
    · exact .now hrun hin hreason
  · intro e s' t k r hs hret
    exact recorded_of_returns (fun _ => rfl) hrun hs hret

theorem cyclicQueue_fifo_pushPushTake : ∃ s, Run.run Sys.step
    (Sys.start (oneByteQueue.setMaxCapacity 0x80)) pushPushTake = some s ∧
    s.history.pushed = [[7], [9]] ∧ s.history.taken = [[7]] ∧
    FifoAfter (Sys.start (oneByteQueue.setMaxCapacity 0x80)) pushPushTake s := by
  have h : (Run.run Sys.step (Sys.start (oneByteQueue.setMaxCapacity 0x80)) pushPushTake).map
      (fun s => (s.history.pushed, s.history.taken)) = some ([[7], [9]], [[7]]) := by decide +kernel
  obtain ⟨s, hs, he⟩ := Option.map_eq_some_iff.mp h
  obtain ⟨hpushed, htaken⟩ := Prod.mk.inj he
  exact ⟨s, hs, hpushed, htaken,
    cyclicQueue_fifo oneByteQueue_init (by decide) (by decide) pushPushTake s hs⟩

end Cryptochan.Queue
