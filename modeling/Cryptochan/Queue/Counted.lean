import Cryptochan.Queue.Model

/-!
# Cryptochan.Queue.Counted — what a call has done so far

A push puts its element into the queue at its `fetch_add`, a take gets one out at its `fetch_sub`.
`counted` says of a program point whether that has happened; each call returns what it says
(`pushStep_counts`, `takeStep_counts`), and one step of the system moves the history accordingly
(`step_push`, `step_take`).
-/

namespace Cryptochan.Queue

variable {τ : Type} {s s' : Sys τ} {t : τ} {ch : Choice} {element dest : Region} {m m' : Shared}

/-- The element is in the queue: the push is behind its `fetch_add`. -/
def PushPc.counted : PushPc → Bool
  | .unlockTake _ _ result | .unlockPush _ result => result
  | _ => false

/-- The element is out of the queue: the take is behind its `fetch_sub`. -/
def TakePc.counted : TakePc → Bool
  | .unlockTake _ result => result
  | _ => false

def PushPc.IsFetchAdd : PushPc → Prop
  | .fetchAdd _ _ => True
  | _ => False

def TakePc.IsFetchSub : TakePc → Prop
  | .fetchSub _ => True
  | _ => False

@[simp] theorem counted_unlockFrom (p i : ℕ) (r : Bool) : (unlockFrom p i r).counted = r := by
  unfold unlockFrom
  split_ifs <;> rfl

/-- What the next step of the call of `t` returns, if it is the last one, and what the caller's
`element` points at then. -/
def Sys.returns (s : Sys τ) (t : τ) (ch : Choice) : Option (Bool × Region) :=
  match s.calls t with
  | some (.push element pc) => match pushStep s.shared element ch pc with
    | some (_, .ret r) => some (r, element)
    | _ => none
  | some (.take dest pc) => match takeStep s.shared dest ch pc with
    | (_, dest', .ret r) => some (r, dest')
    | _ => none
  | none => none

/-- Only the `fetch_add` counts, and a push returns whether it counted. -/
structure PushCounts (m m' : Shared) (pc : PushPc) (c : Cont PushPc) : Prop where
  elementSize : m'.queue.elementSize = m.queue.elementSize
  goto : ∀ pc', c = .goto pc' → (pc.IsFetchAdd ∧ pc.counted = false ∧ pc'.counted = true) ∨
    (¬ pc.IsFetchAdd ∧ pc'.counted = pc.counted)
  ret : ∀ r, c = .ret r → ¬ pc.IsFetchAdd ∧ r = pc.counted

/-- Only the `fetch_sub` counts, a take returns whether it counted, and from then on it leaves
`element` alone. -/
structure TakeCounts (m m' : Shared) (dest dest' : Region) (pc : TakePc) (c : Cont TakePc) :
    Prop where
  elementSize : m'.queue.elementSize = m.queue.elementSize
  goto : ∀ pc', c = .goto pc' → (pc.IsFetchSub ∧ pc.counted = false ∧ pc'.counted = true) ∨
    (¬ pc.IsFetchSub ∧ pc'.counted = pc.counted)
  ret : ∀ r, c = .ret r → ¬ pc.IsFetchSub ∧ r = pc.counted
  dest : pc.IsFetchSub ∨ pc.counted = true → dest' = dest

theorem PushCounts.of_goto {pc pc1 : PushPc} {m1 : Shared} {c : Cont PushPc}
    (he : some (m1, Cont.goto pc1) = some (m', c))
    (hes : m1.queue.elementSize = m.queue.elementSize) (hnot : ¬ pc.IsFetchAdd)
    (hcount : pc1.counted = pc.counted) : PushCounts m m' pc c := by
  obtain ⟨rfl, rfl⟩ := Prod.mk.inj (Option.some.inj he)
  refine ⟨hes, fun pc' he' => Or.inr ⟨hnot, ?_⟩, fun r he' => absurd he' (by simp)⟩
  rwa [← Cont.goto.inj he']

theorem TakeCounts.of_goto {pc pc1 : TakePc} {m1 : Shared} {dest1 dest' : Region} {c : Cont TakePc}
    (he : (m1, dest1, Cont.goto pc1) = (m', dest', c))
    (hes : m1.queue.elementSize = m.queue.elementSize) (hnot : ¬ pc.IsFetchSub)
    (hcount : pc1.counted = pc.counted) (hdest : pc.counted = true → dest1 = dest) :
    TakeCounts m m' dest dest' pc c := by
  obtain ⟨rfl, he1⟩ := Prod.mk.inj he
  obtain ⟨rfl, rfl⟩ := Prod.mk.inj he1
  refine ⟨hes, fun pc' he' => Or.inr ⟨hnot, ?_⟩, fun r he' => absurd he' (by simp),
    fun h => hdest (h.resolve_left hnot)⟩
  rwa [← Cont.goto.inj he']

theorem TakeCounts.of_ret {pc : TakePc} {m1 : Shared} {dest' : Region} {r1 : Bool} {c : Cont TakePc}
    (he : (m1, dest, Cont.ret r1) = (m', dest', c))
    (hes : m1.queue.elementSize = m.queue.elementSize) (hnot : ¬ pc.IsFetchSub)
    (hcount : r1 = pc.counted) : TakeCounts m m' dest dest' pc c := by
  obtain ⟨rfl, he1⟩ := Prod.mk.inj he
  obtain ⟨rfl, rfl⟩ := Prod.mk.inj he1
  refine ⟨hes, fun pc' he' => absurd he' (by simp), fun r he' => ⟨hnot, ?_⟩, fun _ => rfl⟩
  rwa [← Cont.ret.inj he']

theorem setSize_elementSize (m : Shared) (n : ℕ) :
    (m.setSize n).queue.elementSize = m.queue.elementSize := rfl

theorem pushStep_counts {pc : PushPc} {c : Cont PushPc} (h : pushStep m element ch pc = some (m', c)) :
    PushCounts m m' pc c := by
  cases pc with
  | fetchAdd p i =>
    obtain ⟨rfl, rfl⟩ := Prod.mk.inj (Option.some.inj h)
    refine ⟨setSize_elementSize _ _, fun pc' he => Or.inl ⟨trivial, rfl, ?_⟩,
      fun r he => absurd he (by simp)⟩
    rw [← Cont.goto.inj he, counted_unlockFrom]
  | unlockPush p r =>
    obtain ⟨rfl, rfl⟩ := Prod.mk.inj (Option.some.inj h)
    exact ⟨rfl, fun pc' he => absurd he (by simp), fun r' he => ⟨id, (Cont.ret.inj he).symm⟩⟩
  | malloc p i sz nc =>
    unfold pushStep at h
    dsimp only at h
    cases hb : ch.block with
    | none =>
      rw [hb] at h
      exact .of_goto h rfl id (counted_unlockFrom _ _ _)
    | some b =>
      rw [hb] at h
      dsimp only at h
      split_ifs at h
      exact .of_goto h rfl id rfl
  | calcCapacity p i sz =>
    simp only [pushStep] at h
    split_ifs at h
    · exact .of_goto h rfl id (counted_unlockFrom _ _ _)
    · exact .of_goto h rfl id rfl
  | lockPushLoad | lockPushCas | testFull | lockTakeLoad | lockTakeCas | retestFull | move | copy =>
    simp only [pushStep] at h
    split_ifs at h <;> exact .of_goto h rfl id rfl
  | loadSize | reloadSize | free | setData | setCapacity | readData | advance | unlockTake =>
    exact .of_goto h rfl id rfl

theorem takeStep_counts {pc : TakePc} {c : Cont TakePc} {dest' : Region}
    (h : takeStep m dest ch pc = (m', dest', c)) : TakeCounts m m' dest dest' pc c := by
  cases pc with
  | fetchSub i =>
    obtain ⟨rfl, he⟩ := Prod.mk.inj h
    obtain ⟨rfl, rfl⟩ := Prod.mk.inj he
    refine ⟨setSize_elementSize _ _, fun pc' he' => Or.inl ⟨trivial, rfl, ?_⟩,
      fun r he' => absurd he' (by simp), fun _ => rfl⟩
    rw [← Cont.goto.inj he']
    rfl
  | unlockTake i r => exact .of_ret h rfl id rfl
  | loadSize =>
    simp only [takeStep] at h
    split_ifs at h
    · exact .of_ret h rfl id rfl
    · exact .of_goto h rfl id rfl fun _ => rfl
  | lockTakeLoad | lockTakeCas | reloadSize =>
    simp only [takeStep] at h
    split_ifs at h <;> exact .of_goto h rfl id rfl fun _ => rfl
  | copy i a k =>
    simp only [takeStep] at h
    split_ifs at h
    · exact .of_goto h rfl id rfl fun he => absurd he (by simp [TakePc.counted])
    · exact .of_goto h rfl id rfl fun _ => rfl
  | readData | advance => exact .of_goto h rfl id rfl fun _ => rfl

/-! ### One step of a call -/

variable [DecidableEq τ]

/-- A step of the push of `t`: it goes on, and may count the element, or it returns. -/
theorem step_push {pc : PushPc} (hop : s.calls t = some (.push element pc))
    (hs : s.step (.step t ch) = some s') :
    s'.queue.elementSize = s.queue.elementSize ∧ s'.history.taken = s.history.taken ∧
    ((∃ pc', s.returns t ch = none ∧ s'.calls t = some (.push element pc') ∧
      ((pc.counted = false ∧ pc'.counted = true ∧
          s'.history.pushed = s.history.pushed ++ [bytes element s.queue.elementSize]) ∨
        (pc'.counted = pc.counted ∧ s'.history.pushed = s.history.pushed))) ∨
      (s.returns t ch = some (pc.counted, element) ∧ s'.calls t = none ∧
        s'.history.pushed = s.history.pushed)) := by
  simp only [Sys.step, hop, Option.map_eq_some_iff] at hs
  obtain ⟨⟨m, c⟩, hr, rfl⟩ := hs
  obtain ⟨hes, hgoto, hret⟩ := pushStep_counts hr
  refine ⟨by rw [Sys.queue, Sys.afterPush_shared, hes], ?_⟩
  cases c with
  | ret r =>
    obtain ⟨-, rfl⟩ := hret r rfl
    refine ⟨rfl, Or.inr ⟨?_, Sys.finish_calls, rfl⟩⟩
    simp only [Sys.returns, hop, hr]
  | goto pc' =>
    have hnone : s.returns t ch = none := by simp only [Sys.returns, hop, hr]
    rcases hgoto pc' rfl with ⟨hadd, hc, hc'⟩ | ⟨hadd, hc⟩
    · cases pc with
      | fetchAdd p i =>
        exact ⟨rfl, Or.inl ⟨pc', hnone, Sys.afterPush_goto_calls, Or.inl ⟨hc, hc', rfl⟩⟩⟩
      | _ => exact hadd.elim
    · have hhist : (s.afterPush t element pc (m, .goto pc')).history = s.history := by
        cases pc with
        | fetchAdd p i => exact absurd trivial hadd
        | _ => rfl
      rw [hhist]
      exact ⟨rfl, Or.inl ⟨pc', hnone, Sys.afterPush_goto_calls, Or.inr ⟨hc, rfl⟩⟩⟩

/-- A step of the take of `t`. -/
theorem step_take {pc : TakePc} (hop : s.calls t = some (.take dest pc))
    (hs : s.step (.step t ch) = some s') :
    s'.queue.elementSize = s.queue.elementSize ∧ s'.history.pushed = s.history.pushed ∧
    ((∃ dest' pc', s.returns t ch = none ∧ s'.calls t = some (.take dest' pc') ∧
      ((pc.counted = false ∧ pc'.counted = true ∧
          s'.history.taken = s.history.taken ++ [bytes dest' s.queue.elementSize]) ∨
        (pc'.counted = pc.counted ∧ (pc.counted = true → dest' = dest) ∧
          s'.history.taken = s.history.taken))) ∨
      (∃ dest', s.returns t ch = some (pc.counted, dest') ∧ (pc.counted = true → dest' = dest) ∧
        s'.calls t = none ∧ s'.history.taken = s.history.taken)) := by
  simp only [Sys.step, hop, Option.some.injEq] at hs
  obtain ⟨m, dest', c, hr⟩ : ∃ m dest' c, takeStep s.shared dest ch pc = (m, dest', c) :=
    ⟨_, _, _, rfl⟩
  rw [hr] at hs
  obtain rfl := hs
  obtain ⟨hes, hgoto, hret, hdest⟩ := takeStep_counts hr
  refine ⟨by rw [Sys.queue, Sys.afterTake_shared, hes], ?_⟩
  cases c with
  | ret r =>
    obtain ⟨-, rfl⟩ := hret r rfl
    refine ⟨rfl, Or.inr ⟨dest', ?_, fun hc => hdest (Or.inr hc), Sys.finish_calls, rfl⟩⟩
    simp only [Sys.returns, hop, hr]
  | goto pc' =>
    have hnone : s.returns t ch = none := by simp only [Sys.returns, hop, hr]
    rcases hgoto pc' rfl with ⟨hsub, hc, hc'⟩ | ⟨hsub, hc⟩
    · cases pc with
      | fetchSub i =>
        obtain rfl := hdest (Or.inl trivial)
        exact ⟨rfl, Or.inl ⟨dest', pc', hnone, Sys.afterTake_goto_calls, Or.inl ⟨hc, hc', rfl⟩⟩⟩
      | _ => exact hsub.elim
    · have hhist : (s.afterTake t pc (m, dest', .goto pc')).history = s.history := by
        cases pc with
        | fetchSub i => exact absurd trivial hsub
        | _ => rfl
      rw [hhist]
      exact ⟨rfl, Or.inl ⟨dest', pc', hnone, Sys.afterTake_goto_calls,
        Or.inr ⟨hc, fun h => hdest (Or.inr h), rfl⟩⟩⟩

/-! ### The call a thread is in -/

def Op.kind : Op → Kind
  | .push _ _ => .push
  | .take _ _ => .take

/-- The event that starts a call of `t`. -/
def Kind.start (k : Kind) (t : τ) (element : Region) : Event τ :=
  match k with
  | .push => .push t element
  | .take => .take t element

/-- The event starts a call of the thread. -/
def Event.Starts (t : τ) : Event τ → Prop
  | .push u _ | .take u _ => u = t
  | .step _ _ => False

/-- What a step of `t` appends to the elements pushed. -/
def pushedBy (t : τ) (s : Sys τ) (e : Event τ) (s' : Sys τ) : List Element :=
  if e.thread = t then s'.history.pushed.drop s.history.pushed.length else []

/-- What a step of `t` appends to the elements taken. -/
def takenBy (t : τ) (s : Sys τ) (e : Event τ) (s' : Sys τ) : List Element :=
  if e.thread = t then s'.history.taken.drop s.history.taken.length else []

/-- The last call of `t` in the events `es` from `s0` on: it was started as a call of kind `k` on
`element`, and the steps of `t` since then have pushed and taken these elements. -/
def CallOf (s0 : Sys τ) (es : List (Event τ)) (t : τ) (k : Kind) (element : Region)
    (pushed taken : List Element) : Prop :=
  ∃ es1 s1 es2, es = es1 ++ k.start t element :: es2 ∧ Run.run Sys.step s0 es1 = some s1 ∧
    (∀ e ∈ es2, ¬ e.Starts t) ∧
    Run.outputs Sys.step (pushedBy t) s1 (k.start t element :: es2) = pushed ∧
    Run.outputs Sys.step (takenBy t) s1 (k.start t element :: es2) = taken

/-- What a call has pushed, when the elements have `n` bytes. -/
def Op.pushed (n : ℕ) : Op → List Element
  | .push element pc => if pc.counted then [bytes element n] else []
  | .take _ _ => []

/-- What a call has taken. -/
def Op.taken (n : ℕ) : Op → List Element
  | .push _ _ => []
  | .take dest pc => if pc.counted then [bytes dest n] else []

/-- A push never changes the bytes it was given. -/
def Op.On (element : Region) : Op → Prop
  | .push element' _ => element' = element
  | .take _ _ => True

section Calls

variable {s0 : Sys τ} {es : List (Event τ)} {e : Event τ} {k : Kind} {r : Bool} {op : Op}
  {xs ys : List Element}

theorem pushedBy_of_append (ht : e.thread = t) (h : s'.history.pushed = s.history.pushed ++ xs) :
    pushedBy t s e s' = xs := by
  rw [pushedBy, if_pos ht, h, List.drop_left]

theorem takenBy_of_append (ht : e.thread = t) (h : s'.history.taken = s.history.taken ++ xs) :
    takenBy t s e s' = xs := by
  rw [takenBy, if_pos ht, h, List.drop_left]

theorem pushedBy_step (h : s'.history.pushed = s.history.pushed ++ xs) :
    pushedBy t s (.step t ch) s' = xs := pushedBy_of_append rfl h

theorem takenBy_step (h : s'.history.taken = s.history.taken ++ xs) :
    takenBy t s (.step t ch) s' = xs := takenBy_of_append rfl h

theorem CallOf.start (hrun : Run.run Sys.step s0 es = some s)
    (hs : s.step (k.start t element) = some s') (hhist : s'.history = s.history) :
    CallOf s0 (es ++ [k.start t element]) t k element [] [] := by
  have ht : (k.start t element : Event τ).thread = t := by cases k <;> rfl
  refine ⟨es, s, [], rfl, hrun, fun _ he => absurd he List.not_mem_nil, ?_, ?_⟩
  · rw [Run.outputs_singleton hs]
    exact pushedBy_of_append ht (by rw [hhist, List.append_nil])
  · rw [Run.outputs_singleton hs]
    exact takenBy_of_append ht (by rw [hhist, List.append_nil])

theorem CallOf.later (h : CallOf s0 es t k element xs ys) (hrun : Run.run Sys.step s0 es = some s)
    (hs : s.step e = some s') (he : ¬ e.Starts t) :
    CallOf s0 (es ++ [e]) t k element (xs ++ pushedBy t s e s') (ys ++ takenBy t s e s') := by
  obtain ⟨es1, s1, es2, rfl, h1, hno, rfl, rfl⟩ := h
  rw [Run.run_append, h1] at hrun
  refine ⟨es1, s1, es2 ++ [e], List.append_assoc _ _ _, h1, ?_, ?_, ?_⟩
  · intro e' he'
    rcases List.mem_append.mp he' with he' | he'
    · exact hno e' he'
    · rwa [List.mem_singleton.mp he']
  · exact Run.outputs_snoc hrun hs
  · exact Run.outputs_snoc hrun hs

/-- The steps of the other threads are not those of `t`. -/
theorem CallOf.other (h : CallOf s0 es t k element xs ys) (hrun : Run.run Sys.step s0 es = some s)
    (hs : s.step e = some s') (hne : t ≠ e.thread) : CallOf s0 (es ++ [e]) t k element xs ys := by
  have hstart : ¬ e.Starts t := by
    cases e with
    | push u element => exact fun he => hne he.symm
    | take u dest => exact fun he => hne he.symm
    | step u ch => exact id
  have hp : pushedBy t s e s' = [] := if_neg hne.symm
  have hq : takenBy t s e s' = [] := if_neg hne.symm
  have hl := h.later hrun hs hstart
  rwa [hp, hq, List.append_nil, List.append_nil] at hl

/-- The size of the elements never changes. -/
theorem step_elementSize (hs : s.step e = some s') : s'.queue.elementSize = s.queue.elementSize := by
  rcases Sys.step_cases hs with ⟨op, -, -, rfl⟩ | ⟨t, ch, element, pc, m, c, rfl, hop, -, -⟩ |
    ⟨t, ch, dest, pc, m, dest', c, rfl, hop, -, -⟩
  · rfl
  · exact (step_push hop hs).1
  · exact (step_take hop hs).1

/-- A thread starts a call. -/
theorem callOf_start (hrun : Run.run Sys.step s0 es = some s)
    (hs : s.step (k.start t element) = some s') (hop : s'.calls t = some op) :
    op.On element ∧ CallOf s0 (es ++ [k.start t element]) t op.kind element
      (op.pushed s'.queue.elementSize) (op.taken s'.queue.elementSize) := by
  cases k with
  | push =>
    have hi : s.invoke t (.push element .lockPushLoad) = some s' := hs
    unfold Sys.invoke at hi
    split_ifs at hi
    obtain rfl := Option.some.inj hi
    dsimp only at hop
    rw [Function.update_self] at hop
    obtain rfl := Option.some.inj hop
    exact ⟨rfl, CallOf.start (k := .push) hrun hs rfl⟩
  | take =>
    have hi : s.invoke t (.take element .loadSize) = some s' := hs
    unfold Sys.invoke at hi
    split_ifs at hi
    obtain rfl := Option.some.inj hi
    dsimp only at hop
    rw [Function.update_self] at hop
    obtain rfl := Option.some.inj hop
    exact ⟨trivial, CallOf.start (k := .take) hrun hs rfl⟩

/-- A push goes on. -/
theorem callOf_push {pc : PushPc} (hrun : Run.run Sys.step s0 es = some s)
    (hcall : CallOf s0 es t .push element (Op.pushed s.queue.elementSize (.push element pc)) [])
    (hop : s.calls t = some (.push element pc)) (hs : s.step (.step t ch) = some s')
    (hop' : s'.calls t = some op) :
    op.On element ∧ CallOf s0 (es ++ [.step t ch]) t op.kind element
      (op.pushed s'.queue.elementSize) (op.taken s'.queue.elementSize) := by
  obtain ⟨hes, htaken, ⟨pc', -, hpc', hmove⟩ | ⟨-, hnone, -⟩⟩ := step_push hop hs
  · rw [hpc'] at hop'
    obtain rfl := Option.some.inj hop'
    have hl := hcall.later hrun hs id
    rw [takenBy_step (htaken.trans (List.append_nil _).symm)] at hl
    rw [hes]
    refine ⟨rfl, ?_⟩
    rcases hmove with ⟨hc, hc', hpush⟩ | ⟨hc, hpush⟩
    · rw [pushedBy_step hpush] at hl
      simpa [Op.pushed, Op.taken, Op.kind, hc, hc'] using hl
    · rw [pushedBy_step (hpush.trans (List.append_nil _).symm)] at hl
      simpa [Op.pushed, Op.taken, Op.kind, hc] using hl
  · rw [hop'] at hnone
    exact absurd hnone (by simp)

/-- A take goes on. -/
theorem callOf_take {pc : TakePc} (hrun : Run.run Sys.step s0 es = some s)
    (hcall : CallOf s0 es t .take element [] (Op.taken s.queue.elementSize (.take dest pc)))
    (hop : s.calls t = some (.take dest pc)) (hs : s.step (.step t ch) = some s')
    (hop' : s'.calls t = some op) :
    op.On element ∧ CallOf s0 (es ++ [.step t ch]) t op.kind element
      (op.pushed s'.queue.elementSize) (op.taken s'.queue.elementSize) := by
  obtain ⟨hes, hpushed, ⟨dest', pc', -, hpc', hmove⟩ | ⟨dest', -, -, hnone, -⟩⟩ := step_take hop hs
  · rw [hpc'] at hop'
    obtain rfl := Option.some.inj hop'
    have hl := hcall.later hrun hs id
    rw [pushedBy_step (hpushed.trans (List.append_nil _).symm)] at hl
    rw [hes]
    refine ⟨trivial, ?_⟩
    rcases hmove with ⟨hc, hc', htake⟩ | ⟨hc, hdest, htake⟩
    · rw [takenBy_step htake] at hl
      simpa [Op.pushed, Op.taken, Op.kind, hc, hc'] using hl
    · rw [takenBy_step (htake.trans (List.append_nil _).symm)] at hl
      cases hcount : pc.counted with
      | false => simpa [Op.pushed, Op.taken, Op.kind, hc, hcount] using hl
      | true =>
        obtain rfl := hdest hcount
        simpa [Op.pushed, Op.taken, Op.kind, hc, hcount] using hl
  · rw [hop'] at hnone
    exact absurd hnone (by simp)

/-- **Run lemma**: what the calls in progress have pushed and taken. -/
theorem exists_callOf (hstart : ∀ t, s0.calls t = none) (hrun : Run.run Sys.step s0 es = some s) :
    ∀ t op, s.calls t = some op → ∃ element, op.On element ∧ CallOf s0 es t op.kind element
      (op.pushed s.queue.elementSize) (op.taken s.queue.elementSize) := by
  refine Run.run_induction (fun es s => ∀ t op, s.calls t = some op → ∃ element, op.On element ∧
    CallOf s0 es t op.kind element (op.pushed s.queue.elementSize) (op.taken s.queue.elementSize))
    ?_ ?_ es s hrun
  · intro t op hop
    rw [hstart] at hop
    exact absurd hop (by simp)
  · intro es s e s' hrun ih hs t op hop'
    by_cases hne : t = e.thread
    · subst hne
      cases e with
      | push t element => exact ⟨element, callOf_start (k := .push) hrun hs hop'⟩
      | take t dest => exact ⟨dest, callOf_start (k := .take) hrun hs hop'⟩
      | step t ch =>
        rw [Event.thread] at hop'
        cases hop : s.calls t with
        | none => simp [Sys.step, hop] at hs
        | some op0 =>
          obtain ⟨element, hon, hcall⟩ := ih t op0 hop
          cases op0 with
          | push element' pc =>
            obtain rfl : element' = element := hon
            exact ⟨_, callOf_push hrun hcall hop hs hop'⟩
          | take dest pc => exact ⟨_, callOf_take hrun hcall hop hs hop'⟩
    · rw [Sys.step_calls_of_ne hs hne] at hop'
      obtain ⟨element, hon, hcall⟩ := ih t op hop'
      rw [step_elementSize hs]
      exact ⟨element, hon, hcall.other hrun hs hne⟩

/-! ### The call that returns -/

/-- A step that makes a call return is its last one. -/
theorem step_returns (hs : s.step e = some s')
    (hret : s'.history.returned = s.history.returned ++ [⟨t, k, r⟩]) :
    ∃ ch op, e = .step t ch ∧ s.calls t = some op ∧ op.kind = k ∧
      ∃ dest, s.returns t ch = some (r, dest) := by
  have hself : ∀ {l : List (Return τ)} {x}, l ≠ l ++ [x] := by
    intro l x he
    simpa using congrArg List.length he
  rcases Sys.step_cases hs with ⟨op, -, -, rfl⟩ | ⟨u, ch, element, pc, m, c, rfl, hop, hr, rfl⟩ |
    ⟨u, ch, dest, pc, m, dest', c, rfl, hop, hr, rfl⟩
  · exact absurd hret hself
  · cases c with
    | goto pc' =>
      rw [Sys.afterPush_goto_returned] at hret
      exact absurd hret hself
    | ret r' =>
      rw [Sys.afterPush_ret, Sys.finish_returned] at hret
      obtain ⟨rfl, rfl, rfl⟩ : u = t ∧ Kind.push = k ∧ r' = r := by
        simpa using List.append_cancel_left hret
      exact ⟨ch, _, rfl, hop, rfl, element, by simp only [Sys.returns, hop, hr]⟩
  · cases c with
    | goto pc' =>
      rw [Sys.afterTake_goto_returned] at hret
      exact absurd hret hself
    | ret r' =>
      rw [Sys.afterTake_ret, Sys.finish_returned] at hret
      obtain ⟨rfl, rfl, rfl⟩ : u = t ∧ Kind.take = k ∧ r' = r := by
        simpa using List.append_cancel_left hret
      exact ⟨ch, _, rfl, hop, rfl, dest', by simp only [Sys.returns, hop, hr]⟩

/-- The call of `t` returns `r` at the event `e`: from its start to this event the steps of `t` have
pushed the element it was given, or taken the one that its `element` points at now, if `r` is `true`,
and otherwise nothing. -/
def Recorded (s0 : Sys τ) (es : List (Event τ)) (s : Sys τ) (e : Event τ) (t : τ) (k : Kind)
    (r : Bool) : Prop :=
  ∃ ch element dest, e = .step t ch ∧ s.returns t ch = some (r, dest) ∧
    CallOf s0 (es ++ [e]) t k element
      (if k = .push ∧ r = true then [bytes element s.queue.elementSize] else [])
      (if k = .take ∧ r = true then [bytes dest s.queue.elementSize] else [])

/-- Every call that returns is recorded so. -/
theorem recorded_of_returns (hstart : ∀ t, s0.calls t = none)
    (hrun : Run.run Sys.step s0 es = some s) (hs : s.step e = some s')
    (hret : s'.history.returned = s.history.returned ++ [⟨t, k, r⟩]) : Recorded s0 es s e t k r := by
  obtain ⟨ch, op, rfl, hop, rfl, dest, hreturns⟩ := step_returns hs hret
  obtain ⟨element, hon, hcall⟩ := exists_callOf hstart hrun t op hop
  refine ⟨ch, element, dest, rfl, hreturns, ?_⟩
  have hl := hcall.later hrun hs id
  cases op with
  | push element' pc =>
    obtain rfl : element' = element := hon
    obtain ⟨-, htaken, ⟨pc', hnone, -, -⟩ | ⟨hsome, -, hpush⟩⟩ := step_push hop hs
    · rw [hreturns] at hnone
      exact absurd hnone (by simp)
    · rw [pushedBy_step (hpush.trans (List.append_nil _).symm),
        takenBy_step (htaken.trans (List.append_nil _).symm)] at hl
      obtain ⟨rfl, rfl⟩ : r = pc.counted ∧ dest = element' := by
        simpa using hreturns.symm.trans hsome
      simpa [Op.pushed, Op.taken, Op.kind] using hl
  | take dest0 pc =>
    obtain ⟨-, hpushed, ⟨dest', pc', hnone, -, -⟩ | ⟨dest', hsome, hdest, -, htake⟩⟩ :=
      step_take hop hs
    · rw [hreturns] at hnone
      exact absurd hnone (by simp)
    · rw [pushedBy_step (hpushed.trans (List.append_nil _).symm),
        takenBy_step (htake.trans (List.append_nil _).symm)] at hl
      obtain ⟨rfl, rfl⟩ : r = pc.counted ∧ dest = dest' := by
        simpa using hreturns.symm.trans hsome
      cases hcount : pc.counted with
      | false => simpa [Op.pushed, Op.taken, Op.kind, hcount] using hl
      | true =>
        obtain rfl := hdest hcount
        simpa [Op.pushed, Op.taken, Op.kind, hcount] using hl

end Calls

end Cryptochan.Queue
