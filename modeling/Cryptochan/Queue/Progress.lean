import Cryptochan.Queue.Sequential

/-!
# Cryptochan.Queue.Progress — the queue never deadlocks

A thread that waits in `__LOCK_IDX` spins.  The owner of the take lock never spins: its own steps
lead it to its unlock (`rank` goes down).  The owner of the push lock can spin only for the take
lock, so when that one is given back its own steps lead it to its unlock as well.  All this whatever
`malloc` answers on the way (`Run.Forces`).
-/

namespace Cryptochan.Queue

variable {τ : Type} {s s' : Sys τ} {V : View} {t u : τ} {m m' : Shared}
  {element dest dest' : Region} {ch : Choice} {c : Option Op}

/-! ### Statement -/

/-- The next step is a futile one: a load of `UINT32_MAX` in `__LOCK_IDX`. -/
def Spins (q : CyclicQueue) : Option Op → Prop
  | some (.push _ .lockPushLoad) => q.pushIdx = uint32Max
  | some (.push _ (.lockTakeLoad _)) | some (.take _ .lockTakeLoad) => q.takeIdx = uint32Max
  | _ => False

/-- The call is in `__LOCK_IDX` of `push_idx`. -/
def WaitsForPush : Option Op → Prop
  | some (.push _ .lockPushLoad) | some (.push _ (.lockPushCas _)) => True
  | _ => False

/-- The answer of `malloc` to the request of a push that grows. -/
def Malloc.answer (malloc : Malloc) (m : Shared) : Choice :=
  ⟨false, malloc.get m.heap (newBytes m.queue)⟩

/-- A thread of `A` does a step, with the answer of `malloc`. -/
def Sys.turnOf [DecidableEq τ] (A : τ → Prop) (s : Sys τ) (u : {u // A u}) (malloc : Malloc) :
    Option (Sys τ) := s.step (.step u (malloc.answer s.shared))

/-- `t` itself, or the owner of the take lock. -/
def Sys.Involved (s : Sys τ) (t u : τ) : Prop := u = t ∨ OwnsTake (s.calls u)

structure Sys.NeverStuck [DecidableEq τ] (s : Sys τ) : Prop where
  /-- While some call has not returned, some thread has a step that is not a futile one. -/
  advances : ∀ t, (s.calls t).isSome → ∃ u, ¬ Spins s.queue (s.calls u) ∧
    ∀ malloc : Malloc, ∃ s', s.step (.step u (malloc.answer s.shared)) = some s'
  /-- Who owns the push lock can come to its unlock, if the owner of the take lock comes to its. -/
  pushLocked : s.queue.pushIdx = uint32Max → ∃ t, OwnsPush (s.calls t) ∧
    Run.Forces (Sys.turnOf (s.Involved t))
      (fun s' => ¬ OwnsPush (s'.calls t) ∧ s'.queue.pushIdx ≠ uint32Max) s
  /-- Who owns the take lock can come to its unlock alone. -/
  takeLocked : s.queue.takeIdx = uint32Max → ∃ t, OwnsTake (s.calls t) ∧
    Run.Forces (Sys.turnOf (· = t))
      (fun s' => ¬ OwnsTake (s'.calls t) ∧ s'.queue.takeIdx ≠ uint32Max) s
  takeOwner : ∀ t, OwnsTake (s.calls t) → ¬ WaitsForPush (s.calls t)
  /-- A call that returns leaves no lock behind: an index still locked has an owner in a call. -/
  returns : ∀ e s', s.step e = some s' → s'.history.returned ≠ s.history.returned →
    s'.calls e.thread = none ∧ (s'.queue.pushIdx = uint32Max → ∃ u, OwnsPush (s'.calls u)) ∧
    (s'.queue.takeIdx = uint32Max → ∃ u, OwnsTake (s'.calls u))

/-! ### How far a call is from its unlock -/

/-- More bytes than the growth ever moves. -/
def moveBound : ℕ := 2 ^ 33

theorem moveLength_le (q : CyclicQueue) (takeIdx size : ℕ) :
    moveLength q takeIdx size ≤ moveBound := by
  have hmul : ∀ a b, u32Mul a b < 2 ^ 32 := fun a b => Nat.mod_lt _ (by decide)
  unfold moveLength moveBound
  dsimp only
  split_ifs
  · have h1 := hmul (u32Sub q.capacity takeIdx) q.elementSize
    have h2 := hmul (u32Sub size (u32Sub q.capacity takeIdx)) q.elementSize
    omega
  · have h1 := hmul size q.elementSize
    omega

/-- A bound on the number of steps that the owner of the push lock still does, unless a spurious
failure or another thread's take lock sends it back. -/
def PushPc.rank (m : Shared) : PushPc → ℕ
  | lockPushLoad | lockPushCas _ => 0
  | unlockPush _ _ => 1
  | unlockTake _ _ _ => 2
  | fetchAdd _ _ => 3
  | advance _ _ => 4
  | copy _ _ _ k => 5 + (m.queue.elementSize - k)
  | readData _ _ => 6 + m.queue.elementSize
  | setCapacity _ _ => 7 + m.queue.elementSize
  | setData _ _ _ => 8 + m.queue.elementSize
  | free _ _ _ => 9 + m.queue.elementSize
  | move _ t sz _ _ k => 10 + m.queue.elementSize + (moveLength m.queue t sz - k)
  | malloc _ _ _ _ => 11 + m.queue.elementSize + moveBound
  | calcCapacity _ _ _ => 12 + m.queue.elementSize + moveBound
  | retestFull _ _ _ => 13 + m.queue.elementSize + moveBound
  | reloadSize _ _ => 14 + m.queue.elementSize + moveBound
  | lockTakeCas _ t => (if m.queue.takeIdx = t then 15 else 17) + m.queue.elementSize + moveBound
  | lockTakeLoad _ => 16 + m.queue.elementSize + moveBound
  | testFull _ _ => 18 + m.queue.elementSize + moveBound
  | loadSize _ => 19 + m.queue.elementSize + moveBound

def TakePc.rank (m : Shared) : TakePc → ℕ
  | loadSize | lockTakeLoad | lockTakeCas _ => 0
  | unlockTake _ _ => 1
  | fetchSub _ => 2
  | advance _ => 3
  | copy _ _ k => 4 + (m.queue.elementSize - k)
  | readData _ => 5 + m.queue.elementSize
  | reloadSize _ => 6 + m.queue.elementSize

def rank (m : Shared) : Option Op → ℕ
  | none => 0
  | some (.push _ pc) => pc.rank m
  | some (.take _ pc) => pc.rank m

theorem rank_unlockFrom (p i : ℕ) (r : Bool) : (unlockFrom p i r).rank m ≤ 2 := by
  unfold unlockFrom
  split_ifs
  · exact le_rfl
  · exact Nat.le_succ 1

theorem rank_goto {pc0 pc pc' : PushPc} {m1 : Shared}
    (he : some (m1, Cont.goto pc0) = some (m', .goto pc'))
    (h : pc0.rank m1 < pc.rank m) : pc'.rank m' < pc.rank m := by
  obtain ⟨rfl, hgoto⟩ := Prod.mk.inj (Option.some.inj he)
  obtain rfl := Cont.goto.inj hgoto
  exact h

/-- A step of the owner of the push lock that neither spins nor fails spuriously. -/
theorem pushStep_rank {pc pc' : PushPc} (hown : pc.OwnsPush)
    (hspin : ¬ Spins m.queue (some (.push element pc))) (hch : ch.spurious = false)
    (hr : pushStep m element ch pc = some (m', .goto pc')) : pc'.rank m' < pc.rank m := by
  cases pc with
  | lockPushLoad | lockPushCas => exact absurd hown id
  | loadSize | reloadSize | free | setData | setCapacity | readData | advance | unlockTake =>
    exact rank_goto hr (by simp [PushPc.rank, Shared.withQueue])
  | fetchAdd p i => exact rank_goto hr (Nat.lt_succ_of_le (rank_unlockFrom _ _ _))
  | unlockPush => simp [pushStep] at hr
  | testFull p sz =>
    simp only [pushStep] at hr
    split_ifs at hr
    · exact rank_goto hr (by simp [PushPc.rank])
    · exact rank_goto hr (by simp only [PushPc.rank]; omega)
  | retestFull p i sz =>
    simp only [pushStep] at hr
    split_ifs at hr
    · exact rank_goto hr (by simp [PushPc.rank])
    · exact rank_goto hr (by simp only [PushPc.rank]; omega)
  | lockTakeLoad p =>
    simp only [pushStep] at hr
    split_ifs at hr with hlocked
    · exact absurd hlocked hspin
    · exact rank_goto hr (by simp [PushPc.rank])
  | lockTakeCas p i =>
    simp only [pushStep, hch, and_true] at hr
    split_ifs at hr with hcas
    · exact rank_goto hr (by simp [PushPc.rank, hcas, Shared.setTakeIdx, Shared.withQueue])
    · exact rank_goto hr (by simp [PushPc.rank, hcas])
  | calcCapacity p i sz =>
    simp only [pushStep] at hr
    split_ifs at hr
    · refine rank_goto hr ((rank_unlockFrom _ _ _).trans_lt ?_)
      simp only [PushPc.rank]
      omega
    · exact rank_goto hr (by simp [PushPc.rank])
  | malloc p i sz nc =>
    unfold pushStep at hr
    dsimp only at hr
    cases hb : ch.block with
    | none =>
      rw [hb] at hr
      refine rank_goto hr ((rank_unlockFrom _ _ _).trans_lt ?_)
      simp only [PushPc.rank]
      omega
    | some b =>
      rw [hb] at hr
      dsimp only at hr
      split_ifs at hr
      refine rank_goto hr ?_
      have := moveLength_le m.queue i sz
      simp only [PushPc.rank]
      omega
  | move p i sz nc nb k =>
    simp only [pushStep] at hr
    split_ifs at hr with hk
    · refine rank_goto hr ?_
      simp only [PushPc.rank, Shared.storeByte]
      omega
    · exact rank_goto hr (by simp only [PushPc.rank]; omega)
  | copy p i addr k =>
    simp only [pushStep] at hr
    split_ifs at hr with hk
    · refine rank_goto hr ?_
      simp only [PushPc.rank, Shared.storeByte]
      omega
    · exact rank_goto hr (by simp only [PushPc.rank]; omega)

theorem takeStep_rank {pc pc' : TakePc} (hown : pc.OwnsTake)
    (hr : takeStep m dest ch pc = (m', dest', .goto pc')) : pc'.rank m' < pc.rank m := by
  have hgoto : ∀ {m1 d1 pc0}, (m1, d1, Cont.goto pc0) = (m', dest', Cont.goto pc') →
      pc0.rank m1 < pc.rank m → pc'.rank m' < pc.rank m := by
    intro m1 d1 pc0 he hlt
    obtain ⟨rfl, hrest⟩ := Prod.mk.inj he
    obtain rfl := Cont.goto.inj (Prod.mk.inj hrest).2
    exact hlt
  cases pc with
  | loadSize | lockTakeLoad | lockTakeCas => exact absurd hown id
  | readData | advance | fetchSub => exact hgoto hr (by simp [TakePc.rank])
  | unlockTake => simp [takeStep] at hr
  | reloadSize i =>
    simp only [takeStep] at hr
    split_ifs at hr
    · exact hgoto hr (by simp only [TakePc.rank]; omega)
    · exact hgoto hr (by simp [TakePc.rank])
  | copy i addr k =>
    simp only [takeStep] at hr
    split_ifs at hr with hk
    · exact hgoto hr (by simp only [TakePc.rank]; omega)
    · exact hgoto hr (by simp only [TakePc.rank]; omega)

theorem isSome_of_owns (h : OwnsPush c ∨ OwnsTake c) : c.isSome := by
  cases c with
  | none => exact absurd h (by simp [OwnsPush, OwnsTake])
  | some op => rfl

theorem rank_pos (h : OwnsPush c ∨ OwnsTake c) : 0 < rank m c := by
  match c, h with
  | none, h => exact absurd (isSome_of_owns h) (by simp)
  | some (.push _ pc), h =>
    cases pc with
    | lockPushLoad | lockPushCas => exact h.elim False.elim False.elim
    | lockTakeCas p i =>
      simp only [rank, PushPc.rank]
      split_ifs <;> omega
    | _ =>
      simp only [rank, PushPc.rank]
      omega
  | some (.take _ pc), h =>
    cases pc with
    | loadSize | lockTakeLoad | lockTakeCas => exact h.elim False.elim False.elim
    | _ =>
      simp only [rank, TakePc.rank]
      omega

/-! ### Steps of one thread -/

theorem PushPc.ownsPush_of_ownsTake {pc : PushPc} (h : pc.OwnsTake) : pc.OwnsPush := by
  cases pc with
  | lockPushLoad | lockPushCas => exact absurd h id
  | _ => trivial

/-- The owner of the take lock never spins. -/
theorem not_spins_of_ownsTake (h : OwnsTake c) (q : CyclicQueue) : ¬ Spins q c := by
  match c, h with
  | some (.push _ pc), h =>
    cases pc with
    | lockPushLoad | lockTakeLoad => exact absurd h id
    | _ => exact id
  | some (.take _ pc), h =>
    cases pc with
    | lockTakeLoad => exact absurd h id
    | _ => exact id

/-- Whatever `malloc` answers, a push goes on. -/
theorem exists_pushStep_answer (malloc : Malloc) (m : Shared) (element : Region) (pc : PushPc) :
    ∃ r, pushStep m element (malloc.answer m) pc = some r := by
  cases pc with
  | malloc p i sz nc =>
    unfold pushStep Malloc.answer
    dsimp only
    cases hb : malloc.get m.heap (newBytes m.queue) with
    | none => exact ⟨_, rfl⟩
    | some b =>
      have hfree : m.heap b.1 = none := malloc.fresh _ _ _ _ hb
      dsimp only
      rw [hfree]
      exact ⟨_, rfl⟩
  | lockPushLoad | lockPushCas | testFull | lockTakeLoad | lockTakeCas | retestFull | calcCapacity |
    move | copy =>
    simp only [pushStep]
    split_ifs <;> exact ⟨_, rfl⟩
  | _ => exact ⟨_, rfl⟩

variable [DecidableEq τ]

/-- Every thread in a call has an enabled step. -/
theorem exists_step_answer (malloc : Malloc) (h : (s.calls t).isSome) :
    ∃ s', s.step (.step t (malloc.answer s.shared)) = some s' := by
  obtain ⟨op, hop⟩ := Option.isSome_iff_exists.mp h
  cases op with
  | push element pc =>
    obtain ⟨r, hr⟩ := exists_pushStep_answer malloc s.shared element pc
    exact ⟨s.afterPush t element pc r, by simp only [Sys.step, hop, hr, Option.map_some]⟩
  | take dest pc =>
    exact ⟨s.afterTake t pc (takeStep s.shared dest (malloc.answer s.shared) pc),
      by simp only [Sys.step, hop]⟩

/-- A step of an owner that neither spins nor fails spuriously brings it nearer to its unlock. -/
theorem step_rank (hown : OwnsPush (s.calls t) ∨ OwnsTake (s.calls t))
    (hspin : ¬ Spins s.queue (s.calls t)) (hch : ch.spurious = false)
    (hs : s.step (.step t ch) = some s') :
    rank s'.shared (s'.calls t) < rank s.shared (s.calls t) := by
  rcases Sys.step_cases hs with ⟨op, -, hnone, -⟩ | ⟨u, ch', element, pc, m, c, he, hop, hr, rfl⟩ |
    ⟨u, ch', dest, pc, m, dest', c, he, hop, hr, rfl⟩
  · rw [Event.thread] at hnone
    rw [hnone] at hown
    exact absurd (isSome_of_owns hown) (by simp)
  · obtain ⟨rfl, rfl⟩ := Event.step.inj he
    cases c with
    | ret r =>
      rw [Sys.afterPush_ret, Sys.finish_calls]
      exact rank_pos hown
    | goto pc' =>
      rw [Sys.afterPush_goto_calls, Sys.afterPush_shared]
      rw [hop] at hown hspin ⊢
      exact pushStep_rank (hown.elim id PushPc.ownsPush_of_ownsTake) hspin hch hr
  · obtain ⟨rfl, rfl⟩ := Event.step.inj he
    cases c with
    | ret r =>
      rw [Sys.afterTake_ret, Sys.finish_calls]
      exact rank_pos hown
    | goto pc' =>
      rw [Sys.afterTake_goto_calls, Sys.afterTake_shared]
      rw [hop] at hown ⊢
      exact takeStep_rank (hown.resolve_left id) hr

/-- While it does not spin, an owner comes to its unlock alone. -/
theorem forces_solo (own : Option Op → Prop) (A : τ → Prop) (hA : A t)
    (hown : ∀ c, own c → OwnsPush c ∨ OwnsTake c)
    (hspin : ∀ s1 V1, InvAt s1 V1 → (∀ u, u ≠ t → s1.calls u = s.calls u) → own (s1.calls t) →
      ¬ Spins s1.queue (s1.calls t)) (h : InvAt s V) :
    Run.Forces (Sys.turnOf A) (fun s' => ((∃ V', InvAt s' V') ∧
      ∀ u, u ≠ t → s'.calls u = s.calls u) ∧ ¬ own (s'.calls t)) s := by
  have hI : (∃ V, InvAt s V) ∧ ∀ u, u ≠ t → s.calls u = s.calls u := ⟨⟨V, h⟩, fun _ _ => rfl⟩
  refine Run.forces_of_descent Nat.lt_wfRel.wf (fun s1 : Sys τ => (∃ V1, InvAt s1 V1) ∧
    ∀ u, u ≠ t → s1.calls u = s.calls u) _ (fun s1 => rank s1.shared (s1.calls t)) ?_ hI
  rintro s1 ⟨⟨V1, h1⟩, hothers⟩ hP
  have ht : own (s1.calls t) := by
    by_contra hn
    exact hP ⟨⟨⟨V1, h1⟩, hothers⟩, hn⟩
  refine ⟨⟨t, hA⟩, fun malloc => ?_⟩
  obtain ⟨s2, hs⟩ := exists_step_answer malloc (isSome_of_owns (hown _ ht))
  refine ⟨s2, hs, ⟨step_inv h1 hs, fun u hu => ?_⟩, ?_⟩
  · rw [Sys.step_calls_of_ne hs hu]
    exact hothers u hu
  · exact step_rank (hown _ ht) (hspin s1 V1 h1 hothers ht) rfl hs

/-! ### Owners come to their unlock -/

theorem take_unlocks (A : τ → Prop) (hA : A t) (h : InvAt s V) (ht : OwnsTake (s.calls t)) :
    Run.Forces (Sys.turnOf A) (fun s' => (∃ V', InvAt s' V') ∧
      (∀ u, u ≠ t → s'.calls u = s.calls u) ∧ ¬ OwnsTake (s'.calls t) ∧
      s'.queue.takeIdx ≠ uint32Max) s := by
  refine (forces_solo OwnsTake A hA (fun _ => Or.inr)
    (fun s1 _ _ _ ht1 => not_spins_of_ownsTake ht1 s1.queue) h).trans ?_
  rintro s' ⟨⟨⟨V', h'⟩, hothers⟩, hfree⟩
  exact .now ⟨⟨V', h'⟩, hothers, hfree, h.takeLock.free_of_release h'.takeLock ht hothers hfree⟩

omit [DecidableEq τ] in
/-- The owner of the push lock spins only for the take lock of another thread. -/
theorem not_spins_of_ownsPush (h : InvAt s V) (hp : OwnsPush (s.calls t))
    (hothers : ∀ u, u ≠ t → ¬ OwnsTake (s.calls u)) : ¬ Spins s.queue (s.calls t) := by
  intro hspin
  match hc : s.calls t with
  | none =>
    rw [hc] at hp
    exact hp
  | some (.take _ pc) =>
    rw [hc] at hp
    exact hp
  | some (.push element pc) =>
    rw [hc] at hp hspin
    cases pc with
    | lockTakeLoad p =>
      obtain ⟨u, hu⟩ := h.takeLock.locked_iff.mp hspin
      rcases eq_or_ne u t with rfl | hne
      · rw [hc] at hu
        exact hu
      · exact hothers u hne hu
    | lockPushLoad => exact hp
    | _ => exact hspin

theorem push_unlocks (h : InvAt s V) (hp : OwnsPush (s.calls t)) :
    Run.Forces (Sys.turnOf (s.Involved t))
      (fun s' => ¬ OwnsPush (s'.calls t) ∧ s'.queue.pushIdx ≠ uint32Max) s := by
  -- first the owner of the take lock gives it back, if that is another thread
  have hfirst : Run.Forces (Sys.turnOf (s.Involved t))
      (fun s1 => (∃ V1, InvAt s1 V1) ∧ OwnsPush (s1.calls t) ∧
        ∀ u, u ≠ t → ¬ OwnsTake (s1.calls u)) s := by
    by_cases hother : ∃ u, u ≠ t ∧ OwnsTake (s.calls u)
    · obtain ⟨u, hne, hu⟩ := hother
      refine (take_unlocks (s.Involved t) (Or.inr hu) h hu).trans ?_
      rintro s1 ⟨⟨V1, h1⟩, hothers, -, hfree⟩
      refine .now ⟨⟨V1, h1⟩, ?_, fun v _ => h1.takeLock.not_own hfree v⟩
      rwa [hothers t hne.symm]
    · exact .now ⟨⟨V, h⟩, hp, fun u hne hu => hother ⟨u, hne, hu⟩⟩
  refine hfirst.trans ?_
  rintro s1 ⟨⟨V1, h1⟩, hp1, hnone⟩
  refine (forces_solo OwnsPush (s.Involved t) (Or.inl rfl) (fun _ => Or.inl)
    (fun s2 V2 h2 hothers hp2 => not_spins_of_ownsPush h2 hp2 fun u hne => ?_) h1).trans ?_
  · rw [hothers u hne]
    exact hnone u hne
  · rintro s' ⟨⟨⟨V', h'⟩, hothers⟩, hfree⟩
    exact .now ⟨hfree, h1.pushLock.free_of_release h'.pushLock hp1 hothers hfree⟩

/-! ### Every reachable state -/

theorem InvAt.advances (h : InvAt s V) (hin : (s.calls t).isSome) :
    ∃ u, ¬ Spins s.queue (s.calls u) ∧
      ∀ malloc : Malloc, ∃ s', s.step (.step u (malloc.answer s.shared)) = some s' := by
  have henabled : ∀ u, (s.calls u).isSome → ¬ Spins s.queue (s.calls u) →
      ∃ u, ¬ Spins s.queue (s.calls u) ∧
        ∀ malloc : Malloc, ∃ s', s.step (.step u (malloc.answer s.shared)) = some s' :=
    fun u hu hspin => ⟨u, hspin, fun malloc => exists_step_answer malloc hu⟩
  -- a thread spins for a lock, whose owner does not spin or spins for the other one
  by_cases hlocked : s.queue.takeIdx = uint32Max
  · obtain ⟨u, hu⟩ := h.takeLock.locked_iff.mp hlocked
    exact henabled u (isSome_of_owns (Or.inr hu)) (not_spins_of_ownsTake hu _)
  · by_cases hspin : Spins s.queue (s.calls t)
    · have hpush : s.queue.pushIdx = uint32Max := by
        match hc : s.calls t with
        | none =>
          rw [hc] at hspin
          exact absurd hspin id
        | some (.take _ pc) =>
          rw [hc] at hspin
          cases pc with
          | lockTakeLoad => exact absurd hspin hlocked
          | _ => exact absurd hspin id
        | some (.push _ pc) =>
          rw [hc] at hspin
          cases pc with
          | lockPushLoad => exact hspin
          | lockTakeLoad => exact absurd hspin hlocked
          | _ => exact absurd hspin id
      obtain ⟨u, hu⟩ := h.pushLock.locked_iff.mp hpush
      exact henabled u (isSome_of_owns (Or.inl hu))
        (not_spins_of_ownsPush h hu fun v _ => h.takeLock.not_own hlocked v)
    · exact henabled t hin hspin

/-- A step that makes a call return ends the call of its thread. -/
theorem calls_of_returned {e : Event τ} (hs : s.step e = some s')
    (hret : s'.history.returned ≠ s.history.returned) : s'.calls e.thread = none := by
  rcases Sys.step_cases hs with ⟨op, -, -, rfl⟩ | ⟨u, ch, element, pc, m, c, rfl, hop, hr, rfl⟩ |
    ⟨u, ch, dest, pc, m, dest', c, rfl, hop, hr, rfl⟩
  · exact absurd rfl hret
  · cases c with
    | goto pc' => exact absurd Sys.afterPush_goto_returned hret
    | ret r => exact Sys.finish_calls
  · cases c with
    | goto pc' => exact absurd Sys.afterTake_goto_returned hret
    | ret r => exact Sys.finish_calls

theorem not_waitsForPush_of_ownsTake (h : OwnsTake c) : ¬ WaitsForPush c := by
  match c, h with
  | some (.push _ pc), h =>
    cases pc with
    | lockPushLoad | lockPushCas => exact absurd h id
    | _ => exact id
  | some (.take _ _), _ => exact id

theorem InvAt.neverStuck (h : InvAt s V) : s.NeverStuck where
  advances _ hin := h.advances hin
  pushLocked hlocked := by
    obtain ⟨t, ht⟩ := h.pushLock.locked_iff.mp hlocked
    exact ⟨t, ht, push_unlocks h ht⟩
  takeLocked hlocked := by
    obtain ⟨t, ht⟩ := h.takeLock.locked_iff.mp hlocked
    refine ⟨t, ht, (take_unlocks (· = t) rfl h ht).trans ?_⟩
    rintro s' ⟨-, -, hfree⟩
    exact .now hfree
  takeOwner _ ht := not_waitsForPush_of_ownsTake ht
  returns e s' hs hret := by
    obtain ⟨V', h'⟩ := step_inv h hs
    exact ⟨calls_of_returned hs hret, h'.pushLock.locked_iff.mp, h'.takeLock.locked_iff.mp⟩

/-- **No deadlock**: whatever the interleaving of any number of threads. -/
theorem cyclicQueue_neverDeadlocks {heap : Heap} {elementSize initialCapacity : ℕ}
    {block : Option (ℕ × Region)} {m : Shared} {max : ℕ}
    (hinit : cyclicQueueInit heap elementSize initialCapacity block = .ok m)
    (hcap : m.queue.capacity ≤ max) (hmax : max ≤ cyclicQueueMaxCapacity) (es : List (Event τ))
    (s : Sys τ) (hrun : Run.run Sys.step (Sys.start (m.setMaxCapacity max)) es = some s) :
    s.NeverStuck := by
  obtain ⟨V, h⟩ := exists_invAt hinit hcap hmax hrun
  exact h.neverStuck

/-- After the first six events the second thread spins for the lock of the first. -/
theorem cyclicQueue_neverDeadlocks_pushPush : ∃ s, Run.run Sys.step
    (Sys.start (oneByteQueue.setMaxCapacity 0x40000)) (pushPushTake.take 6) = some s ∧
    Spins s.queue (s.calls false) ∧ s.NeverStuck := by
  have h : (Run.run Sys.step (Sys.start (oneByteQueue.setMaxCapacity 0x40000))
      (pushPushTake.take 6)).isSome := by decide +kernel
  obtain ⟨s, hs⟩ := Option.isSome_iff_exists.mp h
  refine ⟨s, hs, ?_, cyclicQueue_neverDeadlocks oneByteQueue_init (by decide) (by decide) _ s hs⟩
  obtain rfl := Option.some.inj hs
  rfl

end Cryptochan.Queue
