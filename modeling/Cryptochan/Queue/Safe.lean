import Cryptochan.Queue.Kept

/-!
# Cryptochan.Queue.Safe — lock ownership and representation

`Sys.LockSafe` is what holds in every reachable state, `StepSafe` what every step from one respects
(`cyclicQueue_lockSafe`).
-/

namespace Cryptochan.Queue

variable {τ : Type} {s s' : Sys τ} {V : View} {t u : τ} {addr idx : ℕ}

/-! ### Statement -/

/-- The block and the slot an element is being copied to or from. -/
def Op.copies : Op → Option (ℕ × ℕ)
  | .push _ (.copy pushIdx _ addr _) => some (addr, pushIdx)
  | .take _ (.copy takeIdx addr _) => some (addr, takeIdx)
  | _ => none

def Sys.Copies (s : Sys τ) (t : τ) (addr idx : ℕ) : Prop :=
  ∃ op, s.calls t = some op ∧ op.copies = some (addr, idx)

/-- An access at `off` lies in an allocated block of `n` bytes. -/
def InBlock (heap : Heap) (addr n off : ℕ) : Prop := heap.sizeAt addr = some n ∧ off < n

structure Sys.LockSafe (s : Sys τ) : Prop where
  /-- Exactly one push owns a locked `push_idx`, none an unlocked one. -/
  pushLocked : s.queue.pushIdx = uint32Max ↔ ∃! t, OwnsPush (s.calls t)
  pushUnlocked : s.queue.pushIdx ≠ uint32Max → ∀ t, ¬ OwnsPush (s.calls t)
  takeLocked : s.queue.takeIdx = uint32Max ↔ ∃! t, OwnsTake (s.calls t)
  takeUnlocked : s.queue.takeIdx ≠ uint32Max → ∀ t, ¬ OwnsTake (s.calls t)
  pushIdx_lt : s.queue.pushIdx ≠ uint32Max → s.queue.pushIdx < s.queue.capacity
  takeIdx_lt : s.queue.takeIdx ≠ uint32Max → s.queue.takeIdx < s.queue.capacity
  /-- An element is copied to or from a slot of the queue's own block. -/
  copies : ∀ t addr idx, s.Copies t addr idx → addr = s.queue.dataPtr ∧
    s.shared.heap.sizeAt addr = some (s.queue.capacity * s.queue.elementSize) ∧
    (idx + 1) * s.queue.elementSize ≤ s.queue.capacity * s.queue.elementSize
  /-- The growth reads from the queue's own block and writes into the new one. -/
  moves : ∀ t element p i sz nc nb k, s.calls t = some (.push element (.move p i sz nc nb k)) →
    k < moveLength s.queue i sz → nb ≠ s.queue.dataPtr ∧
    InBlock s.shared.heap s.queue.dataPtr (s.queue.capacity * s.queue.elementSize)
      (moveSource s.queue i sz k) ∧
    InBlock s.shared.heap nb (nc * s.queue.elementSize) k
  size_le : s.queue.size ≤ s.queue.capacity
  capacity_le : s.queue.capacity ≤ s.queue.maxCapacity
  bytes_lt : s.queue.capacity * s.queue.elementSize < 2 ^ 32
  /-- While both are unlocked the indices are `size` apart. -/
  aligned : s.queue.pushIdx ≠ uint32Max → s.queue.takeIdx ≠ uint32Max →
    s.queue.pushIdx = (s.queue.takeIdx + s.queue.size) % s.queue.capacity

/-- A step of the thread `t`. -/
structure StepSafe (s s' : Sys τ) (t : τ) : Prop where
  /-- Only the owner of both locks changes `data_ptr` or `capacity`, or frees a block. -/
  owner : (s'.queue.dataPtr ≠ s.queue.dataPtr ∨ s'.queue.capacity ≠ s.queue.capacity ∨
    ∃ addr, (s.shared.heap.sizeAt addr).isSome ∧ s'.shared.heap.sizeAt addr = none) →
      OwnsPush (s.calls t) ∧ OwnsTake (s.calls t)
  capacity_mono : s.queue.capacity ≤ s'.queue.capacity
  /-- The block that is copied to or from stays the queue's block, and stays allocated. -/
  copying : ∀ u addr idx, s.Copies u addr idx →
    s'.queue.dataPtr = addr ∧ s'.shared.heap.sizeAt addr = s.shared.heap.sizeAt addr

/-! ### States -/

/-- Who copies owns the lock of the slot, at the index the view says. -/
theorem InvAt.of_copies (h : InvAt s V) (hc : s.Copies t addr idx) :
    (OwnsPush (s.calls t) ∨ OwnsTake (s.calls t)) ∧ Settled s.shared V ∧ addr = V.block ∧
      idx < V.cap := by
  obtain ⟨op, hop, hcopies⟩ := hc
  have hok := h.ok_of hop
  rw [hop]
  cases op with
  | push element pc =>
    cases pc with
    | copy p i a k =>
      obtain ⟨rfl, rfl⟩ := Prod.mk.inj (Option.some.inj hcopies)
      obtain ⟨rfl, hs, -, -, ha, -⟩ := hok
      exact ⟨Or.inl trivial, hs, ha, h.stored.tail_lt⟩
    | _ => exact (Option.some_ne_none _ hcopies.symm).elim
  | take dest pc =>
    cases pc with
    | copy i a k =>
      obtain ⟨rfl, rfl⟩ := Prod.mk.inj (Option.some.inj hcopies)
      obtain ⟨rfl, hs, ha, -⟩ := hok
      exact ⟨Or.inr trivial, hs, ha, h.stored.headLt⟩
    | _ => exact (Option.some_ne_none _ hcopies.symm).elim

theorem moveSource_lt {m : Shared} (h : Stored m V) (hs : Settled m V) {k : ℕ}
    (hk : k < V.cap * m.queue.elementSize) :
    moveSource m.queue V.head V.cap k < V.cap * m.queue.elementSize := by
  have hes : 0 < m.queue.elementSize := Nat.pos_of_ne_zero fun h0 => by simp [h0] at hk
  have hj : k / m.queue.elementSize < V.cap := Nat.div_lt_of_lt_mul (by rwa [Nat.mul_comm])
  have hi := Nat.mod_lt k hes
  have hslot : (V.head + k / m.queue.elementSize) % V.cap < V.cap :=
    Nat.mod_lt _ (Nat.zero_lt_of_lt h.headLt)
  rw [← Nat.div_add_mod' k m.queue.elementSize, moveSource_eq h hs hj hi]
  calc _ < ((V.head + k / m.queue.elementSize) % V.cap + 1) * m.queue.elementSize := by
        rw [Nat.succ_mul]
        omega
    _ ≤ V.cap * m.queue.elementSize := Nat.mul_le_mul_right _ hslot

theorem InvAt.lockSafe (h : InvAt s V) : s.LockSafe where
  pushLocked := h.pushLock.locked_iff_existsUnique
  pushUnlocked hfree := h.pushLock.not_own hfree
  takeLocked := h.takeLock.locked_iff_existsUnique
  takeUnlocked hfree := h.takeLock.not_own hfree
  pushIdx_lt hfree := by
    obtain ⟨htail, hs⟩ := h.pushFree hfree
    rw [htail, hs.capacity]
    exact h.stored.tail_lt
  takeIdx_lt hfree := by
    obtain ⟨hhead, hs⟩ := h.takeFree hfree
    rw [hhead, hs.capacity]
    exact h.stored.headLt
  copies t addr idx hc := by
    obtain ⟨-, hs, rfl, hidx⟩ := h.of_copies hc
    rw [hs.capacity]
    exact ⟨hs.1.symm, h.stored.block, Nat.mul_le_mul_right _ hidx⟩
  moves t element p i sz nc nb k hop hk := by
    obtain ⟨-, hs, rfl, -, rfl, hnc, -, hnb, hsize, -, -⟩ := h.ok_of hop
    rw [Sys.queue, moveLength_eq h.stored hs] at hk
    rw [hs.1, hs.capacity]
    exact ⟨hnb, ⟨h.stored.block, moveSource_lt h.stored hs hk⟩, hsize,
      hk.trans_le (Nat.mul_le_mul_right _ hnc.le)⟩
  size_le := h.stored.sizeEq ▸ h.stored.sizeLe
  capacity_le := h.stored.capLe.trans h.stored.maxLe
  bytes_lt := lt_of_le_of_lt (h.stored.mul_le h.stored.capLe) (by decide)
  aligned hpush htake := by
    obtain ⟨htail, hs⟩ := h.pushFree hpush
    rw [htail, (h.takeFree htake).1, hs.capacity, ← h.stored.sizeEq]
    rfl

/-! ### Steps -/

/-- The three steps of the growth that change what others may look at. -/
def PushPc.Grows : PushPc → Prop
  | .free _ _ _ | .setData _ _ _ | .setCapacity _ _ => True
  | _ => False

/-- The block, the capacity and every allocation are as before. -/
structure Keeps (m m' : Shared) : Prop where
  dataPtr : m'.queue.dataPtr = m.queue.dataPtr
  capacity : m'.queue.capacity = m.queue.capacity
  sizeAt : ∀ addr n, m.heap.sizeAt addr = some n → m'.heap.sizeAt addr = some n

theorem Keeps.refl (m : Shared) : Keeps m m := ⟨rfl, rfl, fun _ _ h => h⟩

theorem keeps_withQueue (m : Shared) {q : CyclicQueue} (hd : q.dataPtr = m.queue.dataPtr)
    (hc : q.capacity = m.queue.capacity) : Keeps m (m.withQueue q) := ⟨hd, hc, fun _ _ h => h⟩

theorem keeps_storeByte (m : Shared) (a off : ℕ) (v : UInt8) : Keeps m (m.storeByte a off v) :=
  ⟨rfl, rfl, fun _ _ h => Heap.sizeAt_store.trans h⟩

theorem keeps_alloc (m : Shared) {a : ℕ} (n : ℕ) (data : Region) (h : ¬ (m.heap a).isSome) :
    Keeps m { m with heap := m.heap.alloc a n data } := by
  refine ⟨rfl, rfl, ?_⟩
  intro a' n' ha'
  have hne : a' ≠ a := by
    rintro rfl
    obtain ⟨b, hb, -⟩ := Option.map_eq_some_iff.mp ha'
    exact h (by rw [hb]; rfl)
  exact (congrArg (Option.map Block.size) (Function.update_of_ne hne _ _)).trans ha'

theorem keeps_of_some {m m1 m' : Shared} {c c' : Cont PushPc} (he : some (m1, c') = some (m', c))
    (h : Keeps m m1) : Keeps m m' := by
  obtain ⟨rfl, -⟩ := Prod.mk.inj (Option.some.inj he)
  exact h

theorem pushStep_keeps {m m' : Shared} {element : Region} {ch : Choice} {pc : PushPc}
    {c : Cont PushPc} (hpc : ¬ pc.Grows) (h : pushStep m element ch pc = some (m', c)) :
    Keeps m m' := by
  cases pc with
  | free | setData | setCapacity => exact absurd trivial hpc
  | loadSize | reloadSize | readData | advance => exact keeps_of_some h (Keeps.refl m)
  | fetchAdd | unlockTake | unlockPush => exact keeps_of_some h (keeps_withQueue m rfl rfl)
  | lockPushLoad | lockTakeLoad | testFull | retestFull | calcCapacity =>
    simp only [pushStep] at h
    split_ifs at h <;> exact keeps_of_some h (Keeps.refl m)
  | lockPushCas | lockTakeCas =>
    simp only [pushStep] at h
    split_ifs at h
    · exact keeps_of_some h (keeps_withQueue m rfl rfl)
    · exact keeps_of_some h (Keeps.refl m)
  | move | copy =>
    simp only [pushStep] at h
    split_ifs at h
    · exact keeps_of_some h (keeps_storeByte m _ _ _)
    · exact keeps_of_some h (Keeps.refl m)
  | malloc =>
    unfold pushStep at h
    dsimp only at h
    cases hb : ch.block with
    | none =>
      rw [hb] at h
      exact keeps_of_some h (Keeps.refl m)
    | some b =>
      rw [hb] at h
      dsimp only at h
      split_ifs at h with hused
      exact keeps_of_some h (keeps_alloc m _ _ hused)

theorem takeStep_keeps (m : Shared) (dest : Region) (ch : Choice) (pc : TakePc) :
    Keeps m (takeStep m dest ch pc).1 := by
  cases pc with
  | readData | advance => exact Keeps.refl m
  | fetchSub | unlockTake => exact keeps_withQueue m rfl rfl
  | loadSize | lockTakeLoad | reloadSize | copy =>
    simp only [takeStep]
    split_ifs <;> exact Keeps.refl m
  | lockTakeCas =>
    simp only [takeStep]
    split_ifs
    · exact keeps_withQueue m rfl rfl
    · exact Keeps.refl m

/-- A step keeps the block, the capacity and the allocations, unless it is one of the growth. -/
theorem step_keeps_or_grows [DecidableEq τ] {e : Event τ} (hs : s.step e = some s') :
    Keeps s.shared s'.shared ∨ ∃ element pc ch m c, s.calls e.thread = some (.push element pc) ∧
      pc.Grows ∧ pushStep s.shared element ch pc = some (m, c) ∧ s'.shared = m := by
  rcases Sys.step_cases hs with ⟨op, -, -, rfl⟩ | ⟨t, ch, element, pc, m, c, rfl, hop, hr, rfl⟩ |
    ⟨t, ch, dest, pc, m, dest', c, rfl, -, hr, rfl⟩
  · exact Or.inl (Keeps.refl _)
  · rw [Sys.afterPush_shared]
    by_cases hpc : pc.Grows
    · exact Or.inr ⟨element, pc, ch, m, c, hop, hpc, hr, rfl⟩
    · exact Or.inl (pushStep_keeps hpc hr)
  · rw [Sys.afterTake_shared]
    have hk := takeStep_keeps s.shared dest ch pc
    rw [hr] at hk
    exact Or.inl hk

theorem Keeps.stepSafe (h : Keeps s.shared s'.shared) (hinv : InvAt s V) (t : τ) :
    StepSafe s s' t where
  owner hchanged := by
    rcases hchanged with hd | hc | ⟨addr, hsome, hnone⟩
    · exact absurd h.dataPtr hd
    · exact absurd h.capacity hc
    · obtain ⟨n, hn⟩ := Option.isSome_iff_exists.mp hsome
      rw [h.sizeAt addr n hn] at hnone
      exact absurd hnone (by simp)
  capacity_mono := h.capacity.ge
  copying u addr idx hc := by
    obtain ⟨-, hs, rfl, -⟩ := hinv.of_copies hc
    exact ⟨h.dataPtr.trans hs.1, (h.sizeAt _ _ hinv.stored.block).trans hinv.stored.block.symm⟩

/-- A step of the growth is under both locks, so no thread copies. -/
theorem grows_stepSafe (h : InvAt s V) {element : Region} {pc : PushPc} {ch : Choice}
    {m : Shared} {c : Cont PushPc} (hop : s.calls t = some (.push element pc)) (hpc : pc.Grows)
    (hr : pushStep s.shared element ch pc = some (m, c)) (hs : s'.shared = m) : StepSafe s s' t := by
  have hboth : OwnsPush (s.calls t) ∧ OwnsTake (s.calls t) := by
    rw [hop]
    cases pc with
    | free | setData | setCapacity => exact ⟨trivial, trivial⟩
    | _ => exact absurd hpc id
  refine ⟨fun _ => hboth, ?_, ?_⟩
  · rw [Sys.queue, Sys.queue, hs]
    have hok := h.ok_of hop
    cases pc with
    | free | setData =>
      obtain ⟨rfl, -⟩ := Prod.mk.inj (Option.some.inj hr)
      exact le_rfl
    | setCapacity sz nc =>
      obtain ⟨rfl, -⟩ := Prod.mk.inj (Option.some.inj hr)
      obtain ⟨-, -, -, hcap, -⟩ := hok
      exact hcap ▸ h.stored.capLe
    | _ => exact absurd hpc id
  · intro u addr idx hc
    obtain ⟨hown, -⟩ := h.of_copies hc
    have hu : u = t := hown.elim (fun hp => h.pushLock.unique u t hp hboth.1)
      fun ht => h.takeLock.unique u t ht hboth.2
    obtain ⟨op, hop', hcopies⟩ := hc
    rw [hu, hop] at hop'
    obtain rfl := Option.some.inj hop'
    cases pc with
    | free | setData | setCapacity => exact (Option.some_ne_none _ hcopies.symm).elim
    | _ => exact absurd hpc id

/-- **Lock ownership and representation**: whatever the interleaving of any number of threads. -/
theorem cyclicQueue_lockSafe [DecidableEq τ] {heap : Heap} {elementSize initialCapacity : ℕ}
    {block : Option (ℕ × Region)} {m : Shared} {max : ℕ}
    (hinit : cyclicQueueInit heap elementSize initialCapacity block = .ok m)
    (hcap : m.queue.capacity ≤ max) (hmax : max ≤ cyclicQueueMaxCapacity) (es : List (Event τ))
    (s : Sys τ) (hrun : Run.run Sys.step (Sys.start (m.setMaxCapacity max)) es = some s) :
    s.LockSafe ∧ ∀ e s', s.step e = some s' → StepSafe s s' e.thread := by
  obtain ⟨V, h⟩ := exists_invAt hinit hcap hmax hrun
  refine ⟨h.lockSafe, ?_⟩
  intro e s' hs
  rcases step_keeps_or_grows hs with hk | ⟨element, pc, ch, m, c, hop, hpc, hr, hs'⟩
  · exact hk.stepSafe h _
  · exact grows_stepSafe h hop hpc hr hs'

theorem cyclicQueue_lockSafe_pushPushTake : ∃ s, Run.run Sys.step
    (Sys.start (oneByteQueue.setMaxCapacity 0x80)) pushPushTake = some s ∧ s.LockSafe := by
  have h : (Run.run Sys.step (Sys.start (oneByteQueue.setMaxCapacity 0x80)) pushPushTake).isSome := by
    decide +kernel
  obtain ⟨s, hs⟩ := Option.isSome_iff_exists.mp h
  exact ⟨s, hs, (cyclicQueue_lockSafe oneByteQueue_init (by decide) (by decide) pushPushTake s hs).1⟩

end Cryptochan.Queue
