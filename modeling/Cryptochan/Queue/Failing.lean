import Cryptochan.Queue.Intact

/-!
# Cryptochan.Queue.Failing — calls that return `false`

A call that returns `false` has changed nothing: the indices that it gives back are the ones it
found.  A push that failed for want of memory succeeds when it is retried with memory, unless the
size of the new region does not fit into 32 bits (`cyclicQueue_failsCleanly`).  No `max_capacity` up
to `CYCLIC_QUEUE_MAX_CAPACITY` makes it that large, but a larger one does
(`cyclicQueue_retryOverflows`).
-/

namespace Cryptochan.Queue

variable {malloc : Malloc} {m m' : Shared} {a : Answer} {c : Call}

/-! ### Statement -/

/-- Why a call returns `false`. -/
def FailReason (malloc : Malloc) (m : Shared) : Call → Prop
  | .push _ => m.queue.size = m.queue.capacity ∧ (m.queue.capacity = m.queue.maxCapacity ∨
      malloc.get m.heap (newBytes m.queue) = none)
  | .take _ => m.queue.size = 0

/-- The call `c` failed in `m` and left `m'`. -/
structure FailsCleanly (malloc : Malloc) (m : Shared) (c : Call) (m' : Shared) : Prop where
  /-- All fields, and all bytes of all blocks. -/
  same : m' = m
  unlocked : m'.queue.pushIdx ≠ uint32Max ∧ m'.queue.takeIdx ≠ uint32Max
  later : ∀ cs, Run.replies callWith m' cs = Run.replies callWith m cs
  reason : FailReason malloc m c
  /-- A push that failed because of `malloc` succeeds when `malloc` does. -/
  retry : ∀ element, c = .push element → m.queue.capacity ≠ m.queue.maxCapacity →
    GrowthFits m.queue → ∀ malloc' : Malloc, (malloc'.get m.heap (newBytes m.queue)).isSome →
      ∃ m'', callQueue malloc' m' c = some (m'', ⟨true, none⟩)

/-! ### Every call -/

/-- Without a larger capacity the queue is at its maximum. -/
theorem Intact.maxCapacity_eq (h : Intact m) (hmax : newCapacity m.queue = m.queue.capacity) :
    m.queue.capacity = m.queue.maxCapacity := by
  have hpos := h.capPos
  have hlt := h.capLt
  unfold newCapacity u32Mul at hmax
  omega

theorem Intact.failsCleanly (h : Intact m) (hcall : callQueue malloc m c = some (m', a))
    (hfalse : a.result = false) : FailsCleanly malloc m c m' := by
  cases c with
  | push element =>
    obtain ⟨r, hpush, rfl⟩ := of_callQueue_push hcall
    obtain rfl : r = false := hfalse
    obtain ⟨rfl, hp, ht, hfull, hwhy⟩ := of_push_false hpush
    refine ⟨rfl, ⟨hp, ht⟩, fun _ => rfl, ⟨hfull, ?_⟩, ?_⟩
    · rcases hwhy with hmax | ⟨-, hnone⟩
      · exact Or.inl (h.maxCapacity_eq hmax)
      · exact Or.inr hnone
    · intro element' he' hne hfits malloc' hsome
      obtain rfl := Call.push.inj he'
      obtain ⟨m2, hgrow⟩ : ∃ m2, cyclicQueuePush malloc' m' element = some (m2, true) :=
        push_grows h hfull (lt_of_le_of_ne h.capLe hne) hfits hsome
      exact ⟨m2, by rw [callQueue, hgrow]; rfl⟩
  | take dest =>
    obtain ⟨dest', r, htake, hr⟩ := of_callQueue_take hcall
    obtain rfl : r = false := hr.symm.trans hfalse
    obtain ⟨-, -, hresult, hsame⟩ := of_take h htake
    obtain rfl := hsame rfl
    refine ⟨rfl, ⟨h.idx_ne h.pushLt, h.idx_ne h.takeLt⟩, fun _ => rfl, ?_, ?_⟩
    · by_contra hne
      exact Bool.noConfusion (hresult.mpr hne)
    · intro element he'
      exact Call.noConfusion he'

/-- A state reached from an intact one. -/
theorem reached_intact {m0 : Shared} {cs : List (Malloc × Call)} {as : List Answer} (h : Intact m0)
    (hrun : Run.replies callWith m0 cs = some (m, as)) :
    Intact m ∧ m.queue.maxCapacity = m0.queue.maxCapacity ∧
      m.queue.elementSize = m0.queue.elementSize := by
  refine Run.replies_invariant (fun m => Intact m ∧ m.queue.maxCapacity = m0.queue.maxCapacity ∧
    m.queue.elementSize = m0.queue.elementSize) ?_ cs m0 m as ⟨h, rfl, rfl⟩ hrun
  rintro m1 c m2 a ⟨h1, hmax, hes⟩ hstep
  obtain ⟨h2, hshape⟩ := callQueue_intact h1 hstep
  exact ⟨h2, hshape.maxCapacity.trans hmax, hshape.elementSize.trans hes⟩

/-- **A call that returns `false` leaves the queue as it was**, whatever happened before. -/
theorem cyclicQueue_failsCleanly {heap : Heap} {elementSize initialCapacity : ℕ}
    {block : Option (ℕ × Region)} {m0 : Shared} {max : ℕ}
    (hinit : cyclicQueueInit heap elementSize initialCapacity block = .ok m0)
    (hcap : m0.queue.capacity ≤ max) (cs : List (Malloc × Call)) (as : List Answer)
    (hrun : Run.replies callWith (m0.setMaxCapacity max) cs = some (m, as))
    (hcall : callQueue malloc m c = some (m', a)) (hfalse : a.result = false) :
    FailsCleanly malloc m c m' ∧ (max ≤ cyclicQueueMaxCapacity → GrowthFits m.queue) := by
  obtain ⟨h, hmaxEq, hes⟩ := reached_intact (init_intact hinit hcap) hrun
  refine ⟨h.failsCleanly hcall hfalse, ?_⟩
  intro hmax
  obtain ⟨addr, hstored, -⟩ := stored_init hinit hcap hmax
  refine h.growthFits (hmaxEq.trans_le hmax) (hes.trans_le ?_)
  exact hstored.elementSize

/-! ### A full queue without memory -/

def noMalloc : Malloc := ⟨fun _ _ => none, by simp⟩

/-- Returns the address 2, once. -/
def mallocAtTwo : Malloc where
  get heap _ := if (heap 2).isNone then some (2, fun _ => 0) else none
  fresh heap n addr data h := by
    split_ifs at h with hnone
    obtain ⟨rfl, -⟩ := Prod.mk.inj (Option.some.inj h)
    exact Option.isNone_iff_eq_none.mp hnone

theorem cyclicQueue_failsCleanly_sixtyFour : ∃ m as, Run.replies callWith
      (oneByteQueue.setMaxCapacity 0x80) (List.replicate 0x40 (noMalloc, .push fun _ => 7)) =
        some (m, as) ∧
    callQueue noMalloc m (.push fun _ => 9) = some (m, ⟨false, none⟩) ∧
    ∃ m', callQueue mallocAtTwo m (.push fun _ => 9) = some (m', ⟨true, none⟩) := by
  have h : (Run.replies callWith (oneByteQueue.setMaxCapacity 0x80)
      (List.replicate 0x40 (noMalloc, .push fun _ => 7))).map (fun r =>
        ((callQueue noMalloc r.1 (.push fun _ => 9)).map Prod.snd,
          (mallocAtTwo.get r.1.heap (newBytes r.1.queue)).isSome,
          r.1.queue.capacity, r.1.queue.maxCapacity)) =
      some (some ⟨false, none⟩, true, 0x40, 0x80) := by decide +kernel
  obtain ⟨⟨m, as⟩, hrun, he⟩ := Option.map_eq_some_iff.mp h
  simp only [Prod.mk.injEq] at he
  obtain ⟨hcall, hsome, hcapacity, hmax⟩ := he
  obtain ⟨⟨m', a⟩, hcall, rfl⟩ := Option.map_eq_some_iff.mp hcall
  obtain ⟨hclean, hfits⟩ :=
    cyclicQueue_failsCleanly oneByteQueue_init (by decide) _ as hrun hcall rfl
  obtain rfl := hclean.same
  refine ⟨m', as, hrun, hcall, ?_⟩
  exact hclean.retry _ rfl (by rw [hcapacity, hmax]; decide) (hfits (by decide)) mallocAtTwo hsome

/-! ### A `max_capacity` that is too large -/

/-- The largest elements, and the largest initial capacity. -/
def largeQueue : Shared :=
  ⟨⟨1, 0x400, 0x40000, 0x40000, 0, 0, 0⟩, Heap.alloc (fun _ => none) 1 0x10000000 fun _ => 0⟩

theorem largeQueue_init :
    cyclicQueueInit (fun _ => none) 0x400 0x40000 (some (1, fun _ => 0)) = .ok largeQueue := rfl

/-- After `n` pushes into it. -/
structure Holding (n : ℕ) (m : Shared) : Prop where
  intact : Intact m
  maxCapacity : m.queue.maxCapacity = 0x400000
  elementSize : m.queue.elementSize = 0x400
  size : m.queue.size = n
  sizeLe : n ≤ m.queue.capacity
  capacity : m.queue.capacity = 0x40000 ∨ m.queue.capacity = 0x80000 ∨
    m.queue.capacity = 0x100000 ∨ m.queue.capacity = 0x200000
  bounded : m.heap.Bounded

theorem Holding.of_oneMore {n : ℕ} (h : Holding n m) (hn : n < 0x200000) (hmore : OneMore m m')
    (hle : n + 1 ≤ m'.queue.capacity) (hcap : m'.queue.capacity = 0x40000 ∨
      m'.queue.capacity = 0x80000 ∨ m'.queue.capacity = 0x100000 ∨ m'.queue.capacity = 0x200000) :
    Holding (n + 1) m' where
  intact := hmore.intact
  maxCapacity := hmore.shape.maxCapacity.trans h.maxCapacity
  elementSize := hmore.shape.elementSize.trans h.elementSize
  size := by rw [hmore.size, h.size, u32Add_eq (by omega)]
  sizeLe := hle
  capacity := hcap
  bounded := hmore.shape.bounded h.bounded

theorem Holding.push {n : ℕ} (h : Holding n m) (hn : n < 0x200000) : ∃ m',
    callWith m (freeMalloc, .push fun _ => 0) = some (m', ⟨true, none⟩) ∧ Holding (n + 1) m' := by
  have hreturn : ∀ m', cyclicQueuePush freeMalloc m (fun _ => 0) = some (m', true) →
      callWith m (freeMalloc, .push fun _ => 0) = some (m', ⟨true, none⟩) := by
    intro m' hrun
    rw [callWith, callQueue, hrun]
    rfl
  by_cases hfull : m.queue.size = m.queue.capacity
  · have hlt : m.queue.capacity < 0x200000 := by rw [← hfull, h.size]; exact hn
    have hnew : newCapacity m.queue = 2 * m.queue.capacity := by
      unfold newCapacity u32Mul
      rw [h.maxCapacity]
      rcases h.capacity with hc | hc | hc | hc <;> omega
    have hfits : GrowthFits m.queue := by
      refine ⟨by omega, ?_⟩
      rw [hnew, h.elementSize]
      omega
    obtain ⟨m', hrun⟩ : ∃ m', cyclicQueuePush freeMalloc m (fun _ => 0) = some (m', true) :=
      push_grows h.intact hfull (by rw [h.maxCapacity]; omega) hfits
        (freeMalloc_succeeds _ _ h.bounded)
    obtain ⟨hmore, hcap⟩ := push_full h.intact hfull hrun
    refine ⟨m', hreturn m' hrun, h.of_oneMore hn hmore ?_ ?_⟩
    · have hle := h.sizeLe
      have hpos := h.intact.capPos
      omega
    · rcases h.capacity with hc | hc | hc | hc <;> omega
  · obtain ⟨m', hrun⟩ : ∃ m', cyclicQueuePush freeMalloc m (fun _ => 0) = some (m', true) :=
      push_room_some h.intact hfull
    obtain ⟨hmore, hcap⟩ := push_room h.intact hfull hrun
    refine ⟨m', hreturn m' hrun, h.of_oneMore hn hmore ?_ ?_⟩
    · have hle := h.sizeLe
      rw [h.size] at hfull
      omega
    · rw [hcap]
      exact h.capacity

theorem Holding.pushes {k n : ℕ} (h : Holding n m) (hn : n + k ≤ 0x200000) : ∃ m' as,
    Run.replies callWith m (List.replicate k (freeMalloc, .push fun _ => 0)) = some (m', as) ∧
      Holding (n + k) m' := by
  induction k generalizing n m with
  | zero => exact ⟨m, [], rfl, h⟩
  | succ k ih =>
    obtain ⟨m1, h1, hm1⟩ := h.push (by omega)
    obtain ⟨m', as, hrun, hm'⟩ := ih hm1 (by omega)
    refine ⟨m', _, Run.replies_cons_iff.mpr ⟨m1, _, as, h1, hrun, rfl⟩, ?_⟩
    rwa [show n + (k + 1) = n + 1 + k by omega]

/-- In a full queue of `0x200000` elements of `0x400` bytes the growth asks for 0 bytes. -/
theorem Holding.overflows (h : Holding 0x200000 m) :
    m.queue.size = m.queue.capacity ∧ newCapacity m.queue ≠ m.queue.capacity ∧
      newBytes m.queue = 0 := by
  have hcap : m.queue.capacity = 0x200000 := by
    have hle := h.sizeLe
    rcases h.capacity with hc | hc | hc | hc <;> omega
  have hnew : newCapacity m.queue = 0x400000 := by
    unfold newCapacity u32Mul
    rw [h.maxCapacity, hcap]
    rfl
  refine ⟨by rw [h.size, hcap], by rw [hnew, hcap]; decide, ?_⟩
  rw [newBytes, hnew, h.elementSize]
  rfl

/-- A growth whose size wrapped around to 0 has no result: a `memcpy` overflows the block. -/
theorem push_none_of_newBytes (h : Intact m) (hfull : m.queue.size = m.queue.capacity)
    (hmax : newCapacity m.queue ≠ m.queue.capacity) (hzero : newBytes m.queue = 0)
    (hes : 0 < m.queue.elementSize) (hmalloc : (malloc.get m.heap (newBytes m.queue)).isSome)
    (element : Region) : cyclicQueuePush malloc m element = none := by
  by_contra hne
  obtain ⟨⟨m', r⟩, hrun⟩ := Option.ne_none_iff_exists'.mp hne
  obtain ⟨-, ⟨hroom, -⟩ | ⟨-, -, hrun⟩⟩ := of_cyclicQueuePush hrun
  · exact hroom hfull
  · rcases of_pushFull hrun with ⟨-, -, hsame | ⟨-, hnone⟩⟩ | ⟨-, nb, data, heap, hg⟩
    · exact hmax hsame
    · have hnone' : malloc.get m.heap (newBytes m.queue) = none := hnone
      rw [hnone'] at hmalloc
      exact absurd hmalloc (by simp)
    · rw [hfull] at hg
      have hmove : moveData m.queue (m.heap.alloc nb (newBytes m.queue) data) m.queue.takeIdx
          m.queue.capacity nb = some heap := hg.move
      obtain ⟨hle, -⟩ := of_moveData h Heap.sizeAt_alloc hmove
      have := Nat.mul_pos h.capPos hes
      omega

/-- With `max_capacity = 0x400000`: a push that failed because of `malloc` is retried with `malloc`
succeeding, and writes beyond the end of the new block. -/
theorem cyclicQueue_retryOverflows : ∃ m as, Run.replies callWith
      (largeQueue.setMaxCapacity 0x400000)
      (List.replicate 0x200000 (freeMalloc, .push fun _ => 0)) = some (m, as) ∧
    callQueue noMalloc m (.push fun _ => 0) = some (m, ⟨false, none⟩) ∧
    m.queue.capacity ≠ m.queue.maxCapacity ∧
    (freeMalloc.get m.heap (newBytes m.queue)).isSome ∧
    callQueue freeMalloc m (.push fun _ => 0) = none := by
  have hstart : Holding 0 (largeQueue.setMaxCapacity 0x400000) := by
    refine ⟨init_intact largeQueue_init (by decide), rfl, rfl, rfl, Nat.zero_le _, Or.inl rfl, 2,
      ?_⟩
    intro a ha
    by_contra hlt
    have hne : a ≠ 1 := by omega
    rw [show (largeQueue.setMaxCapacity 0x400000).heap.sizeAt a = none from
      Heap.sizeAt_alloc_of_ne hne] at ha
    exact absurd ha (by simp)
  obtain ⟨m, as, hrun, hm⟩ := hstart.pushes (k := 0x200000) (by decide)
  rw [Nat.zero_add] at hm
  obtain ⟨hfull, hmax, hzero⟩ := hm.overflows
  have hsome := freeMalloc_succeeds m.heap (newBytes m.queue) hm.bounded
  refine ⟨m, as, hrun, ?_, ?_, hsome, ?_⟩
  · rw [callQueue, push_full_false hm.intact hfull (Or.inr rfl)]
    rfl
  · rw [hm.maxCapacity, ← hfull, hm.size]
    decide
  · rw [callQueue, push_none_of_newBytes hm.intact hfull hmax hzero
      (by rw [hm.elementSize]; decide) hsome]
    rfl

end Cryptochan.Queue
