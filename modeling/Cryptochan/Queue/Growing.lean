import Cryptochan.Queue.Intact

/-!
# Cryptochan.Queue.Growing — a queue that grows is a bounded FIFO list

Between calls a queue has a view (`Quiet`), and a whole call is a run of the steps of one thread, so
the invariant of all threads says what the call did to the list.  A push succeeds exactly when the
list is shorter than `max_capacity`, whatever the capacity is at that moment.  So a queue that grows
and one that had the largest capacity from the start answer alike (`cyclicQueue_growing_eq`).
-/

namespace Cryptochan.Queue

variable {malloc : Malloc} {m m' : Shared} {V : View} {element dest dest' : Region} {r : Bool}
  {es max : ℕ}

/-! ### Statement -/

/-- A call on a FIFO list of at most `max` elements of `es` bytes. -/
def fifoCall (es max : ℕ) (items : List Element) : Call → List Element × Answer
  | .push element =>
    if items.length < max then (items ++ [bytes element es], ⟨true, none⟩)
    else (items, ⟨false, none⟩)
  | .take _ =>
    match items with
    | [] => ([], ⟨false, none⟩)
    | x :: rest => (rest, ⟨true, some x⟩)

/-- The elements are in the block, in order from `take_idx` on, and the next push goes right behind
them. -/
structure Shared.Contains (m : Shared) (items : List Element) : Prop where
  size : m.queue.size = items.length
  elements : Circular.Holds (m.heap.slot m.queue.dataPtr m.queue.elementSize) m.queue.capacity
    m.queue.takeIdx items
  pushIdx : m.queue.pushIdx = (m.queue.takeIdx + m.queue.size) % m.queue.capacity

/-! ### Between calls -/

/-- No thread is in a call. -/
structure Quiet (m : Shared) (V : View) : Prop where
  stored : Stored m V
  settled : Settled m V
  push : m.queue.pushIdx = V.tail
  take : m.queue.takeIdx = V.head

/-- One thread, which is in no call; the elements of the view were pushed and not yet taken. -/
def quietSys (m : Shared) (V : View) : Sys Unit := ⟨m, fun _ => none, ⟨V.items, [], []⟩⟩

namespace Quiet

theorem invAt (h : Quiet m V) : InvAt (quietSys m V) V where
  pushLock := ⟨iff_of_false (h.push ▸ h.stored.ne_uint32Max h.stored.tail_lt) fun ⟨_, ht⟩ => ht,
    fun _ _ ht => absurd ht id⟩
  takeLock := ⟨iff_of_false (h.take ▸ h.stored.ne_uint32Max h.stored.headLt) fun ⟨_, ht⟩ => ht,
    fun _ _ ht => absurd ht id⟩
  stored := h.stored
  pushFree _ := ⟨h.push, h.settled⟩
  takeFree _ := ⟨h.take, h.settled⟩
  ok _ := trivial
  history := rfl

theorem of_invAt {s : Sys Unit} (h : InvAt s V) (hidle : ∀ t, s.calls t = none) :
    Quiet s.shared V := by
  have hp : s.queue.pushIdx ≠ uint32Max := by
    intro hlocked
    obtain ⟨t, ht⟩ := h.pushLock.locked_iff.mp hlocked
    rw [hidle t] at ht
    exact ht
  have ht : s.queue.takeIdx ≠ uint32Max := by
    intro hlocked
    obtain ⟨t, ht⟩ := h.takeLock.locked_iff.mp hlocked
    rw [hidle t] at ht
    exact ht
  exact ⟨h.stored, (h.pushFree hp).2, (h.pushFree hp).1, (h.takeFree ht).1⟩

theorem capacity (h : Quiet m V) : m.queue.capacity = V.cap := h.settled.2

theorem capacity_le (h : Quiet m V) : m.queue.capacity ≤ cyclicQueueMaxCapacity :=
  h.stored.capLe.trans (h.stored.maxLe.trans h.stored.maxBound)

theorem intact (h : Quiet m V) : Intact m where
  capPos := h.stored.capPos
  capLe := h.stored.capLe.trans h.stored.maxLe
  capLt := lt_of_le_of_lt h.capacity_le (by decide)
  takeLt := by
    rw [h.take, h.capacity]
    exact h.stored.headLt
  pushLt := by
    rw [h.push, h.capacity]
    exact h.stored.tail_lt
  bytesLt := lt_of_le_of_lt (h.stored.mul_le h.stored.capLe) (by decide)
  block := by
    rw [h.settled.1, h.capacity]
    exact h.stored.block

theorem contains (h : Quiet m V) : m.Contains V.items where
  size := h.stored.sizeEq.symm
  elements := by
    rw [h.settled.1, h.capacity, h.take]
    exact h.stored.holds
  pushIdx := by
    rw [h.push, h.take, h.capacity, ← h.stored.sizeEq]
    rfl

end Quiet

/-- A run of one thread keeps the invariant. -/
theorem Leads.inv {s s' : Sys Unit} {t : Unit} (h : Leads t s s') (hV : InvAt s V) :
    ∃ V', InvAt s' V' := by
  obtain ⟨es, -, hrun⟩ := h
  refine Run.run_invariant (fun _ => True) (fun s => ∃ V, InvAt s V) ⟨V, hV⟩ ?_
    (fun _ _ => trivial) hrun
  rintro s1 e s2 - ⟨V1, h1⟩ hstep
  exact step_inv h1 hstep

/-- **A push appends its element**, or changes nothing. -/
theorem Quiet.push_items (h : Quiet m V) (hrun : cyclicQueuePush malloc m element = some (m', r)) :
    ∃ V', Quiet m' V' ∧
      V'.items = V.items ++ if r then [bytes element m.queue.elementSize] else [] := by
  have hblock : (m.heap m.queue.dataPtr).isSome := by
    rw [Heap.isSome_iff_sizeAt, h.intact.block]
    rfl
  obtain ⟨V', h'⟩ :=
    (cyclicQueuePush_steps (s := quietSys m V) (t := ()) rfl hblock hrun).inv h.invAt
  refine ⟨V', Quiet.of_invAt h' fun t => ?_, ?_⟩
  · exact Sys.finish_calls
  · have hhistory := h'.history
    cases r with
    | false => exact (List.append_nil _).symm ▸ hhistory.symm
    | true => exact hhistory.symm

/-- **A take removes the first element**, or changes nothing. -/
theorem Quiet.take_items (h : Quiet m V) (hrun : cyclicQueueTake m dest = some (m', dest', r)) :
    ∃ V', Quiet m' V' ∧
      V.items = (if r then [bytes dest' m.queue.elementSize] else []) ++ V'.items := by
  obtain ⟨V', h'⟩ := (cyclicQueueTake_steps (s := quietSys m V) (t := ()) rfl hrun).inv h.invAt
  refine ⟨V', Quiet.of_invAt h' fun t => ?_, ?_⟩
  · exact Sys.finish_calls
  · cases r with
    | false => exact h'.history
    | true => exact h'.history

/-! ### One call -/

/-- The queue, between calls, holds these elements, and `malloc` finds room. -/
structure Represents (es max : ℕ) (m : Shared) (items : List Element) : Prop where
  quiet : ∃ V, Quiet m V ∧ V.items = items
  elementSize : m.queue.elementSize = es
  maxCapacity : m.queue.maxCapacity = max
  bounded : m.heap.Bounded

theorem Represents.of_shape {items items' : List Element} (h : Represents es max m items)
    (hshape : SameShape m m') (hquiet : ∃ V, Quiet m' V ∧ V.items = items') :
    Represents es max m' items' :=
  ⟨hquiet, hshape.elementSize.trans h.elementSize, hshape.maxCapacity.trans h.maxCapacity,
    hshape.bounded h.bounded⟩

/-- **A push succeeds exactly when the list is shorter than `max_capacity`.** -/
theorem push_represents (hmalloc : malloc.Succeeds) {items : List Element}
    (h : Represents es max m items) (element : Region) :
    ∃ m', cyclicQueuePush malloc m element = some (m', decide (items.length < max)) ∧
      Represents es max m'
        (items ++ if items.length < max then [bytes element es] else []) := by
  obtain ⟨V, hV, rfl⟩ := h.quiet
  have hsize := hV.stored.sizeEq
  have hle : m.queue.size ≤ m.queue.capacity := hsize ▸ hV.stored.sizeLe
  have hmax : m.queue.capacity ≤ max := h.maxCapacity ▸ hV.intact.capLe
  -- the answer, then what it means for the elements
  have hpush : ∃ m',
      cyclicQueuePush malloc m element = some (m', decide (V.items.length < max)) := by
    by_cases hfull : m.queue.size = m.queue.capacity
    · by_cases hlt : m.queue.capacity < m.queue.maxCapacity
      · have hfits : GrowthFits m.queue :=
          hV.intact.growthFits hV.stored.maxBound hV.stored.elementSize
        rw [decide_eq_true (by rw [hsize, hfull, ← h.maxCapacity]; exact hlt)]
        exact push_grows hV.intact hfull hlt hfits (hmalloc _ _ h.bounded)
      · have hcap : m.queue.capacity = m.queue.maxCapacity :=
          le_antisymm hV.intact.capLe (not_lt.mp hlt)
        have hcapacity := hV.capacity_le
        have hsame : newCapacity m.queue = m.queue.capacity := by
          unfold cyclicQueueMaxCapacity at hcapacity
          unfold newCapacity u32Mul
          omega
        rw [decide_eq_false (by rw [hsize, hfull, hcap, h.maxCapacity]; exact lt_irrefl _)]
        exact ⟨m, push_full_false hV.intact hfull (Or.inl hsame)⟩
    · rw [decide_eq_true (by omega)]
      exact push_room_some hV.intact hfull
  obtain ⟨m', hrun⟩ := hpush
  refine ⟨m', hrun, h.of_shape (push_intact hV.intact hrun).2 ?_⟩
  obtain ⟨V', hV', hitems⟩ := hV.push_items hrun
  refine ⟨V', hV', hitems.trans ?_⟩
  rw [h.elementSize]
  simp only [decide_eq_true_eq]

theorem take_represents {items : List Element} (h : Represents es max m items) (dest : Region) :
    ∃ m' dest', cyclicQueueTake m dest = some (m', dest', decide (items ≠ [])) ∧
      Represents es max m' items.tail ∧ ∀ x, items.head? = some x → bytes dest' es = x := by
  obtain ⟨V, hV, rfl⟩ := h.quiet
  obtain ⟨m', dest', r, hrun, -, hshape, hresult, -⟩ := take_intact hV.intact dest
  have hr : r = decide (V.items ≠ []) := by
    rw [Bool.eq_iff_iff, hresult, decide_eq_true_iff, ← hV.stored.sizeEq, ne_eq, ne_eq,
      List.length_eq_zero_iff]
  obtain ⟨V', hV', hitems⟩ := hV.take_items hrun
  rw [hr] at hrun hitems
  refine ⟨m', dest', hrun, h.of_shape hshape ⟨V', hV', ?_⟩, ?_⟩
  · cases hl : V.items with
    | nil => simpa [hl] using hitems
    | cons x rest =>
      rw [hl] at hitems
      exact (List.cons.inj hitems).2.symm
  · intro x hx
    obtain ⟨rest, hrest⟩ := List.head?_eq_some_iff.mp hx
    rw [hrest] at hitems
    rw [← h.elementSize]
    exact (List.cons.inj hitems).1.symm

/-- Every call answers like the bounded list. -/
theorem callQueue_represents (hmalloc : malloc.Succeeds) {items : List Element}
    (h : Represents es max m items) (c : Call) :
    ∃ m', callQueue malloc m c = some (m', (fifoCall es max items c).2) ∧
      Represents es max m' (fifoCall es max items c).1 := by
  cases c with
  | push element =>
    obtain ⟨m', hrun, h'⟩ := push_represents hmalloc h element
    refine ⟨m', ?_, ?_⟩
    · rw [callQueue, hrun, fifoCall]
      split_ifs with hlt <;> simp [hlt]
    · rw [fifoCall]
      split_ifs with hlt
      · rwa [if_pos hlt] at h'
      · rwa [if_neg hlt, List.append_nil] at h'
  | take dest =>
    obtain ⟨m', dest', hrun, h', hfirst⟩ := take_represents h dest
    refine ⟨m', ?_, ?_⟩
    · rw [callQueue, hrun, h.elementSize]
      cases items with
      | nil => rfl
      | cons x rest =>
        rw [fifoCall, ← hfirst x rfl]
        rfl
    · cases items with
      | nil => exact h'
      | cons x rest => exact h'

/-! ### All calls -/

theorem init_represents {heap : Heap} {initialCapacity : ℕ} {block : Option (ℕ × Region)}
    (hheap : heap.Bounded) (hinit : cyclicQueueInit heap es initialCapacity block = .ok m)
    (hcap : m.queue.capacity ≤ max) (hmax : max ≤ cyclicQueueMaxCapacity) :
    Represents es max (m.setMaxCapacity max) [] := by
  obtain ⟨addr, hstored, hs, hpush, htake⟩ := stored_init hinit hcap hmax
  obtain ⟨c, addr', data, -, -, -, -, rfl⟩ := of_cyclicQueueInit hinit
  refine ⟨⟨_, ⟨hstored, hs, hpush, htake⟩, rfl⟩, rfl, rfl, ?_⟩
  obtain ⟨n, hn⟩ := hheap
  refine ⟨Nat.max n (addr' + 1), ?_⟩
  intro a ha
  rcases eq_or_ne a addr' with rfl | hne
  · exact (Nat.lt_succ_self a).trans_le (Nat.le_max_right _ _)
  · have hold : (heap.alloc addr' (u32Mul c es) data).sizeAt a = heap.sizeAt a :=
      Heap.sizeAt_alloc_of_ne hne
    exact (hn a (hold ▸ ha)).trans_le (Nat.le_max_left _ _)

/-- The answers of a queue that `cyclic_queue_init` made are those of a list of at most `max`
elements. -/
theorem cyclicQueue_fifoCalls {heap : Heap} {initialCapacity : ℕ} {block : Option (ℕ × Region)}
    (hheap : heap.Bounded) (hinit : cyclicQueueInit heap es initialCapacity block = .ok m)
    (hcap : m.queue.capacity ≤ max) (hmax : max ≤ cyclicQueueMaxCapacity)
    (hmalloc : malloc.Succeeds) (calls : List Call) : ∃ m',
      Run.replies (callQueue malloc) (m.setMaxCapacity max) calls =
        some (m', (Run.answers (fifoCall es max) [] calls).2) ∧
      m'.Contains (Run.answers (fifoCall es max) [] calls).1 := by
  obtain ⟨m', hrun, h'⟩ := Run.replies_of_rel (Represents es max)
    (fun _ _ c h => callQueue_represents hmalloc h c) calls _ _
    (init_represents hheap hinit hcap hmax)
  obtain ⟨V, hV, hitems⟩ := h'.quiet
  exact ⟨m', hrun, hitems ▸ hV.contains⟩

/-- **A growing queue is indistinguishable from one that never grows.**  The queue `grow` starts
with a capacity of at most `max`, the queue `flat` with the capacity `max`. -/
theorem cyclicQueue_growing_eq {heap heap' : Heap} {initialCapacity : ℕ}
    {block block' : Option (ℕ × Region)} {grow flat : Shared} {malloc malloc' : Malloc}
    (hheap : heap.Bounded) (hheap' : heap'.Bounded)
    (hgrow : cyclicQueueInit heap es initialCapacity block = .ok grow)
    (hcap : grow.queue.capacity ≤ max) (hmax : max ≤ cyclicQueueMaxCapacity)
    (hflat : cyclicQueueInit heap' es max block' = .ok flat)
    (hmalloc : malloc.Succeeds) (hmalloc' : malloc'.Succeeds) (calls : List Call) :
    flat.queue.capacity = max ∧ ∃ grow' flat' : Shared,
      Run.replies (callQueue malloc) (grow.setMaxCapacity max) calls =
        some (grow', (Run.answers (fifoCall es max) [] calls).2) ∧
      Run.replies (callQueue malloc') (flat.setMaxCapacity max) calls =
        some (flat', (Run.answers (fifoCall es max) [] calls).2) ∧
      grow'.Contains (Run.answers (fifoCall es max) [] calls).1 ∧
      flat'.Contains (Run.answers (fifoCall es max) [] calls).1 := by
  have hflatCap : flat.queue.capacity = max := by
    have hmin := hcap
    obtain ⟨c, _, _, hc, -, -, -, hgrowEq⟩ := of_cyclicQueueInit hgrow
    obtain ⟨c', _, _, hc', -, -, -, hflatEq⟩ := of_cyclicQueueInit hflat
    rw [hgrowEq] at hmin
    rw [hflatEq]
    dsimp only at hmin ⊢
    split_ifs at hc hc' <;> omega
  obtain ⟨grow', hrun, hcontains⟩ := cyclicQueue_fifoCalls hheap hgrow hcap hmax hmalloc calls
  obtain ⟨flat', hrun', hcontains'⟩ :=
    cyclicQueue_fifoCalls hheap' hflat hflatCap.le hmax hmalloc' calls
  exact ⟨hflatCap, grow', flat', hrun, hrun', hcontains, hcontains'⟩

/-- A full queue, then an element in its first slot again, and one for which it has to grow. -/
def growWrapped : List Call :=
  List.replicate 0x40 (.push fun _ => 7) ++
    [.take fun _ => 0, .push fun _ => 8, .push fun _ => 9] ++
    List.replicate 0x42 (.take fun _ => 0)

theorem cyclicQueue_growing_eq_wrapped : ∃ grow' flat' : Shared, ∃ as,
    Run.replies (callQueue freeMalloc) (oneByteQueue.setMaxCapacity 0x50) growWrapped =
      some (grow', as) ∧
    Run.replies (callQueue freeMalloc) ((⟨⟨1, 1, 0x50, 0x40000, 0, 0, 0⟩,
      Heap.alloc (fun _ => none) 1 0x50 fun _ => 0⟩ : Shared).setMaxCapacity 0x50) growWrapped =
        some (flat', as) ∧
    as.drop 130 = [⟨true, some [8]⟩, ⟨true, some [9]⟩, ⟨false, none⟩] := by
  have hheap : Heap.Bounded fun _ => none := ⟨0, fun a ha => absurd ha (by simp [Heap.sizeAt])⟩
  obtain ⟨-, grow', flat', hrun, hrun', -, -⟩ :=
    cyclicQueue_growing_eq hheap hheap oneByteQueue_init (by decide) (by decide)
      (show cyclicQueueInit _ 1 0x50 (some (1, fun _ => 0)) = .ok _ from rfl)
      freeMalloc_succeeds freeMalloc_succeeds growWrapped
  exact ⟨grow', flat', _, hrun, hrun', by decide +kernel⟩

end Cryptochan.Queue
