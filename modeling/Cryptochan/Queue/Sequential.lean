import Cryptochan.Queue.Kept

/-!
# Cryptochan.Queue.Sequential — whole calls of a single thread

`cyclicQueuePush` and `cyclicQueueTake` are the two functions of `cyclic_queue.c` from the call to
the return, for one thread.  Here the accesses are checked: a call has no result (`none`) if it waits
for a lock that nobody gives back, copies bytes outside of an allocated block, frees what is not
allocated or divides by zero.  What `malloc` does is a parameter.

A call that has a result is a run of the atomic steps of `Cryptochan.Queue.Model`
(`cyclicQueuePush_steps`, `cyclicQueueTake_steps`).
-/

namespace Cryptochan.Queue

/-! ### Memory -/

/-- The behaviour of `malloc`: what it returns for a size, with what is in the new block. -/
structure Malloc where
  get : Heap → ℕ → Option (ℕ × Region)
  fresh : ∀ heap n addr data, get heap n = some (addr, data) → heap addr = none

namespace Heap

/-- The `n` bytes at `off`, if they lie in an allocated block. -/
def read (heap : Heap) (addr off n : ℕ) : Option Region :=
  match heap addr with
  | none => none
  | some b => if off + n ≤ b.size then some fun k => b.data (off + k) else none

/-- Replace the `n` bytes at `off`. -/
def write (heap : Heap) (addr off : ℕ) (src : Region) (n : ℕ) : Option Heap :=
  match heap addr with
  | none => none
  | some b =>
    if off + n ≤ b.size then
      some (Function.update heap addr (some ⟨b.size, memcpy b.data off src 0 n⟩))
    else none

/-- `memcpy` from one block to another. -/
def copy (heap : Heap) (dst d src s n : ℕ) : Option Heap := do
  let bytes ← heap.read src s n
  heap.write dst d bytes n

end Heap

/-! ### The functions -/

/-- `__LOCK_IDX`, when no other thread runs: the index. -/
def lockIdx (idx : ℕ) : Option ℕ := if idx = uint32Max then none else some idx

/-- `(idx + 1) % capacity`. -/
def nextIdx (idx capacity : ℕ) : Option ℕ :=
  if capacity = 0 then none else some (u32Add idx 1 % capacity)

/-- Unlock `take_idx`, if `take_idx` says that it was locked, and `push_idx`. -/
def unlockBoth (m : Shared) (pushIdx takeIdx : ℕ) : Shared :=
  (if takeIdx ≠ uint32Max then m.setTakeIdx takeIdx else m).setPushIdx pushIdx

/-- Push the next element, update the size, unlock. -/
def pushElement (m : Shared) (element : Region) (pushIdx takeIdx : ℕ) : Option (Shared × Bool) := do
  let q := m.queue
  let heap ← m.heap.write q.dataPtr (u32Mul pushIdx q.elementSize) element q.elementSize
  let pushIdx ← nextIdx pushIdx q.capacity
  some (unlockBoth ⟨{ q with size := u32Add q.size 1 }, heap⟩ pushIdx takeIdx, true)

/-- Move the data to the new region. -/
def moveData (q : CyclicQueue) (heap : Heap) (takeIdx size newDataPtr : ℕ) : Option Heap :=
  if u32Add takeIdx size > q.capacity then do
    let sizeTillEnd := u32Sub q.capacity takeIdx
    let heap ← heap.copy newDataPtr 0 q.dataPtr (u32Mul takeIdx q.elementSize)
      (u32Mul sizeTillEnd q.elementSize)
    heap.copy newDataPtr (u32Mul sizeTillEnd q.elementSize) q.dataPtr 0
      (u32Mul (u32Sub size sizeTillEnd) q.elementSize)
  else
    heap.copy newDataPtr 0 q.dataPtr (u32Mul takeIdx q.elementSize) (u32Mul size q.elementSize)

/-- `free(queue->data_ptr)`, and the new region and capacity. -/
def replaceData (m : Shared) (newDataPtr newCapacity : ℕ) : Option Shared :=
  if (m.heap m.queue.dataPtr).isSome then
    some ⟨{ m.queue with dataPtr := newDataPtr, capacity := newCapacity },
      m.heap.free m.queue.dataPtr⟩
  else none

def newCapacity (q : CyclicQueue) : ℕ := min (u32Mul q.capacity 2) q.maxCapacity

/-- `elem_size * new_capacity`. -/
def newBytes (q : CyclicQueue) : ℕ := u32Mul q.elementSize (newCapacity q)

/-- Both locks are held and the queue is full. -/
def pushFull (malloc : Malloc) (m : Shared) (element : Region) (pushIdx takeIdx size : ℕ) :
    Option (Shared × Bool) :=
  let q := m.queue
  if newCapacity q = q.capacity then some (unlockBoth m pushIdx takeIdx, false)
  else match malloc.get m.heap (newBytes q) with
    | none => some (unlockBoth m pushIdx takeIdx, false)
    | some (newDataPtr, data) => do
      let heap ← moveData q (m.heap.alloc newDataPtr (newBytes q) data) takeIdx size newDataPtr
      let m ← replaceData ⟨q, heap⟩ newDataPtr (newCapacity q)
      -- `take_idx = 0` and `push_idx = size`
      pushElement m element size 0

/-- `cyclic_queue_push`. -/
def cyclicQueuePush (malloc : Malloc) (m : Shared) (element : Region) : Option (Shared × Bool) := do
  let pushIdx ← lockIdx m.queue.pushIdx
  let m := m.setPushIdx uint32Max
  let size := m.queue.size
  if size = m.queue.capacity then
    let takeIdx ← lockIdx m.queue.takeIdx
    let m := m.setTakeIdx uint32Max
    let size := m.queue.size
    if size = m.queue.capacity then pushFull malloc m element pushIdx takeIdx size
    else pushElement m element pushIdx takeIdx
  else pushElement m element pushIdx uint32Max

/-- `cyclic_queue_take`: the queue, what `element` points at, the result. -/
def cyclicQueueTake (m : Shared) (dest : Region) : Option (Shared × Region × Bool) :=
  if m.queue.size = 0 then some (m, dest, false)
  else do
    let takeIdx ← lockIdx m.queue.takeIdx
    let m := m.setTakeIdx uint32Max
    let q := m.queue
    if q.size = 0 then some (m.setTakeIdx takeIdx, dest, false)
    else
      let element ← m.heap.read q.dataPtr (u32Mul takeIdx q.elementSize) q.elementSize
      let takeIdx ← nextIdx takeIdx q.capacity
      some ((m.setSize (u32Sub q.size 1)).setTakeIdx takeIdx,
        memcpy dest 0 element 0 q.elementSize, true)

/-! ### The ways through a push -/

section Ways

variable {malloc : Malloc} {m : Shared} {element : Region} {r : Shared × Bool}

theorem lockIdx_eq {idx : ℕ} (h : idx ≠ uint32Max) : lockIdx idx = some idx := if_neg h

theorem of_lockIdx {idx i : ℕ} (h : lockIdx idx = some i) : i ≠ uint32Max ∧ i = idx := by
  unfold lockIdx at h
  split_ifs at h with hlocked
  obtain rfl := Option.some.inj h
  exact ⟨hlocked, rfl⟩

theorem of_nextIdx {i capacity i' : ℕ} (h : nextIdx i capacity = some i') :
    capacity ≠ 0 ∧ i' = u32Add i 1 % capacity := by
  unfold nextIdx at h
  split_ifs at h with hzero
  exact ⟨hzero, (Option.some.inj h).symm⟩

theorem push_of_room (hp : m.queue.pushIdx ≠ uint32Max) (hroom : m.queue.size ≠ m.queue.capacity) :
    cyclicQueuePush malloc m element =
      pushElement (m.setPushIdx uint32Max) element m.queue.pushIdx uint32Max := by
  rw [cyclicQueuePush, lockIdx_eq hp]
  exact if_neg hroom

/-- The memory while both locks are held. -/
def lockBoth (m : Shared) : Shared := (m.setPushIdx uint32Max).setTakeIdx uint32Max

theorem push_of_full (hp : m.queue.pushIdx ≠ uint32Max) (ht : m.queue.takeIdx ≠ uint32Max)
    (hfull : m.queue.size = m.queue.capacity) : cyclicQueuePush malloc m element =
      pushFull malloc (lockBoth m) element m.queue.pushIdx m.queue.takeIdx m.queue.size := by
  rw [cyclicQueuePush, lockIdx_eq hp]
  refine (if_pos hfull).trans ?_
  rw [show (m.setPushIdx uint32Max).queue.takeIdx = m.queue.takeIdx from rfl, lockIdx_eq ht]
  exact if_pos hfull

theorem of_cyclicQueuePush (h : cyclicQueuePush malloc m element = some r) :
    m.queue.pushIdx ≠ uint32Max ∧
      (m.queue.size ≠ m.queue.capacity ∧
        pushElement (m.setPushIdx uint32Max) element m.queue.pushIdx uint32Max = some r ∨
      m.queue.size = m.queue.capacity ∧ m.queue.takeIdx ≠ uint32Max ∧
        pushFull malloc (lockBoth m) element m.queue.pushIdx m.queue.takeIdx m.queue.size =
          some r) := by
  have hp : m.queue.pushIdx ≠ uint32Max := by
    obtain ⟨p, hp, -⟩ := Option.bind_eq_some_iff.mp h
    obtain ⟨hne, rfl⟩ := of_lockIdx hp
    exact hne
  refine ⟨hp, ?_⟩
  by_cases hfull : m.queue.size = m.queue.capacity
  · have ht : m.queue.takeIdx ≠ uint32Max := by
      rw [cyclicQueuePush, lockIdx_eq hp] at h
      obtain ⟨i, hi, -⟩ := Option.bind_eq_some_iff.mp ((if_pos hfull).symm.trans h)
      obtain ⟨hne, rfl⟩ := of_lockIdx hi
      exact hne
    rw [push_of_full hp ht hfull] at h
    exact Or.inr ⟨hfull, ht, h⟩
  · rw [push_of_room hp hfull] at h
    exact Or.inl ⟨hfull, h⟩

theorem of_pushElement {m' : Shared} {p i : ℕ} {b : Bool}
    (h : pushElement m element p i = some (m', b)) :
    b = true ∧ m.queue.capacity ≠ 0 ∧ ∃ heap, m.heap.write m.queue.dataPtr
        (u32Mul p m.queue.elementSize) element m.queue.elementSize = some heap ∧
      m' = unlockBoth ⟨{ m.queue with size := u32Add m.queue.size 1 }, heap⟩
        (u32Add p 1 % m.queue.capacity) i := by
  obtain ⟨heap, hwrite, h⟩ := Option.bind_eq_some_iff.mp h
  obtain ⟨p', hnext, h⟩ := Option.bind_eq_some_iff.mp h
  obtain ⟨hcap, rfl⟩ := of_nextIdx hnext
  obtain ⟨rfl, rfl⟩ := Prod.mk.inj (Option.some.inj h)
  exact ⟨rfl, hcap, heap, hwrite, rfl⟩

/-- The new region replaces the old one. -/
def withData (q : CyclicQueue) (heap : Heap) (newDataPtr : ℕ) : Shared :=
  ⟨{ q with dataPtr := newDataPtr, capacity := newCapacity q }, heap.free q.dataPtr⟩

/-- The growth, when `malloc` returns the block `nb`. -/
structure Grows (malloc : Malloc) (m : Shared) (element : Region) (takeIdx size : ℕ) (m' : Shared)
    (nb : ℕ) (data : Region) (heap : Heap) : Prop where
  larger : newCapacity m.queue ≠ m.queue.capacity
  alloc : malloc.get m.heap (newBytes m.queue) = some (nb, data)
  move : moveData m.queue (m.heap.alloc nb (newBytes m.queue) data) takeIdx size nb = some heap
  free : (heap m.queue.dataPtr).isSome
  push : pushElement (withData m.queue heap nb) element size 0 = some (m', true)

theorem of_pushFull {m' : Shared} {p i sz : ℕ} {b : Bool}
    (h : pushFull malloc m element p i sz = some (m', b)) :
    b = false ∧ m' = unlockBoth m p i ∧ (newCapacity m.queue = m.queue.capacity ∨
      newCapacity m.queue ≠ m.queue.capacity ∧ malloc.get m.heap (newBytes m.queue) = none) ∨
    b = true ∧ ∃ nb data heap, Grows malloc m element i sz m' nb data heap := by
  unfold pushFull at h
  dsimp only at h
  split_ifs at h with hmax
  · obtain ⟨rfl, rfl⟩ := Prod.mk.inj (Option.some.inj h)
    exact Or.inl ⟨rfl, rfl, Or.inl hmax⟩
  · cases hmalloc : malloc.get m.heap (newBytes m.queue) with
    | none =>
      rw [hmalloc] at h
      obtain ⟨rfl, rfl⟩ := Prod.mk.inj (Option.some.inj h)
      exact Or.inl ⟨rfl, rfl, Or.inr ⟨hmax, rfl⟩⟩
    | some block =>
      obtain ⟨nb, data⟩ := block
      rw [hmalloc] at h
      obtain ⟨heap, hmove, h⟩ := Option.bind_eq_some_iff.mp h
      obtain ⟨m1, hreplace, h⟩ := Option.bind_eq_some_iff.mp h
      unfold replaceData at hreplace
      split_ifs at hreplace with hfree
      obtain rfl := Option.some.inj hreplace
      obtain ⟨rfl, -⟩ := of_pushElement h
      exact Or.inr ⟨rfl, nb, data, heap, hmax, hmalloc, hmove, hfree, h⟩

theorem pushFull_of_grows {m' : Shared} {p i sz nb : ℕ} {data : Region} {heap : Heap}
    (h : Grows malloc m element i sz m' nb data heap) :
    pushFull malloc m element p i sz = some (m', true) := by
  unfold pushFull
  dsimp only
  rw [if_neg h.larger, h.alloc]
  exact Option.bind_eq_some_iff.mpr ⟨heap, h.move,
    Option.bind_eq_some_iff.mpr ⟨_, if_pos h.free, h.push⟩⟩

theorem take_of_empty (h : m.queue.size = 0) (dest : Region) :
    cyclicQueueTake m dest = some (m, dest, false) := if_pos h

theorem take_of_nonempty (h : m.queue.size ≠ 0) (ht : m.queue.takeIdx ≠ uint32Max)
    (hcap : m.queue.capacity ≠ 0) (hread : m.heap.read m.queue.dataPtr
      (u32Mul m.queue.takeIdx m.queue.elementSize) m.queue.elementSize = some element)
    (dest : Region) : cyclicQueueTake m dest =
      some ((m.setSize (u32Sub m.queue.size 1)).setTakeIdx
        (u32Add m.queue.takeIdx 1 % m.queue.capacity),
        memcpy dest 0 element 0 m.queue.elementSize, true) := by
  rw [cyclicQueueTake, if_neg h, lockIdx_eq ht]
  refine (if_neg h).trans ?_
  exact Option.bind_eq_some_iff.mpr ⟨element, hread,
    Option.bind_eq_some_iff.mpr ⟨_, if_neg hcap, rfl⟩⟩

theorem of_cyclicQueueTake {m' : Shared} {dest dest' : Region} {r : Bool} (h : m.queue.size ≠ 0)
    (hrun : cyclicQueueTake m dest = some (m', dest', r)) :
    m.queue.takeIdx ≠ uint32Max ∧ m.queue.capacity ≠ 0 ∧ ∃ element, m.heap.read m.queue.dataPtr
      (u32Mul m.queue.takeIdx m.queue.elementSize) m.queue.elementSize = some element := by
  rw [cyclicQueueTake, if_neg h] at hrun
  obtain ⟨i, hi, hrun⟩ := Option.bind_eq_some_iff.mp hrun
  obtain ⟨hne, rfl⟩ := of_lockIdx hi
  obtain ⟨element, hread, hrun⟩ := Option.bind_eq_some_iff.mp ((if_neg h).symm.trans hrun)
  obtain ⟨i', hnext, -⟩ := Option.bind_eq_some_iff.mp hrun
  exact ⟨hne, (of_nextIdx hnext).1, element, hread⟩

end Ways

/-! ### Bytes one by one -/

theorem memcpy_succ (dst : Region) (d : ℕ) (src : Region) (k : ℕ) :
    Function.update (memcpy dst d src 0 k) (d + k) (src k) = memcpy dst d src 0 (k + 1) := by
  funext i
  rcases eq_or_ne i (d + k) with rfl | hne
  · rw [Function.update_self, memcpy, if_pos (by omega), Nat.zero_add, Nat.add_sub_cancel_left]
  · rw [Function.update_of_ne hne, memcpy, memcpy]
    by_cases hi : d ≤ i ∧ i < d + k
    · rw [if_pos hi, if_pos (by omega)]
    · rw [if_neg hi, if_neg (by omega)]

namespace Heap

variable {heap heap' : Heap} {addr off n k : ℕ} {src : Region} {b : Block}

/-- After `k` bytes were stored. -/
def withBytes (heap : Heap) (addr : ℕ) (b : Block) (off : ℕ) (src : Region) (k : ℕ) : Heap :=
  Function.update heap addr (some ⟨b.size, memcpy b.data off src 0 k⟩)

theorem withBytes_zero (h : heap addr = some b) : heap.withBytes addr b off src 0 = heap := by
  rw [withBytes, memcpy_zero, ← h, Function.update_eq_self]

theorem store_withBytes : (heap.withBytes addr b off src k).store addr (off + k) (src k) =
    heap.withBytes addr b off src (k + 1) := by
  rw [store, withBytes, Function.update_self, Function.update_idem, Option.map_some, withBytes]
  dsimp only
  rw [memcpy_succ]

theorem of_write (h : heap.write addr off src n = some heap') :
    ∃ b, heap addr = some b ∧ off + n ≤ b.size ∧ heap' = heap.withBytes addr b off src n := by
  unfold write at h
  split at h
  · simp at h
  · rename_i b hb
    split_ifs at h with hle
    exact ⟨b, hb, hle, (Option.some.inj h).symm⟩

theorem of_read (h : heap.read addr off n = some src) :
    ∃ b, heap addr = some b ∧ off + n ≤ b.size ∧ src = fun k => b.data (off + k) := by
  unfold read at h
  split at h
  · simp at h
  · rename_i b hb
    split_ifs at h with hle
    exact ⟨b, hb, hle, (Option.some.inj h).symm⟩

theorem load_eq (h : heap addr = some b) : heap.load addr off = b.data off := by
  rw [load, h]
  rfl

end Heap

/-! ### Runs of one thread -/

section Steps

variable {τ : Type} [DecidableEq τ] {t : τ} {s s1 s2 : Sys τ} {m m' : Shared}
  {element dest : Region} {malloc : Malloc}

/-- The thread `t` alone leads from `s` to `s1`. -/
def Leads (t : τ) (s s1 : Sys τ) : Prop :=
  ∃ es, (∀ e ∈ es, e.thread = t) ∧ Run.run Sys.step s es = some s1

theorem Leads.refl (s : Sys τ) : Leads t s s := ⟨[], by simp, rfl⟩

theorem Leads.trans (h : Leads t s s1) (h1 : Leads t s1 s2) : Leads t s s2 := by
  obtain ⟨es, hes, hrun⟩ := h
  obtain ⟨es1, hes1, hrun1⟩ := h1
  refine ⟨es ++ es1, ?_, ?_⟩
  · intro e he
    exact (List.mem_append.mp he).elim (hes e) (hes1 e)
  · rw [Run.run_append, hrun]
    exact hrun1

theorem Leads.of_step {e : Event τ} (he : e.thread = t) (h : s.step e = some s1) : Leads t s s1 :=
  ⟨[e], by simpa using he, by simp [Run.run_cons, h]⟩

/-- The state `s`, but the memory is `m` and the call of `t` is `op`. -/
def Sys.inCall (s : Sys τ) (t : τ) (m : Shared) (op : Op) : Sys τ :=
  { s with shared := m, calls := Function.update s.calls t (some op) }

theorem inCall_calls {op : Op} : (s.inCall t m op).calls t = some op := Function.update_self _ _ _

theorem Sys.ext_inCall {op op' : Op} {h : History τ} :
    (⟨m', Function.update (s.inCall t m op).calls t (some op'), h⟩ : Sys τ) =
      Sys.inCall { s with history := h } t m' op' := by
  rw [Sys.inCall, Sys.inCall, Function.update_idem]

theorem leads_push (ch : Choice) {pc pc' : PushPc}
    (hr : pushStep m element ch pc = some (m', .goto pc')) (hpc : ∀ p i, pc ≠ .fetchAdd p i) :
    Leads t (s.inCall t m (.push element pc)) (s.inCall t m' (.push element pc')) := by
  refine Leads.of_step (e := .step t ch) rfl ?_
  have hstep : (s.inCall t m (.push element pc)).step (.step t ch) =
      some ((s.inCall t m (.push element pc)).afterPush t element pc (m', .goto pc')) := by
    simp only [Sys.step, inCall_calls]
    rw [show (s.inCall t m (.push element pc)).shared = m from rfl, hr]
    rfl
  rw [hstep]
  cases pc with
  | fetchAdd p i => exact absurd rfl (hpc p i)
  | _ => exact congrArg some Sys.ext_inCall

theorem leads_take (ch : Choice) {pc pc' : TakePc} {dest' : Region}
    (hr : takeStep m dest ch pc = (m', dest', .goto pc')) (hpc : ∀ i, pc ≠ .fetchSub i) :
    Leads t (s.inCall t m (.take dest pc)) (s.inCall t m' (.take dest' pc')) := by
  refine Leads.of_step (e := .step t ch) rfl ?_
  have hstep : (s.inCall t m (.take dest pc)).step (.step t ch) =
      some ((s.inCall t m (.take dest pc)).afterTake t pc (m', dest', .goto pc')) := by
    simp only [Sys.step, inCall_calls]
    rw [show (s.inCall t m (.take dest pc)).shared = m from rfl, hr]
  rw [hstep]
  cases pc with
  | fetchSub i => exact absurd rfl (hpc i)
  | _ => exact congrArg some Sys.ext_inCall

/-- A step without a spurious failure or an allocation. -/
def plain : Choice := ⟨false, none⟩

/-! ### Push -/

theorem lockPush_leads (hne : m.queue.pushIdx ≠ uint32Max) :
    Leads t (s.inCall t m (.push element .lockPushLoad))
      (s.inCall t (m.setPushIdx uint32Max) (.push element (.loadSize m.queue.pushIdx))) := by
  have hload : pushStep m element plain .lockPushLoad =
      some (m, .goto (.lockPushCas m.queue.pushIdx)) := if_neg hne
  have hcas : pushStep m element plain (.lockPushCas m.queue.pushIdx) =
      some (m.setPushIdx uint32Max, .goto (.loadSize m.queue.pushIdx)) := if_pos ⟨rfl, rfl⟩
  exact (leads_push plain hload (by simp)).trans (leads_push plain hcas (by simp))

theorem lockTake_leads {p : ℕ} (hne : m.queue.takeIdx ≠ uint32Max) :
    Leads t (s.inCall t m (.push element (.lockTakeLoad p)))
      (s.inCall t (m.setTakeIdx uint32Max) (.push element (.reloadSize p m.queue.takeIdx))) := by
  have hload : pushStep m element plain (.lockTakeLoad p) =
      some (m, .goto (.lockTakeCas p m.queue.takeIdx)) := if_neg hne
  have hcas : pushStep m element plain (.lockTakeCas p m.queue.takeIdx) =
      some (m.setTakeIdx uint32Max, .goto (.reloadSize p m.queue.takeIdx)) := if_pos ⟨rfl, rfl⟩
  exact (leads_push plain hload (by simp)).trans (leads_push plain hcas (by simp))

/-- The element is stored byte by byte. -/
theorem copy_leads {p i addr : ℕ} {heap : Heap} (h : m.heap.write addr
      (u32Mul p m.queue.elementSize) element m.queue.elementSize = some heap) :
    Leads t (s.inCall t m (.push element (.copy p i addr 0)))
      (s.inCall t ⟨m.queue, heap⟩ (.push element (.advance p i))) := by
  obtain ⟨b, hb, -, rfl⟩ := Heap.of_write h
  have hcopied : ∀ k ≤ m.queue.elementSize,
      Leads t (s.inCall t m (.push element (.copy p i addr 0)))
        (s.inCall t ⟨m.queue, m.heap.withBytes addr b (u32Mul p m.queue.elementSize) element k⟩
          (.push element (.copy p i addr k))) := by
    intro k
    induction k with
    | zero =>
      intro _
      rw [Heap.withBytes_zero hb]
      exact Leads.refl _
    | succ k ih =>
      intro hk
      refine (ih (by omega)).trans (leads_push plain ?_ (by simp))
      rw [← Heap.store_withBytes]
      exact if_pos hk
  refine (hcopied _ le_rfl).trans (leads_push plain ?_ (by simp))
  exact if_neg (lt_irrefl _)

/-- The growth moves one segment byte by byte. -/
theorem move_leads {p i sz nc nb d off n : ℕ} {heap : Heap}
    (h : m.heap.copy nb d m.queue.dataPtr off n = some heap) (hne : nb ≠ m.queue.dataPtr)
    (hlen : d + n ≤ moveLength m.queue i sz)
    (hsource : ∀ j < n, moveSource m.queue i sz (d + j) = off + j) :
    Leads t (s.inCall t m (.push element (.move p i sz nc nb d)))
      (s.inCall t ⟨m.queue, heap⟩ (.push element (.move p i sz nc nb (d + n)))) := by
  obtain ⟨src, hread, hwrite⟩ := Option.bind_eq_some_iff.mp h
  obtain ⟨b, hb, -, rfl⟩ := Heap.of_read hread
  obtain ⟨b', hb', -, rfl⟩ := Heap.of_write hwrite
  have hmoved : ∀ k ≤ n, Leads t (s.inCall t m (.push element (.move p i sz nc nb d)))
      (s.inCall t ⟨m.queue, m.heap.withBytes nb b' d (fun k => b.data (off + k)) k⟩
        (.push element (.move p i sz nc nb (d + k)))) := by
    intro k
    induction k with
    | zero =>
      intro _
      rw [Heap.withBytes_zero hb']
      exact Leads.refl _
    | succ k ih =>
      intro hk
      refine (ih (by omega)).trans (leads_push plain ?_ (by simp))
      -- the source is in the other block
      have hload : (m.heap.withBytes nb b' d (fun k => b.data (off + k)) k).load m.queue.dataPtr
          (moveSource m.queue i sz (d + k)) = b.data (off + k) := by
        rw [hsource k hk]
        refine Heap.load_eq ?_
        rw [Heap.withBytes, Function.update_of_ne hne.symm, hb]
      have hlt : d + k < moveLength m.queue i sz := by omega
      rw [← Heap.store_withBytes, ← hload]
      exact if_pos hlt
  exact hmoved n le_rfl

theorem moveData_leads {p i sz nc nb : ℕ} {heap : Heap}
    (h : moveData m.queue m.heap i sz nb = some heap) (hne : nb ≠ m.queue.dataPtr) :
    Leads t (s.inCall t m (.push element (.move p i sz nc nb 0)))
      (s.inCall t ⟨m.queue, heap⟩ (.push element (.free sz nc nb))) := by
  have hall : Leads t (s.inCall t m (.push element (.move p i sz nc nb 0)))
      (s.inCall t ⟨m.queue, heap⟩
        (.push element (.move p i sz nc nb (moveLength m.queue i sz)))) := by
    unfold moveData at h
    dsimp only at h
    split_ifs at h with hwrap
    · obtain ⟨heap1, h1, h2⟩ := Option.bind_eq_some_iff.mp h
      have hlen : moveLength m.queue i sz =
          u32Mul (u32Sub m.queue.capacity i) m.queue.elementSize +
            u32Mul (u32Sub sz (u32Sub m.queue.capacity i)) m.queue.elementSize := if_pos hwrap
      have hfirst : Leads t (s.inCall t m (.push element (.move p i sz nc nb 0)))
          (s.inCall t ⟨m.queue, heap1⟩ (.push element (.move p i sz nc nb
            (0 + u32Mul (u32Sub m.queue.capacity i) m.queue.elementSize)))) := by
        refine move_leads h1 hne (by rw [hlen]; omega) ?_
        intro j hj
        rw [moveSource, if_pos hwrap, Nat.zero_add]
        exact if_pos hj
      rw [Nat.zero_add] at hfirst
      rw [hlen]
      refine hfirst.trans (move_leads (m := ⟨m.queue, heap1⟩) h2 hne hlen.ge ?_)
      intro j hj
      rw [moveSource, if_pos hwrap]
      dsimp only
      rw [if_neg (by omega)]
      omega
    · have hlen : moveLength m.queue i sz = u32Mul sz m.queue.elementSize := if_neg hwrap
      have hfirst : Leads t (s.inCall t m (.push element (.move p i sz nc nb 0)))
          (s.inCall t ⟨m.queue, heap⟩ (.push element (.move p i sz nc nb
            (0 + u32Mul sz m.queue.elementSize)))) := by
        refine move_leads h hne (by rw [hlen]; omega) ?_
        intro j hj
        rw [moveSource, if_neg hwrap, Nat.zero_add]
      rw [Nat.zero_add] at hfirst
      rwa [hlen]
  refine hall.trans (leads_push plain ?_ (by simp))
  exact if_neg (lt_irrefl _)

/-- One more element in the record of the pushes, or of the takes. -/
def Sys.addPushed (s : Sys τ) (x : Element) : Sys τ :=
  { s with history := { s.history with pushed := s.history.pushed ++ [x] } }

def Sys.addTaken (s : Sys τ) (x : Element) : Sys τ :=
  { s with history := { s.history with taken := s.history.taken ++ [x] } }

theorem finish_inCall {op : Op} {kind : Kind} {r : Bool} :
    (s.inCall t m op).finish t kind m' r = s.finish t kind m' r := by
  rw [Sys.finish, Sys.finish, Sys.inCall, Function.update_idem]

theorem unlock_leads {p i : ℕ} {r : Bool} :
    Leads t (s.inCall t m (.push element (unlockFrom p i r)))
      (s.finish t .push (unlockBoth m p i) r) := by
  have hpush : ∀ m1 : Shared, Leads t (s.inCall t m1 (.push element (.unlockPush p r)))
      (s.finish t .push (m1.setPushIdx p) r) := by
    intro m1
    refine Leads.of_step (e := .step t plain) rfl ?_
    simp only [Sys.step, inCall_calls, pushStep, Option.map_some, Sys.afterPush_ret, finish_inCall]
    rfl
  unfold unlockFrom unlockBoth
  split_ifs with hi
  · exact (leads_push plain rfl (by simp)).trans (hpush _)
  · exact hpush m

theorem fetchAdd_leads {p i : ℕ} : Leads t (s.inCall t m (.push element (.fetchAdd p i)))
    ((s.addPushed (bytes element m.queue.elementSize)).inCall t (m.setSize (u32Add m.queue.size 1))
      (.push element (unlockFrom p i true))) := by
  refine Leads.of_step (e := .step t plain) rfl ?_
  simp only [Sys.step, inCall_calls, pushStep, Option.map_some]
  exact congrArg some Sys.ext_inCall

theorem pushElement_leads {p i : ℕ} {r : Bool} (h : pushElement m element p i = some (m', r)) :
    Leads t (s.inCall t m (.push element (.readData p i)))
      ((s.addPushed (bytes element m.queue.elementSize)).finish t .push m' r) := by
  obtain ⟨rfl, -, heap, hwrite, rfl⟩ := of_pushElement h
  refine (leads_push plain rfl (by simp)).trans ?_
  refine (copy_leads hwrite).trans ?_
  refine (leads_push plain rfl (by simp)).trans ?_
  exact fetchAdd_leads.trans unlock_leads

/-- The state after a push that returned `r`. -/
def Sys.pushReturned (s : Sys τ) (t : τ) (element : Region) (m' : Shared) (r : Bool) : Sys τ :=
  (if r then s.addPushed (bytes element s.queue.elementSize) else s).finish t .push m' r

theorem pushElement_returns {p i : ℕ} {r : Bool} (hes : m.queue.elementSize = s.queue.elementSize)
    (h : pushElement m element p i = some (m', r)) :
    Leads t (s.inCall t m (.push element (.readData p i))) (s.pushReturned t element m' r) := by
  obtain ⟨rfl, -⟩ := of_pushElement h
  rw [Sys.pushReturned, if_pos rfl, ← hes]
  exact pushElement_leads h

theorem grows_leads {p i sz nb : ℕ} {data : Region} {heap : Heap}
    (hes : m.queue.elementSize = s.queue.elementSize) (hblock : (m.heap m.queue.dataPtr).isSome)
    (h : Grows malloc m element i sz m' nb data heap) :
    Leads t (s.inCall t m (.push element (.malloc p i sz (newCapacity m.queue))))
      (s.pushReturned t element m' true) := by
  have hfresh := malloc.fresh _ _ _ _ h.alloc
  have hne : nb ≠ m.queue.dataPtr := by
    rintro rfl
    rw [hfresh] at hblock
    exact absurd hblock (by simp)
  have hused : ¬ (m.heap nb).isSome := by simp [hfresh]
  have halloc : pushStep m element ⟨false, some (nb, data)⟩
      (.malloc p i sz (newCapacity m.queue)) =
        some (⟨m.queue, m.heap.alloc nb (newBytes m.queue) data⟩,
          .goto (.move p i sz (newCapacity m.queue) nb 0)) := if_neg hused
  refine (leads_push _ halloc (by simp)).trans ?_
  refine (moveData_leads (m := ⟨m.queue, m.heap.alloc nb (newBytes m.queue) data⟩) h.move
    hne).trans ?_
  -- free, the new region, the new capacity
  refine (leads_push plain rfl (by simp)).trans ?_
  refine (leads_push plain rfl (by simp)).trans ?_
  refine (leads_push plain rfl (by simp)).trans ?_
  exact pushElement_returns (m := withData m.queue heap nb) hes h.push

theorem pushFull_leads {p i sz : ℕ} {r : Bool} (hes : m.queue.elementSize = s.queue.elementSize)
    (hblock : (m.heap m.queue.dataPtr).isSome)
    (h : pushFull malloc m element p i sz = some (m', r)) :
    Leads t (s.inCall t m (.push element (.calcCapacity p i sz)))
      (s.pushReturned t element m' r) := by
  have hgo : newCapacity m.queue ≠ m.queue.capacity →
      Leads t (s.inCall t m (.push element (.calcCapacity p i sz)))
        (s.inCall t m (.push element (.malloc p i sz (newCapacity m.queue)))) := by
    intro hmax
    have hcalc : pushStep m element plain (.calcCapacity p i sz) =
        some (m, .goto (.malloc p i sz (newCapacity m.queue))) := if_neg hmax
    exact leads_push plain hcalc (by simp)
  rcases of_pushFull h with ⟨rfl, rfl, hmax | ⟨hmax, -⟩⟩ | ⟨rfl, nb, data, heap, hgrows⟩
  · have hcalc : pushStep m element plain (.calcCapacity p i sz) =
        some (m, .goto (unlockFrom p i false)) := if_pos hmax
    exact (leads_push plain hcalc (by simp)).trans unlock_leads
  · exact (hgo hmax).trans ((leads_push plain rfl (by simp)).trans unlock_leads)
  · exact (hgo hgrows.larger).trans (grows_leads hes hblock hgrows)

/-- **A whole push is a run of the steps of its thread.** -/
theorem cyclicQueuePush_steps {r : Bool} (hidle : s.calls t = none)
    (hblock : (s.shared.heap s.queue.dataPtr).isSome)
    (h : cyclicQueuePush malloc s.shared element = some (m', r)) :
    Leads t s (s.pushReturned t element m' r) := by
  have hstart : Leads t s (s.inCall t s.shared (.push element .lockPushLoad)) := by
    refine Leads.of_step (e := .push t element) rfl ?_
    simp only [Sys.step, Sys.invoke, hidle, Option.isNone_none, if_true]
    rfl
  obtain ⟨hp, ⟨hroom, h⟩ | ⟨hfull, ht, h⟩⟩ := of_cyclicQueuePush h
  · have htest : pushStep (s.shared.setPushIdx uint32Max) element plain
        (.testFull s.queue.pushIdx s.queue.size) =
          some (s.shared.setPushIdx uint32Max, .goto (.readData s.queue.pushIdx uint32Max)) :=
      if_neg hroom
    refine hstart.trans ((lockPush_leads hp).trans ?_)
    refine (leads_push plain rfl (by simp)).trans ?_
    exact (leads_push plain htest (by simp)).trans (pushElement_returns rfl h)
  · have htest : pushStep (s.shared.setPushIdx uint32Max) element plain
        (.testFull s.queue.pushIdx s.queue.size) =
          some (s.shared.setPushIdx uint32Max, .goto (.lockTakeLoad s.queue.pushIdx)) :=
      if_pos hfull
    have hretest : pushStep (lockBoth s.shared) element plain
        (.retestFull s.queue.pushIdx s.queue.takeIdx s.queue.size) = some (lockBoth s.shared,
          .goto (.calcCapacity s.queue.pushIdx s.queue.takeIdx s.queue.size)) := if_pos hfull
    refine hstart.trans ((lockPush_leads hp).trans ?_)
    refine (leads_push plain rfl (by simp)).trans ?_
    refine (leads_push plain htest (by simp)).trans ?_
    refine (lockTake_leads (m := s.shared.setPushIdx uint32Max) ht).trans ?_
    refine (leads_push plain rfl (by simp)).trans ?_
    exact (leads_push plain hretest (by simp)).trans (pushFull_leads rfl hblock h)

/-! ### Take -/

/-- The element is copied to the caller byte by byte. -/
theorem takeCopy_leads {i : ℕ} (h : m.heap.read m.queue.dataPtr
      (u32Mul i m.queue.elementSize) m.queue.elementSize = some element) :
    Leads t (s.inCall t m (.take dest (.copy i m.queue.dataPtr 0)))
      (s.inCall t m (.take (memcpy dest 0 element 0 m.queue.elementSize) (.advance i))) := by
  obtain ⟨b, hb, -, rfl⟩ := Heap.of_read h
  have hcopied : ∀ k ≤ m.queue.elementSize,
      Leads t (s.inCall t m (.take dest (.copy i m.queue.dataPtr 0)))
        (s.inCall t m (.take (memcpy dest 0
            (fun k => b.data (u32Mul i m.queue.elementSize + k)) 0 k)
          (.copy i m.queue.dataPtr k))) := by
    intro k
    induction k with
    | zero =>
      intro _
      rw [memcpy_zero]
      exact Leads.refl _
    | succ k ih =>
      intro hk
      refine (ih (by omega)).trans (leads_take plain ?_ (by simp))
      rw [← memcpy_succ, Nat.zero_add, ← Heap.load_eq hb]
      exact if_pos hk
  refine (hcopied _ le_rfl).trans (leads_take plain ?_ (by simp))
  exact if_neg (lt_irrefl _)

theorem fetchSub_leads {i : ℕ} : Leads t (s.inCall t m (.take dest (.fetchSub i)))
    ((s.addTaken (bytes dest m.queue.elementSize)).finish t .take
      ((m.setSize (u32Sub m.queue.size 1)).setTakeIdx i) true) := by
  have hsub : Leads t (s.inCall t m (.take dest (.fetchSub i)))
      ((s.addTaken (bytes dest m.queue.elementSize)).inCall t
        (m.setSize (u32Sub m.queue.size 1)) (.take dest (.unlockTake i true))) := by
    refine Leads.of_step (e := .step t plain) rfl ?_
    simp only [Sys.step, inCall_calls, takeStep]
    exact congrArg some Sys.ext_inCall
  refine hsub.trans (Leads.of_step (e := .step t plain) rfl ?_)
  simp only [Sys.step, inCall_calls, takeStep, Sys.afterTake_ret, finish_inCall]
  rfl

/-- The state after a take that returned `r`. -/
def Sys.takeReturned (s : Sys τ) (t : τ) (dest' : Region) (m' : Shared) (r : Bool) : Sys τ :=
  (if r then s.addTaken (bytes dest' s.queue.elementSize) else s).finish t .take m' r

/-- **A whole take is a run of the steps of its thread.** -/
theorem cyclicQueueTake_steps {dest' : Region} {r : Bool} (hidle : s.calls t = none)
    (h : cyclicQueueTake s.shared dest = some (m', dest', r)) :
    Leads t s (s.takeReturned t dest' m' r) := by
  have hstart : Leads t s (s.inCall t s.shared (.take dest .loadSize)) := by
    refine Leads.of_step (e := .take t dest) rfl ?_
    simp only [Sys.step, Sys.invoke, hidle, Option.isNone_none, if_true]
    rfl
  by_cases hzero : s.queue.size = 0
  · rw [take_of_empty hzero] at h
    obtain ⟨rfl, hrest⟩ := Prod.mk.inj (Option.some.inj h)
    obtain ⟨rfl, rfl⟩ := Prod.mk.inj hrest
    refine hstart.trans (Leads.of_step (e := .step t plain) rfl ?_)
    have hret : takeStep s.shared dest plain .loadSize = (s.shared, dest, .ret false) :=
      if_pos hzero
    simp only [Sys.step, inCall_calls]
    rw [show (s.inCall t s.shared (.take dest .loadSize)).shared = s.shared from rfl, hret,
      Sys.afterTake_ret, finish_inCall]
    rfl
  · obtain ⟨ht, hcap, element, hread⟩ := of_cyclicQueueTake hzero h
    rw [take_of_nonempty hzero ht hcap hread] at h
    obtain ⟨rfl, hrest⟩ := Prod.mk.inj (Option.some.inj h)
    obtain ⟨rfl, rfl⟩ := Prod.mk.inj hrest
    have htest : takeStep s.shared dest plain .loadSize = (s.shared, dest, .goto .lockTakeLoad) :=
      if_neg hzero
    have hload : takeStep s.shared dest plain .lockTakeLoad =
        (s.shared, dest, .goto (.lockTakeCas s.queue.takeIdx)) := if_neg ht
    have hcas : takeStep s.shared dest plain (.lockTakeCas s.queue.takeIdx) =
        (s.shared.setTakeIdx uint32Max, dest, .goto (.reloadSize s.queue.takeIdx)) :=
      if_pos ⟨rfl, rfl⟩
    have hretest : takeStep (s.shared.setTakeIdx uint32Max) dest plain
        (.reloadSize s.queue.takeIdx) =
          (s.shared.setTakeIdx uint32Max, dest, .goto (.readData s.queue.takeIdx)) := if_neg hzero
    refine hstart.trans ((leads_take plain htest (by simp)).trans ?_)
    refine (leads_take plain hload (by simp)).trans ((leads_take plain hcas (by simp)).trans ?_)
    refine (leads_take plain hretest (by simp)).trans ?_
    refine (leads_take plain rfl (by simp)).trans ?_
    refine (takeCopy_leads (m := s.shared.setTakeIdx uint32Max) hread).trans ?_
    refine (leads_take plain rfl (by simp)).trans ?_
    exact fetchSub_leads

end Steps

end Cryptochan.Queue
