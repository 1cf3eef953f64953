import Cryptochan.Lib.Circular
import Cryptochan.Lib.Lock
import Cryptochan.Queue.Model

/-!
# Cryptochan.Queue.Inv — the invariant of the queue

At every moment the queue has a `View`: the block that holds the elements, its capacity, the index of
the first element and the elements.  `Stored` says that the memory agrees with the view, `Ok` what a
thread knows about it at its program point (`PushPc.Ok`, `TakePc.Ok`).  Who owns the push lock alone
moves the end of the list, who owns the take lock alone its front; the view changes block only under
both locks.
-/

namespace Cryptochan.Queue

/-! ### Bytes and slots of a block -/

namespace Heap

variable {heap : Heap} {addr addr' off off' n i j es : ℕ} {v : UInt8} {b : Block}

/-- The size of the block at an address. -/
def sizeAt (heap : Heap) (addr : ℕ) : Option ℕ := (heap addr).map Block.size

/-- The element in the slot `i`. -/
def slot (heap : Heap) (addr es i : ℕ) : Element := bytes (fun k => heap.load addr (i * es + k)) es

@[simp] theorem length_slot : (heap.slot addr es i).length = es := length_bytes _ _

@[simp] theorem sizeAt_store : (heap.store addr off v).sizeAt addr' = heap.sizeAt addr' := by
  unfold store sizeAt
  rcases eq_or_ne addr' addr with rfl | hne
  · rw [Function.update_self, Option.map_map]
    rfl
  · rw [Function.update_of_ne hne]

theorem sizeAt_alloc {data : Region} : (heap.alloc addr n data).sizeAt addr = some n := by
  unfold alloc sizeAt
  rw [Function.update_self]
  rfl

theorem load_store_of_ne (h : addr' ≠ addr ∨ off' ≠ off) :
    (heap.store addr off v).load addr' off' = heap.load addr' off' := by
  unfold store load
  rcases eq_or_ne addr' addr with rfl | hne
  · have hoff : off' ≠ off := h.resolve_left (not_not_intro rfl)
    rw [Function.update_self]
    cases heap addr' with
    | none => rfl
    | some b => exact Function.update_of_ne hoff _ _
  · rw [Function.update_of_ne hne]

theorem load_store_self (h : heap.sizeAt addr = some n) :
    (heap.store addr off v).load addr off = v := by
  obtain ⟨b, hb, -⟩ := Option.map_eq_some_iff.mp h
  unfold store load
  rw [Function.update_self, hb]
  exact Function.update_self _ _ _

/-- A byte of one slot is not in another one. -/
theorem slot_store_of_ne (hk : off < es) (h : i ≠ j) :
    (heap.store addr (j * es + off) v).slot addr es i = heap.slot addr es i := by
  refine bytes_congr fun k hk' => load_store_of_ne (Or.inr fun he => h ?_)
  have h1 : (i * es + k) / es = i := by
    rw [Nat.mul_comm, Nat.mul_add_div (by omega), Nat.div_eq_of_lt hk', Nat.add_zero]
  have h2 : (j * es + off) / es = j := by
    rw [Nat.mul_comm, Nat.mul_add_div (by omega), Nat.div_eq_of_lt hk, Nat.add_zero]
  rw [← h1, he, h2]

theorem slot_congr_heap {heap' : Heap} (h : heap' addr = heap addr) :
    heap'.slot addr es i = heap.slot addr es i :=
  bytes_congr fun k _ => by rw [load, load, h]

end Heap

/-! ### The view and what a call knows -/

structure View where
  block : ℕ
  cap : ℕ
  head : ℕ
  items : List Element

/-- The slot behind the last element. -/
def View.tail (V : View) : ℕ := (V.head + V.items.length) % V.cap

/-- The fields of the queue are those of the view; false only while a push replaces the block. -/
def Settled (m : Shared) (V : View) : Prop := m.queue.dataPtr = V.block ∧ m.queue.capacity = V.cap

/-- The memory holds the elements of the view. -/
structure Stored (m : Shared) (V : View) : Prop where
  elementSize : m.queue.elementSize ≤ cyclicQueueMaxElementSize
  capPos : 0 < m.queue.capacity
  sizeEq : V.items.length = m.queue.size
  sizeLe : V.items.length ≤ m.queue.capacity
  capLe : m.queue.capacity ≤ V.cap
  maxLe : V.cap ≤ m.queue.maxCapacity
  maxBound : m.queue.maxCapacity ≤ cyclicQueueMaxCapacity
  headLt : V.head < V.cap
  block : m.heap.sizeAt V.block = some (V.cap * m.queue.elementSize)
  holds : Circular.Holds (m.heap.slot V.block m.queue.elementSize) V.cap V.head V.items

namespace PushPc

/-- The push is between its lock and its unlock of `push_idx`. -/
def OwnsPush : PushPc → Prop
  | lockPushLoad | lockPushCas _ => False
  | _ => True

/-- The push is on its slow path, between its lock and its unlock of `take_idx`. -/
def OwnsTake : PushPc → Prop
  | lockPushLoad | lockPushCas _ | loadSize _ | testFull _ _ | lockTakeLoad _ | lockTakeCas _ _
  | unlockPush _ _ => False
  | readData _ t | copy _ t _ _ | advance _ t | fetchAdd _ t => t ≠ uint32Max
  | _ => True

/-- What a push knows, from the lock of `push_idx` on: where the next element goes, and behind
`testFull` that there is room for it or that the queue is full. -/
def Ok (m : Shared) (V : View) (element : Region) : PushPc → Prop
  | lockPushLoad => True
  | lockPushCas p => p ≠ uint32Max
  | loadSize p | lockTakeLoad p | unlockPush p _ => p = V.tail ∧ Settled m V
  | testFull p sz => p = V.tail ∧ Settled m V ∧ V.items.length ≤ sz ∧ sz ≤ V.cap
  | lockTakeCas p t => p = V.tail ∧ Settled m V ∧ t ≠ uint32Max
  | reloadSize p t | unlockTake p t _ => p = V.tail ∧ Settled m V ∧ t = V.head
  | retestFull p t sz => p = V.tail ∧ Settled m V ∧ t = V.head ∧ sz = V.items.length
  | calcCapacity p t sz =>
    p = V.tail ∧ Settled m V ∧ t = V.head ∧ sz = V.items.length ∧ sz = V.cap
  | malloc p t sz nc =>
    p = V.tail ∧ Settled m V ∧ t = V.head ∧ sz = V.items.length ∧ sz = V.cap ∧ V.cap < nc ∧
      nc ≤ m.queue.maxCapacity
  | move p t sz nc nb k =>
    p = V.tail ∧ Settled m V ∧ t = V.head ∧ sz = V.items.length ∧ sz = V.cap ∧ V.cap < nc ∧
      nc ≤ m.queue.maxCapacity ∧ nb ≠ V.block ∧
      m.heap.sizeAt nb = some (nc * m.queue.elementSize) ∧ k ≤ moveLength m.queue t sz ∧
      ∀ i < k, m.heap.load nb i = m.heap.load V.block (moveSource m.queue t sz i)
  | free sz nc nb =>
    Settled m V ∧ sz = V.items.length ∧ sz = V.cap ∧ V.cap < nc ∧ nc ≤ m.queue.maxCapacity ∧
      nb ≠ V.block ∧ m.heap.sizeAt nb = some (nc * m.queue.elementSize) ∧
      Circular.Holds (m.heap.slot nb m.queue.elementSize) nc 0 V.items
  | setData sz nc nb =>
    sz = V.items.length ∧ sz < nc ∧ V.block = nb ∧ V.cap = nc ∧ V.head = 0
  | setCapacity sz nc =>
    sz = V.items.length ∧ sz < nc ∧ m.queue.dataPtr = V.block ∧ V.cap = nc ∧ V.head = 0
  | readData p t =>
    p = V.tail ∧ Settled m V ∧ V.items.length < V.cap ∧ (t ≠ uint32Max → t = V.head)
  | copy p t addr k =>
    p = V.tail ∧ Settled m V ∧ V.items.length < V.cap ∧ (t ≠ uint32Max → t = V.head) ∧
      addr = V.block ∧ k ≤ m.queue.elementSize ∧
      ∀ i < k, m.heap.load addr (p * m.queue.elementSize + i) = element i
  | advance p t =>
    p = V.tail ∧ Settled m V ∧ V.items.length < V.cap ∧ (t ≠ uint32Max → t = V.head) ∧
      m.heap.slot V.block m.queue.elementSize V.tail = bytes element m.queue.elementSize
  | fetchAdd p t =>
    p = (V.tail + 1) % V.cap ∧ Settled m V ∧ V.items.length < V.cap ∧
      (t ≠ uint32Max → t = V.head) ∧
      m.heap.slot V.block m.queue.elementSize V.tail = bytes element m.queue.elementSize

end PushPc

namespace TakePc

/-- The take is between its lock and its unlock of `take_idx`. -/
def OwnsTake : TakePc → Prop
  | loadSize | lockTakeLoad | lockTakeCas _ => False
  | _ => True

/-- What a take knows, from the lock of `take_idx` on: where the first element is, and behind the
second test of `size` that there is one. -/
def Ok (m : Shared) (V : View) (dest : Region) : TakePc → Prop
  | loadSize | lockTakeLoad => True
  | lockTakeCas t => t ≠ uint32Max
  | reloadSize t | unlockTake t _ => t = V.head ∧ Settled m V
  | readData t => t = V.head ∧ Settled m V ∧ ∃ x, V.items.head? = some x
  | copy t addr k =>
    t = V.head ∧ Settled m V ∧ addr = V.block ∧ k ≤ m.queue.elementSize ∧
      ∃ x, V.items.head? = some x ∧ bytes dest k = x.take k
  | advance t =>
    t = V.head ∧ Settled m V ∧ V.items.head? = some (bytes dest m.queue.elementSize)
  | fetchSub t =>
    t = (V.head + 1) % V.cap ∧ Settled m V ∧ V.items.head? = some (bytes dest m.queue.elementSize)

end TakePc

/-- Ownership, and knowledge, of a thread; a thread without a call owns and knows nothing. -/
def OwnsPush : Option Op → Prop
  | some (.push _ pc) => pc.OwnsPush
  | _ => False

def OwnsTake : Option Op → Prop
  | some (.push _ pc) => pc.OwnsTake
  | some (.take _ pc) => pc.OwnsTake
  | none => False

def Ok (m : Shared) (V : View) : Option Op → Prop
  | some (.push element pc) => pc.Ok m V element
  | some (.take dest pc) => pc.Ok m V dest
  | none => True

variable {τ : Type}

/-- The invariant, for the view `V`. -/
structure InvAt (s : Sys τ) (V : View) : Prop where
  pushLock : Lock.Exclusive OwnsPush (s.queue.pushIdx = uint32Max) s.calls
  takeLock : Lock.Exclusive OwnsTake (s.queue.takeIdx = uint32Max) s.calls
  stored : Stored s.shared V
  pushFree : s.queue.pushIdx ≠ uint32Max → s.queue.pushIdx = V.tail ∧ Settled s.shared V
  takeFree : s.queue.takeIdx ≠ uint32Max → s.queue.takeIdx = V.head ∧ Settled s.shared V
  ok : ∀ t, Ok s.shared V (s.calls t)
  history : s.history.pushed = s.history.taken ++ V.items

/-! ### Knowledge survives the steps of others -/

section Frame

variable {m m' : Shared} {V V' : View} {c : Option Op}

/-- What no step but the growth changes. -/
structure SameFields (m m' : Shared) : Prop where
  dataPtr : m'.queue.dataPtr = m.queue.dataPtr
  elementSize : m'.queue.elementSize = m.queue.elementSize
  capacity : m'.queue.capacity = m.queue.capacity
  maxCapacity : m'.queue.maxCapacity = m.queue.maxCapacity

theorem SameFields.settled (h : SameFields m m') (hV : V'.block = V.block) (hcap : V'.cap = V.cap)
    (hs : Settled m V) : Settled m' V' :=
  ⟨h.dataPtr.trans (hs.1.trans hV.symm), h.capacity.trans (hs.2.trans hcap.symm)⟩

/-- A thread that owns no lock knows nothing about the view. -/
theorem Ok.idle (h : Ok m V c) (hp : ¬ OwnsPush c) (ht : ¬ OwnsTake c) : Ok m' V' c := by
  match c, h with
  | none, _ => trivial
  | some (.push _ pc), h =>
    cases pc with
    | lockPushLoad => trivial
    | lockPushCas p => exact h
    | _ => exact absurd trivial hp
  | some (.take _ pc), h =>
    cases pc with
    | loadSize => trivial
    | lockTakeLoad => trivial
    | lockTakeCas t => exact h
    | _ => exact absurd trivial ht

/-- The end of the list, and the memory behind it, may change for a thread that does not own the push
lock. -/
theorem Ok.of_push (h : Ok m V c) (hp : ¬ OwnsPush c) (hf : SameFields m m')
    (hblock : V'.block = V.block) (hcap : V'.cap = V.cap) (hhead : V'.head = V.head)
    (hfirst : ∀ x, V.items.head? = some x → V'.items.head? = some x) : Ok m' V' c := by
  match c, h with
  | none, _ => trivial
  | some (.push _ pc), h =>
    cases pc with
    | lockPushLoad => trivial
    | lockPushCas p => exact h
    | _ => exact absurd trivial hp
  | some (.take _ pc), h =>
    cases pc with
    | loadSize => trivial
    | lockTakeLoad => trivial
    | lockTakeCas t => exact h
    | reloadSize t => exact ⟨h.1.trans hhead.symm, hf.settled hblock hcap h.2⟩
    | unlockTake t r => exact ⟨h.1.trans hhead.symm, hf.settled hblock hcap h.2⟩
    | readData t =>
      obtain ⟨ht, hs, x, hx⟩ := h
      exact ⟨ht.trans hhead.symm, hf.settled hblock hcap hs, x, hfirst x hx⟩
    | copy t addr k =>
      obtain ⟨ht, hs, ha, hk, x, hx, hb⟩ := h
      exact ⟨ht.trans hhead.symm, hf.settled hblock hcap hs, ha.trans hblock.symm,
        by rwa [hf.elementSize], x, hfirst x hx, hb⟩
    | advance t =>
      obtain ⟨ht, hs, hx⟩ := h
      exact ⟨ht.trans hhead.symm, hf.settled hblock hcap hs, by rw [hf.elementSize]; exact hfirst _ hx⟩
    | fetchSub t =>
      obtain ⟨ht, hs, hx⟩ := h
      refine ⟨by rw [ht, hhead, hcap], hf.settled hblock hcap hs, ?_⟩
      rw [hf.elementSize]
      exact hfirst _ hx

/-- The front of the list may change for a thread that does not own the take lock. -/
theorem Ok.of_take (h : Ok m V c) (ht : ¬ OwnsTake c) (hf : SameFields m m') (hheap : m'.heap = m.heap)
    (hblock : V'.block = V.block) (hcap : V'.cap = V.cap) (htail : V'.tail = V.tail)
    (hlen : V'.items.length ≤ V.items.length) : Ok m' V' c := by
  match c, h with
  | none, _ => trivial
  | some (.take _ pc), h =>
    cases pc with
    | loadSize => trivial
    | lockTakeLoad => trivial
    | lockTakeCas t => exact h
    | _ => exact absurd trivial ht
  | some (.push _ pc), h =>
    cases pc with
    | lockPushLoad => trivial
    | lockPushCas p => exact h
    | loadSize p => exact ⟨h.1.trans htail.symm, hf.settled hblock hcap h.2⟩
    | lockTakeLoad p => exact ⟨h.1.trans htail.symm, hf.settled hblock hcap h.2⟩
    | unlockPush p r => exact ⟨h.1.trans htail.symm, hf.settled hblock hcap h.2⟩
    | testFull p sz =>
      obtain ⟨hp, hs, h1, h2⟩ := h
      exact ⟨hp.trans htail.symm, hf.settled hblock hcap hs, hlen.trans h1, by rwa [hcap]⟩
    | lockTakeCas p t =>
      obtain ⟨hp, hs, hne⟩ := h
      exact ⟨hp.trans htail.symm, hf.settled hblock hcap hs, hne⟩
    | readData p t =>
      obtain ⟨hp, hs, hroom, -⟩ := h
      exact ⟨hp.trans htail.symm, hf.settled hblock hcap hs, hcap ▸ hlen.trans_lt hroom,
        fun hne => absurd hne ht⟩
    | copy p t addr k =>
      obtain ⟨hp, hs, hroom, -, ha, hk, hb⟩ := h
      refine ⟨hp.trans htail.symm, hf.settled hblock hcap hs, hcap ▸ hlen.trans_lt hroom,
        fun hne => absurd hne ht, ha.trans hblock.symm, ?_, ?_⟩
      · rwa [hf.elementSize]
      · rwa [hf.elementSize, hheap]
    | advance p t =>
      obtain ⟨hp, hs, hroom, -, hb⟩ := h
      refine ⟨hp.trans htail.symm, hf.settled hblock hcap hs, hcap ▸ hlen.trans_lt hroom,
        fun hne => absurd hne ht, ?_⟩
      rwa [hf.elementSize, hheap, hblock, htail]
    | fetchAdd p t =>
      obtain ⟨hp, hs, hroom, -, hb⟩ := h
      refine ⟨by rw [hp, htail, hcap], hf.settled hblock hcap hs, hcap ▸ hlen.trans_lt hroom,
        fun hne => absurd hne ht, ?_⟩
      rwa [hf.elementSize, hheap, hblock, htail]
    | _ => exact absurd trivial ht

/-- The view did not change, nor what it is about. -/
theorem Ok.of_same (h : Ok m V c) (hf : SameFields m m') (hheap : m'.heap = m.heap) : Ok m' V c := by
  have hset : Settled m' V ↔ Settled m V := by rw [Settled, hf.dataPtr, hf.capacity, Settled]
  match c, h with
  | none, _ => trivial
  | some (.take _ pc), h =>
    cases pc <;> simp only [Ok, TakePc.Ok, hset, hf.elementSize] at h ⊢ <;> exact h
  | some (.push _ pc), h =>
    cases pc <;> simp only [Ok, PushPc.Ok, hset, hf.elementSize, hf.maxCapacity, hf.dataPtr, hheap,
      moveLength, moveSource, hf.capacity] at h ⊢ <;> exact h

theorem Stored.of_same (h : Stored m V) (hf : SameFields m m') (hheap : m'.heap = m.heap)
    (hsize : m'.queue.size = m.queue.size) : Stored m' V := by
  obtain ⟨h1, h2, h3, h4, h5, h6, h7, h8, h9, h10⟩ := h
  constructor <;> simpa only [hf.elementSize, hf.maxCapacity, hf.capacity, hheap, hsize]

end Frame

end Cryptochan.Queue
