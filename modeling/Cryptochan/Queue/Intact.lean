import Cryptochan.Queue.Sequential

/-!
# Cryptochan.Queue.Intact — calls one after the other, whatever `max_capacity` is

`Intact` is what a call relies on: both locks are free, the indices are slots, the block has room
for `capacity` elements.  Every call that has a result keeps it: a growth whose size in bytes wrapped
around leaves too small a block, so that the `memcpy` has no result.  A call has a result in
every intact state unless it is such a growth (`push_grows`).
-/

namespace Cryptochan.Queue

variable {malloc : Malloc} {m m' : Shared} {element dest : Region} {r : Bool}

/-! ### Calls -/

/-- A call of one of the two functions, with what `element` points at. -/
inductive Call
  | push (element : Region)
  | take (dest : Region)

/-- What the caller gets: the result, and the element of a successful take. -/
structure Answer where
  result : Bool
  element : Option Element
  deriving DecidableEq

def callQueue (malloc : Malloc) (m : Shared) : Call → Option (Shared × Answer)
  | .push element => (cyclicQueuePush malloc m element).map fun (m, result) => (m, ⟨result, none⟩)
  | .take dest => (cyclicQueueTake m dest).map fun (m', dest, result) =>
    (m', ⟨result, if result then some (bytes dest m.queue.elementSize) else none⟩)

theorem of_callQueue_push {a : Answer} (h : callQueue malloc m (.push element) = some (m', a)) :
    ∃ r, cyclicQueuePush malloc m element = some (m', r) ∧ a = ⟨r, none⟩ := by
  obtain ⟨⟨m1, r⟩, hrun, he⟩ := Option.map_eq_some_iff.mp h
  obtain ⟨rfl, rfl⟩ := Prod.mk.inj he
  exact ⟨r, hrun, rfl⟩

theorem of_callQueue_take {a : Answer} (h : callQueue malloc m (.take dest) = some (m', a)) :
    ∃ dest' r, cyclicQueueTake m dest = some (m', dest', r) ∧ a.result = r := by
  obtain ⟨⟨m1, dest', r⟩, hrun, he⟩ := Option.map_eq_some_iff.mp h
  obtain ⟨rfl, rfl⟩ := Prod.mk.inj he
  exact ⟨dest', r, hrun, rfl⟩

/-- One call, with the behaviour of `malloc` during it. -/
def callWith (m : Shared) (c : Malloc × Call) : Option (Shared × Answer) := callQueue c.1 m c.2

/-- Both locks are free, the indices are slots, the block has room for `capacity` elements. -/
structure Intact (m : Shared) : Prop where
  capPos : 0 < m.queue.capacity
  capLe : m.queue.capacity ≤ m.queue.maxCapacity
  capLt : m.queue.capacity < 2 ^ 32
  takeLt : m.queue.takeIdx < m.queue.capacity
  pushLt : m.queue.pushIdx < m.queue.capacity
  bytesLt : m.queue.capacity * m.queue.elementSize < 2 ^ 32
  block : m.heap.sizeAt m.queue.dataPtr = some (m.queue.capacity * m.queue.elementSize)

/-! ### Sizes of blocks -/

namespace Heap

variable {heap heap' : Heap} {addr a dst d src s off n k : ℕ} {bytes : Region} {b : Block}

theorem sizeAt_withBytes (h : heap addr = some b) :
    (heap.withBytes addr b off bytes k).sizeAt a = heap.sizeAt a := by
  unfold withBytes sizeAt
  rcases eq_or_ne a addr with rfl | hne
  · rw [Function.update_self, h]
    rfl
  · rw [Function.update_of_ne hne]

theorem sizeAt_of_write (h : heap.write addr off bytes n = some heap') :
    heap'.sizeAt a = heap.sizeAt a := by
  obtain ⟨b, hb, -, rfl⟩ := of_write h
  exact sizeAt_withBytes hb

theorem of_copy (h : heap.copy dst d src s n = some heap') :
    (∀ a, heap'.sizeAt a = heap.sizeAt a) ∧ (∀ k, heap.sizeAt dst = some k → d + n ≤ k) ∧
      ∀ k, heap.sizeAt src = some k → s + n ≤ k := by
  obtain ⟨bytes, hread, hwrite⟩ := Option.bind_eq_some_iff.mp h
  obtain ⟨b, hb, hle, -⟩ := of_read hread
  obtain ⟨b', hb', hle', -⟩ := of_write hwrite
  refine ⟨fun a => sizeAt_of_write hwrite, ?_, ?_⟩
  · intro k hk
    rw [sizeAt, hb'] at hk
    obtain rfl := Option.some.inj hk
    exact hle'
  · intro k hk
    rw [sizeAt, hb] at hk
    obtain rfl := Option.some.inj hk
    exact hle

theorem exists_read (h : heap.sizeAt addr = some k) (hle : off + n ≤ k) :
    ∃ bytes, heap.read addr off n = some bytes := by
  obtain ⟨b, hb, rfl⟩ := Option.map_eq_some_iff.mp h
  exact ⟨fun k => b.data (off + k), by simp [read, hb, hle]⟩

theorem exists_write (h : heap.sizeAt addr = some k) (hle : off + n ≤ k) (bytes : Region) :
    ∃ heap', heap.write addr off bytes n = some heap' := by
  obtain ⟨b, hb, rfl⟩ := Option.map_eq_some_iff.mp h
  exact ⟨heap.withBytes addr b off bytes n, by simp [write, hb, hle, withBytes]⟩

theorem exists_copy {k' : ℕ} (hsrc : heap.sizeAt src = some k) (hle : s + n ≤ k)
    (hdst : heap.sizeAt dst = some k') (hle' : d + n ≤ k') :
    ∃ heap', heap.copy dst d src s n = some heap' := by
  obtain ⟨bytes, hread⟩ := exists_read hsrc hle
  obtain ⟨heap', hwrite⟩ := exists_write hdst hle' bytes
  exact ⟨heap', Option.bind_eq_some_iff.mpr ⟨bytes, hread, hwrite⟩⟩

theorem isSome_iff_sizeAt : (heap addr).isSome ↔ (heap.sizeAt addr).isSome := by
  rw [sizeAt, Option.isSome_map]

/-- There are finitely many blocks. -/
def Bounded (heap : Heap) : Prop := ∃ n, ∀ a, (heap.sizeAt a).isSome → a < n

theorem Bounded.exists_free (h : heap.Bounded) : ∃ a, heap a = none := by
  obtain ⟨n, hn⟩ := h
  refine ⟨n, ?_⟩
  by_contra hne
  have := hn n (isSome_iff_sizeAt.mp (Option.isSome_iff_ne_none.mpr hne))
  omega

theorem sizeAt_alloc_of_ne (h : a ≠ addr) : (heap.alloc addr n bytes).sizeAt a = heap.sizeAt a := by
  rw [sizeAt, alloc, Function.update_of_ne h, sizeAt]

theorem sizeAt_free_of_ne (h : a ≠ addr) : (heap.free addr).sizeAt a = heap.sizeAt a := by
  rw [sizeAt, free, Function.update_of_ne h, sizeAt]

end Heap

/-- `malloc` succeeds. -/
def Malloc.Succeeds (malloc : Malloc) : Prop :=
  ∀ heap n, heap.Bounded → (malloc.get heap n).isSome

open Classical in
/-- Returns some free address. -/
noncomputable def freeMalloc : Malloc where
  get heap _ := if h : ∃ a, heap a = none then some (choose h, fun _ => 0) else none
  fresh heap n addr data h := by
    split_ifs at h with hfree
    obtain ⟨rfl, -⟩ := Prod.mk.inj (Option.some.inj h)
    exact choose_spec hfree

theorem freeMalloc_succeeds : freeMalloc.Succeeds := by
  intro heap n h
  have hfree := h.exists_free
  simp only [freeMalloc]
  rw [dif_pos hfree]
  rfl

/-! ### Bounds -/

namespace Intact

theorem idx_ne (h : Intact m) {i : ℕ} (hi : i < m.queue.capacity) : i ≠ uint32Max := by
  have := h.capLt
  unfold uint32Max
  omega

theorem u32Mul_eq (h : Intact m) {i : ℕ} (hi : i ≤ m.queue.capacity) :
    u32Mul i m.queue.elementSize = i * m.queue.elementSize :=
  Cryptochan.u32Mul_eq ((Nat.mul_le_mul_right _ hi).trans_lt h.bytesLt)

/-- A slot lies in the block. -/
theorem slot_le (h : Intact m) {i : ℕ} (hi : i < m.queue.capacity) :
    u32Mul i m.queue.elementSize + m.queue.elementSize ≤
      m.queue.capacity * m.queue.elementSize := by
  rw [h.u32Mul_eq hi.le, ← Nat.succ_mul]
  exact Nat.mul_le_mul_right _ hi

/-- The block is never where `malloc` puts a new one. -/
theorem fresh_ne (h : Intact m) {nb : ℕ} (hnb : m.heap nb = none) : nb ≠ m.queue.dataPtr := by
  rintro rfl
  have hblock := h.block
  rw [Heap.sizeAt, hnb] at hblock
  exact absurd hblock (by simp)

theorem setTake (h : Intact m) (n : ℕ) {i : ℕ} (hi : i < m.queue.capacity) :
    Intact ((m.setSize n).setTakeIdx i) :=
  ⟨h.capPos, h.capLe, h.capLt, hi, h.pushLt, h.bytesLt, h.block⟩

end Intact

theorem newCapacity_le (q : CyclicQueue) : newCapacity q ≤ q.maxCapacity := min_le_right _ _

theorem newCapacity_le_double (q : CyclicQueue) : newCapacity q ≤ 2 * q.capacity := by
  have := Nat.mod_le (q.capacity * 2) (2 ^ 32)
  unfold newCapacity u32Mul
  omega

/-! ### The growth -/

/-- The lengths of the two segments of a full queue. -/
theorem segments_eq (h : Intact m) :
    u32Sub m.queue.capacity m.queue.takeIdx = m.queue.capacity - m.queue.takeIdx ∧
      u32Sub m.queue.capacity (m.queue.capacity - m.queue.takeIdx) = m.queue.takeIdx := by
  have hcap := h.capLt
  have htake := h.takeLt
  rw [u32Sub_eq hcap htake.le, u32Sub_eq hcap (Nat.sub_le _ _)]
  exact ⟨rfl, by omega⟩

/-- The `memcpy` of the growth fit into the block of `n` bytes only if a full queue does. -/
theorem of_moveData (h : Intact m) {heap heap' : Heap} {nb n : ℕ} (hnb : heap.sizeAt nb = some n)
    (hmove : moveData m.queue heap m.queue.takeIdx m.queue.capacity nb = some heap') :
    m.queue.capacity * m.queue.elementSize ≤ n ∧ ∀ a, heap'.sizeAt a = heap.sizeAt a := by
  obtain ⟨hfirst, hsecond⟩ := segments_eq h
  unfold moveData at hmove
  dsimp only at hmove
  rw [hfirst, hsecond] at hmove
  split_ifs at hmove with hwrap
  · obtain ⟨heap1, h1, h2⟩ := Option.bind_eq_some_iff.mp hmove
    obtain ⟨hsize1, -, -⟩ := Heap.of_copy h1
    obtain ⟨hsize2, hle2, -⟩ := Heap.of_copy h2
    refine ⟨?_, fun a => (hsize2 a).trans (hsize1 a)⟩
    have := hle2 n ((hsize1 nb).trans hnb)
    rw [h.u32Mul_eq (Nat.sub_le _ _), h.u32Mul_eq h.takeLt.le, ← Nat.add_mul,
      Nat.sub_add_cancel h.takeLt.le] at this
    exact this
  · obtain ⟨hsize, hle, -⟩ := Heap.of_copy hmove
    refine ⟨?_, hsize⟩
    have := hle n hnb
    rw [h.u32Mul_eq le_rfl] at this
    omega

/-- They fit if the double capacity does not wrap around. -/
theorem exists_moveData (h : Intact m) {heap : Heap} {nb n : ℕ} (hnb : heap.sizeAt nb = some n)
    (hold : heap.sizeAt m.queue.dataPtr = some (m.queue.capacity * m.queue.elementSize))
    (hle : m.queue.capacity * m.queue.elementSize ≤ n) (hfits : 2 * m.queue.capacity < 2 ^ 32) :
    ∃ heap', moveData m.queue heap m.queue.takeIdx m.queue.capacity nb = some heap' := by
  obtain ⟨hfirst, hsecond⟩ := segments_eq h
  have htake := h.takeLt
  have hadd : u32Add m.queue.takeIdx m.queue.capacity = m.queue.takeIdx + m.queue.capacity :=
    u32Add_eq (by omega)
  have hsum : (m.queue.capacity - m.queue.takeIdx) * m.queue.elementSize +
      m.queue.takeIdx * m.queue.elementSize = m.queue.capacity * m.queue.elementSize := by
    rw [← Nat.add_mul, Nat.sub_add_cancel htake.le]
  unfold moveData
  dsimp only
  rw [hfirst, hsecond, hadd, h.u32Mul_eq (Nat.sub_le _ _), h.u32Mul_eq htake.le, h.u32Mul_eq le_rfl]
  split_ifs with hwrap
  · obtain ⟨heap1, h1⟩ := Heap.exists_copy (s := m.queue.takeIdx * m.queue.elementSize) (d := 0)
      (n := (m.queue.capacity - m.queue.takeIdx) * m.queue.elementSize) hold (by omega) hnb
      (by omega)
    obtain ⟨hsize, -, -⟩ := Heap.of_copy h1
    obtain ⟨heap2, h2⟩ := Heap.exists_copy (s := 0)
      (d := (m.queue.capacity - m.queue.takeIdx) * m.queue.elementSize)
      (n := m.queue.takeIdx * m.queue.elementSize) ((hsize _).trans hold) (by omega)
      ((hsize _).trans hnb) (by omega)
    exact ⟨heap2, Option.bind_eq_some_iff.mpr ⟨heap1, h1, h2⟩⟩
  · -- nothing wraps, so the first element is in the slot 0
    have hzero : m.queue.takeIdx = 0 := by omega
    rw [hzero, Nat.zero_mul]
    exact Heap.exists_copy hold (by omega) hnb (by omega)

/-! ### What a push leaves -/

theorem unlockBoth_eq (m : Shared) (p i : ℕ) : unlockBoth m p i =
    ⟨{ m.queue with takeIdx := if i ≠ uint32Max then i else m.queue.takeIdx, pushIdx := p },
      m.heap⟩ := by
  unfold unlockBoth
  split_ifs <;> rfl

theorem unlockBoth_lockBoth (ht : m.queue.takeIdx ≠ uint32Max) :
    unlockBoth (lockBoth m) m.queue.pushIdx m.queue.takeIdx = m := by
  rw [unlockBoth_eq, if_pos ht]
  rfl

/-- **A push that returns `false`** gives the locks back with the indices it found. -/
theorem of_push_false (h : cyclicQueuePush malloc m element = some (m', false)) :
    m' = m ∧ m.queue.pushIdx ≠ uint32Max ∧ m.queue.takeIdx ≠ uint32Max ∧
      m.queue.size = m.queue.capacity ∧ (newCapacity m.queue = m.queue.capacity ∨
        newCapacity m.queue ≠ m.queue.capacity ∧ malloc.get m.heap (newBytes m.queue) = none) := by
  obtain ⟨hp, ⟨-, h⟩ | ⟨hfull, ht, h⟩⟩ := of_cyclicQueuePush h
  · obtain ⟨htrue, -⟩ := of_pushElement h
    exact absurd htrue (by simp)
  · rcases of_pushFull h with ⟨-, rfl, hwhy⟩ | ⟨htrue, -⟩
    · exact ⟨unlockBoth_lockBoth ht, hp, ht, hfull, hwhy⟩
    · exact absurd htrue (by simp)

/-- The parts of the queue that a push leaves alone, and the blocks in use. -/
structure SameShape (m m' : Shared) : Prop where
  maxCapacity : m'.queue.maxCapacity = m.queue.maxCapacity
  elementSize : m'.queue.elementSize = m.queue.elementSize
  blocks : ∃ nb, ∀ a, (m'.heap.sizeAt a).isSome → a = nb ∨ (m.heap.sizeAt a).isSome

theorem SameShape.bounded (h : SameShape m m') (hm : m.heap.Bounded) : m'.heap.Bounded := by
  obtain ⟨nb, hnb⟩ := h.blocks
  obtain ⟨n, hn⟩ := hm
  refine ⟨max n (nb + 1), ?_⟩
  intro a ha
  rcases hnb a ha with rfl | hold
  · omega
  · have := hn a hold
    omega

theorem SameShape.refl (m : Shared) : SameShape m m := ⟨rfl, rfl, 0, fun _ => Or.inr⟩

theorem sameShape_setTake (m : Shared) (n i : ℕ) : SameShape m ((m.setSize n).setTakeIdx i) :=
  ⟨rfl, rfl, 0, fun _ => Or.inr⟩

/-- `m'` is `m` with one more element. -/
structure OneMore (m m' : Shared) : Prop where
  intact : Intact m'
  shape : SameShape m m'
  size : m'.queue.size = u32Add m.queue.size 1

/-- The element is pushed into an intact queue; the two index fields are those of the locals. -/
theorem pushElement_intact {p i : ℕ} (h : Intact (unlockBoth m 0 i))
    (hrun : pushElement m element p i = some (m', r)) :
    Intact m' ∧ m'.queue.capacity = m.queue.capacity ∧ m'.queue.maxCapacity = m.queue.maxCapacity ∧
      m'.queue.elementSize = m.queue.elementSize ∧ m'.queue.size = u32Add m.queue.size 1 ∧
      ∀ a, m'.heap.sizeAt a = m.heap.sizeAt a := by
  obtain ⟨-, hcap, heap, hwrite, rfl⟩ := of_pushElement hrun
  have hsize : ∀ a, heap.sizeAt a = m.heap.sizeAt a := fun a => Heap.sizeAt_of_write hwrite
  rw [unlockBoth_eq] at h ⊢
  refine ⟨⟨h.capPos, h.capLe, h.capLt, h.takeLt, Nat.mod_lt _ h.capPos, h.bytesLt, ?_⟩, rfl, rfl,
    rfl, rfl, hsize⟩
  exact (hsize _).trans h.block

theorem lockPush_intact (h : Intact m) :
    Intact (unlockBoth (m.setPushIdx uint32Max) 0 uint32Max) := by
  rw [unlockBoth_eq, if_neg (fun hne => hne rfl)]
  exact ⟨h.capPos, h.capLe, h.capLt, h.takeLt, h.capPos, h.bytesLt, h.block⟩

/-- A push into a queue that is not full. -/
theorem push_room (h : Intact m) (hroom : m.queue.size ≠ m.queue.capacity)
    (hrun : cyclicQueuePush malloc m element = some (m', r)) :
    OneMore m m' ∧ m'.queue.capacity = m.queue.capacity := by
  obtain ⟨-, ⟨-, hrun⟩ | ⟨hfull, -⟩⟩ := of_cyclicQueuePush hrun
  · obtain ⟨h', hcap, hmax, hes, hsize, hblocks⟩ := pushElement_intact (lockPush_intact h) hrun
    refine ⟨⟨h', ⟨hmax, hes, 0, ?_⟩, hsize⟩, hcap⟩
    intro a ha
    rw [hblocks a] at ha
    exact Or.inr ha
  · exact absurd hfull hroom

/-- The new block is as large as it must be. -/
theorem newBytes_eq (h : Intact m)
    (hle : m.queue.capacity * m.queue.elementSize ≤ newBytes m.queue) :
    newBytes m.queue = newCapacity m.queue * m.queue.elementSize ∧
      newCapacity m.queue * m.queue.elementSize < 2 ^ 32 := by
  have hdouble := Nat.mul_le_mul_right m.queue.elementSize (newCapacity_le_double m.queue)
  have hbytes := h.bytesLt
  rw [Nat.mul_assoc] at hdouble
  unfold newBytes u32Mul at hle ⊢
  rw [Nat.mul_comm m.queue.elementSize] at hle ⊢
  -- a size that wrapped around is less than that of the full queue
  omega

/-- The queue with the new region. -/
theorem withData_intact {nb : ℕ} {data : Region} {heap : Heap}
    (hne : nb ≠ m.queue.dataPtr)
    (hsize : ∀ a, heap.sizeAt a = (m.heap.alloc nb (newBytes m.queue) data).sizeAt a)
    (hpos : 0 < newCapacity m.queue)
    (hexact : newBytes m.queue = newCapacity m.queue * m.queue.elementSize)
    (hlt : newCapacity m.queue * m.queue.elementSize < 2 ^ 32) :
    Intact (unlockBoth (withData (lockBoth m).queue heap nb) 0 0) := by
  rw [unlockBoth_eq, if_pos (by decide)]
  refine ⟨hpos, newCapacity_le _, ?_, hpos, hpos, hlt, ?_⟩
  · exact (min_le_left _ _).trans_lt (Nat.mod_lt _ (by decide))
  · refine (Heap.sizeAt_free_of_ne hne).trans ((hsize nb).trans ?_)
    exact Heap.sizeAt_alloc.trans (congrArg some hexact)

theorem grows_intact (h : Intact m) {nb : ℕ} {data : Region} {heap : Heap}
    (hg : Grows malloc (lockBoth m) element m.queue.takeIdx m.queue.capacity m' nb data heap) :
    Intact m' ∧ SameShape m m' ∧ m'.queue.capacity = newCapacity m.queue ∧
      m'.queue.size = u32Add m.queue.size 1 := by
  have hne : nb ≠ m.queue.dataPtr := h.fresh_ne (malloc.fresh _ _ _ _ hg.alloc)
  have hmove : moveData m.queue (m.heap.alloc nb (newBytes m.queue) data) m.queue.takeIdx
      m.queue.capacity nb = some heap := hg.move
  obtain ⟨hle, hsize⟩ := of_moveData h Heap.sizeAt_alloc hmove
  obtain ⟨hexact, hlt⟩ := newBytes_eq h hle
  obtain ⟨-, hpos, -⟩ := of_pushElement hg.push
  have h0 := withData_intact hne hsize (Nat.pos_of_ne_zero hpos) hexact hlt
  obtain ⟨h', hcap, hmax, hes, hsize', hblocks⟩ := pushElement_intact h0 hg.push
  refine ⟨h', ⟨hmax, hes, nb, ?_⟩, hcap, hsize'⟩
  intro a ha
  rw [hblocks a] at ha
  by_cases hold : a = m.queue.dataPtr
  · rw [hold]
    exact Or.inr (by rw [h.block]; rfl)
  · rcases eq_or_ne a nb with rfl | hanb
    · exact Or.inl rfl
    · have hkept : (heap.free m.queue.dataPtr).sizeAt a = m.heap.sizeAt a := by
        rw [Heap.sizeAt_free_of_ne hold, hsize a, Heap.sizeAt_alloc_of_ne hanb]
      exact Or.inr (hkept ▸ ha)

/-- A push into a full queue that finds room. -/
theorem push_full (h : Intact m) (hfull : m.queue.size = m.queue.capacity)
    (hrun : cyclicQueuePush malloc m element = some (m', true)) :
    OneMore m m' ∧ m'.queue.capacity = newCapacity m.queue := by
  obtain ⟨-, ⟨hroom, -⟩ | ⟨-, -, hrun⟩⟩ := of_cyclicQueuePush hrun
  · exact absurd hfull hroom
  · rcases of_pushFull hrun with ⟨hfalse, -⟩ | ⟨-, nb, data, heap, hg⟩
    · exact absurd hfalse (by simp)
    · rw [hfull] at hg
      obtain ⟨h', hshape, hcap, hsize⟩ := grows_intact h hg
      exact ⟨⟨h', hshape, hsize⟩, hcap⟩

/-- Every push keeps the queue intact. -/
theorem push_intact (h : Intact m) (hrun : cyclicQueuePush malloc m element = some (m', r)) :
    Intact m' ∧ SameShape m m' := by
  cases r with
  | false =>
    obtain ⟨rfl, -⟩ := of_push_false hrun
    exact ⟨h, SameShape.refl m'⟩
  | true =>
    by_cases hfull : m.queue.size = m.queue.capacity
    · obtain ⟨hmore, -⟩ := push_full h hfull hrun
      exact ⟨hmore.intact, hmore.shape⟩
    · obtain ⟨hmore, -⟩ := push_room h hfull hrun
      exact ⟨hmore.intact, hmore.shape⟩

/-- Every take has a result and keeps the queue intact. -/
theorem take_intact (h : Intact m) (dest : Region) : ∃ m' dest' r,
    cyclicQueueTake m dest = some (m', dest', r) ∧ Intact m' ∧ SameShape m m' ∧
      (r = true ↔ m.queue.size ≠ 0) ∧ (r = false → m' = m) := by
  by_cases hzero : m.queue.size = 0
  · exact ⟨m, dest, false, take_of_empty hzero dest, h, SameShape.refl m, by simp [hzero],
      fun _ => rfl⟩
  · obtain ⟨element, hread⟩ := Heap.exists_read h.block (h.slot_le h.takeLt)
    refine ⟨_, _, true, take_of_nonempty hzero (h.idx_ne h.takeLt) h.capPos.ne' hread dest, ?_, ?_,
      by simp [hzero], by simp⟩
    · exact h.setTake _ (Nat.mod_lt _ h.capPos)
    · exact sameShape_setTake m _ _

theorem of_take (h : Intact m) {dest' : Region}
    (hrun : cyclicQueueTake m dest = some (m', dest', r)) : Intact m' ∧ SameShape m m' ∧
      (r = true ↔ m.queue.size ≠ 0) ∧ (r = false → m' = m) := by
  obtain ⟨m2, dest2, r2, hrun2, hfacts⟩ := take_intact h dest
  obtain ⟨rfl, hrest⟩ := Prod.mk.inj (Option.some.inj (hrun.symm.trans hrun2))
  obtain ⟨-, rfl⟩ := Prod.mk.inj hrest
  exact hfacts

theorem callQueue_intact (h : Intact m) {c : Call} {a : Answer}
    (hrun : callQueue malloc m c = some (m', a)) : Intact m' ∧ SameShape m m' := by
  cases c with
  | push element =>
    obtain ⟨r, hpush, -⟩ := of_callQueue_push hrun
    exact push_intact h hpush
  | take dest =>
    obtain ⟨dest', r, htake, -⟩ := of_callQueue_take hrun
    obtain ⟨h', hshape, -⟩ := of_take h htake
    exact ⟨h', hshape⟩

/-- What a successful `cyclic_queue_init` leaves is intact. -/
theorem init_intact {heap : Heap} {elementSize initialCapacity : ℕ} {block : Option (ℕ × Region)}
    {max : ℕ} (hinit : cyclicQueueInit heap elementSize initialCapacity block = .ok m)
    (hmax : m.queue.capacity ≤ max) : Intact (m.setMaxCapacity max) := by
  obtain ⟨c, addr, data, -, hpos, hle, hes, rfl⟩ := of_cyclicQueueInit hinit
  have hbytes : c * elementSize < 2 ^ 32 :=
    lt_of_le_of_lt (Nat.mul_le_mul hle hes) (by decide)
  have hblock : (heap.alloc addr (u32Mul c elementSize) data).sizeAt addr =
      some (c * elementSize) := by
    rw [Heap.sizeAt_alloc, Cryptochan.u32Mul_eq hbytes]
  exact ⟨hpos, hmax, lt_of_le_of_lt hle (by decide), hpos, hpos, hbytes, hblock⟩

/-! ### When a push has a result -/

theorem pushElement_some {p i : ℕ} (h : Intact (unlockBoth m 0 i)) (hp : p < m.queue.capacity) :
    ∃ m', pushElement m element p i = some (m', true) := by
  rw [unlockBoth_eq] at h
  obtain ⟨heap, hwrite⟩ := Heap.exists_write h.block (h.slot_le hp) element
  exact ⟨_, Option.bind_eq_some_iff.mpr ⟨heap, hwrite,
    Option.bind_eq_some_iff.mpr ⟨_, if_neg h.capPos.ne', rfl⟩⟩⟩

theorem push_room_some (h : Intact m) (hroom : m.queue.size ≠ m.queue.capacity) :
    ∃ m', cyclicQueuePush malloc m element = some (m', true) := by
  rw [push_of_room (h.idx_ne h.pushLt) hroom]
  exact pushElement_some (lockPush_intact h) h.pushLt

/-- The double capacity, and the bytes of the new region, fit into 32 bits. -/
def GrowthFits (q : CyclicQueue) : Prop :=
  2 * q.capacity < 2 ^ 32 ∧ newCapacity q * q.elementSize < 2 ^ 32

/-- Up to `CYCLIC_QUEUE_MAX_CAPACITY` elements every growth fits. -/
theorem Intact.growthFits (h : Intact m) (hmax : m.queue.maxCapacity ≤ cyclicQueueMaxCapacity)
    (hes : m.queue.elementSize ≤ cyclicQueueMaxElementSize) : GrowthFits m.queue := by
  have hle := h.capLe
  have hnew := (newCapacity_le m.queue).trans hmax
  have hbytes : newCapacity m.queue * m.queue.elementSize ≤ 0x40000 * 0x400 :=
    Nat.mul_le_mul hnew hes
  unfold cyclicQueueMaxCapacity at hmax
  exact ⟨by omega, by omega⟩

theorem GrowthFits.larger {q : CyclicQueue} (h : GrowthFits q) (hpos : 0 < q.capacity)
    (hlt : q.capacity < q.maxCapacity) : q.capacity < newCapacity q := by
  have hdouble : u32Mul q.capacity 2 = q.capacity * 2 := u32Mul_eq (by have := h.1; omega)
  unfold newCapacity
  rw [hdouble]
  omega

/-- **A full queue grows** if `malloc` succeeds and the sizes fit. -/
theorem push_grows (h : Intact m) (hfull : m.queue.size = m.queue.capacity)
    (hlt : m.queue.capacity < m.queue.maxCapacity) (hfits : GrowthFits m.queue)
    (hmalloc : (malloc.get m.heap (newBytes m.queue)).isSome) :
    ∃ m', cyclicQueuePush malloc m element = some (m', true) := by
  obtain ⟨⟨nb, data⟩, halloc⟩ := Option.isSome_iff_exists.mp hmalloc
  have hne : nb ≠ m.queue.dataPtr := h.fresh_ne (malloc.fresh _ _ _ _ halloc)
  have hlarger := hfits.larger h.capPos hlt
  have hexact : newBytes m.queue = newCapacity m.queue * m.queue.elementSize := by
    rw [newBytes, u32Mul_eq (by rw [Nat.mul_comm]; exact hfits.2), Nat.mul_comm]
  have hold : (m.heap.alloc nb (newBytes m.queue) data).sizeAt m.queue.dataPtr =
      some (m.queue.capacity * m.queue.elementSize) :=
    (Heap.sizeAt_alloc_of_ne hne.symm).trans h.block
  obtain ⟨heap, hmove⟩ := exists_moveData h Heap.sizeAt_alloc hold
    (hexact ▸ Nat.mul_le_mul_right _ hlarger.le) hfits.1
  obtain ⟨-, hsize⟩ := of_moveData h Heap.sizeAt_alloc hmove
  obtain ⟨m', hpush⟩ : ∃ m', pushElement (withData (lockBoth m).queue heap nb) element
      m.queue.capacity 0 = some (m', true) :=
    pushElement_some (withData_intact hne hsize (Nat.zero_lt_of_lt hlarger) hexact hfits.2) hlarger
  refine ⟨m', ?_⟩
  rw [push_of_full (h.idx_ne h.pushLt) (h.idx_ne h.takeLt) hfull, hfull]
  have hfree : (heap m.queue.dataPtr).isSome := by
    rw [Heap.isSome_iff_sizeAt, hsize, hold]
    rfl
  exact pushFull_of_grows ⟨hlarger.ne', halloc, hmove, hfree, hpush⟩

/-- A full queue that may not grow, or for which there is no memory. -/
theorem push_full_false (h : Intact m) (hfull : m.queue.size = m.queue.capacity)
    (hwhy : newCapacity m.queue = m.queue.capacity ∨
      malloc.get m.heap (newBytes m.queue) = none) :
    cyclicQueuePush malloc m element = some (m, false) := by
  have ht := h.idx_ne h.takeLt
  rw [push_of_full (h.idx_ne h.pushLt) ht hfull]
  have hend : some (unlockBoth (lockBoth m) m.queue.pushIdx m.queue.takeIdx, false) =
      some (m, false) := by rw [unlockBoth_lockBoth ht]
  unfold pushFull
  dsimp only
  by_cases hmax : newCapacity m.queue = m.queue.capacity
  · exact (if_pos hmax).trans hend
  · refine (if_neg hmax).trans ?_
    have hnone : malloc.get (lockBoth m).heap (newBytes (lockBoth m).queue) = none :=
      hwhy.resolve_left hmax
    rw [hnone]
    exact hend

end Cryptochan.Queue
