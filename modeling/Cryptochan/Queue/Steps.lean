import Cryptochan.Queue.Inv

/-!
# Cryptochan.Queue.Steps — the kinds of steps

A step changes no shared memory, or takes or gives back a lock, or stores a byte of the new element,
or changes `size`, or is done under both locks.  Each kind keeps the invariant, whatever the program
point.  The growth moves the elements to the beginning of a larger block.
-/

namespace Cryptochan.Queue

variable {τ : Type} {s : Sys τ} {V V' : View} {t : τ} {op : Op} {c : Option Op} {m' : Shared}
  {h' : History τ}

/-! ### Bounds -/

theorem Stored.idx_lt {m : Shared} (h : Stored m V) {i : ℕ} (hi : i < V.cap) : i < 0x40000 :=
  hi.trans_le (h.maxLe.trans h.maxBound)

theorem Stored.tail_lt {m : Shared} (h : Stored m V) : V.tail < V.cap :=
  Nat.mod_lt _ (Nat.zero_lt_of_lt h.headLt)

theorem Stored.ne_uint32Max {m : Shared} (h : Stored m V) {i : ℕ} (hi : i < V.cap) :
    i ≠ uint32Max := by
  have := h.idx_lt hi
  unfold uint32Max
  omega

/-- Offsets of elements do not wrap. -/
theorem Stored.mul_le {m : Shared} (h : Stored m V) {i : ℕ} (hi : i ≤ V.cap) :
    i * m.queue.elementSize ≤ 0x10000000 := by
  have h1 : i ≤ 0x40000 := hi.trans (h.maxLe.trans h.maxBound)
  calc i * m.queue.elementSize ≤ 0x40000 * 0x400 := Nat.mul_le_mul h1 h.elementSize
    _ = 0x10000000 := rfl

theorem Stored.u32Mul_idx {m : Shared} (h : Stored m V) {i : ℕ} (hi : i ≤ V.cap) :
    u32Mul i m.queue.elementSize = i * m.queue.elementSize :=
  u32Mul_eq (lt_of_le_of_lt (h.mul_le hi) (by decide))

/-- The slot behind the list is none of its slots. -/
theorem slot_ne_tail {i : ℕ} (hi : i < V.items.length) (hroom : V.items.length < V.cap) :
    (V.head + i) % V.cap ≠ V.tail :=
  Circular.slot_ne (by omega) (by omega) (by omega)

/-! ### Kinds of steps -/

/-- The elements in the records are the same. -/
def SameElements (h h' : History τ) : Prop := h'.pushed = h.pushed ∧ h'.taken = h.taken

theorem ok_update [DecidableEq τ] {m : Shared} {calls : τ → Option Op} (hc : Ok m V c)
    (ho : ∀ u, u ≠ t → Ok m V (calls u)) (u : τ) : Ok m V (Function.update calls t c u) := by
  rcases eq_or_ne u t with rfl | hne
  · rwa [Function.update_self]
  · rw [Function.update_of_ne hne]
    exact ho u hne

namespace InvAt

theorem history_of_same (h : InvAt s V) (hh : SameElements s.history h') :
    h'.pushed = h'.taken ++ V.items := by
  rw [hh.1, hh.2]
  exact h.history

theorem ok_of (h : InvAt s V) (hop : s.calls t = some op) : Ok s.shared V (some op) :=
  hop ▸ h.ok t

variable [DecidableEq τ]

/-- A step that changes no shared memory. -/
theorem keep (h : InvAt s V) (hop : s.calls t = some op) (hp : OwnsPush c ↔ OwnsPush (some op))
    (ht : OwnsTake c ↔ OwnsTake (some op)) (hc : Ok s.shared V c)
    (hh : SameElements s.history h') : InvAt ⟨s.shared, Function.update s.calls t c, h'⟩ V where
  pushLock := h.pushLock.same (hop ▸ hp) Iff.rfl
  takeLock := h.takeLock.same (hop ▸ ht) Iff.rfl
  stored := h.stored
  pushFree := h.pushFree
  takeFree := h.takeFree
  ok := ok_update hc fun u _ => h.ok u
  history := h.history_of_same hh

/-- The push lock is taken. -/
theorem lockPush (h : InvAt s V) (hop : s.calls t = some op) (hfree : s.queue.pushIdx ≠ uint32Max)
    (hp : OwnsPush c) (ht : OwnsTake c ↔ OwnsTake (some op)) (hc : Ok s.shared V c)
    (hh : SameElements s.history h') :
    InvAt ⟨s.shared.setPushIdx uint32Max, Function.update s.calls t c, h'⟩ V where
  pushLock := h.pushLock.acquire hfree hp rfl
  takeLock := h.takeLock.same (hop ▸ ht) Iff.rfl
  stored := h.stored.of_same ⟨rfl, rfl, rfl, rfl⟩ rfl rfl
  pushFree := fun hne => absurd rfl hne
  takeFree := h.takeFree
  ok := ok_update (hc.of_same ⟨rfl, rfl, rfl, rfl⟩ rfl) fun u _ =>
    (h.ok u).of_same ⟨rfl, rfl, rfl, rfl⟩ rfl
  history := h.history_of_same hh

/-- The take lock is taken. -/
theorem lockTake (h : InvAt s V) (hop : s.calls t = some op) (hfree : s.queue.takeIdx ≠ uint32Max)
    (hp : OwnsPush c ↔ OwnsPush (some op)) (ht : OwnsTake c) (hc : Ok s.shared V c)
    (hh : SameElements s.history h') :
    InvAt ⟨s.shared.setTakeIdx uint32Max, Function.update s.calls t c, h'⟩ V where
  pushLock := h.pushLock.same (hop ▸ hp) Iff.rfl
  takeLock := h.takeLock.acquire hfree ht rfl
  stored := h.stored.of_same ⟨rfl, rfl, rfl, rfl⟩ rfl rfl
  pushFree := h.pushFree
  takeFree := fun hne => absurd rfl hne
  ok := ok_update (hc.of_same ⟨rfl, rfl, rfl, rfl⟩ rfl) fun u _ =>
    (h.ok u).of_same ⟨rfl, rfl, rfl, rfl⟩ rfl
  history := h.history_of_same hh

/-- The push lock is given back, with the slot behind the list. -/
theorem unlockPush (h : InvAt s V) (hop : s.calls t = some op) (hown : OwnsPush (some op))
    (hp : ¬ OwnsPush c) (ht : OwnsTake c ↔ OwnsTake (some op)) (hs : Settled s.shared V)
    (hc : Ok s.shared V c) (hh : SameElements s.history h') :
    InvAt ⟨s.shared.setPushIdx V.tail, Function.update s.calls t c, h'⟩ V where
  pushLock := h.pushLock.release (hop ▸ hown) hp (h.stored.ne_uint32Max h.stored.tail_lt)
  takeLock := h.takeLock.same (hop ▸ ht) Iff.rfl
  stored := h.stored.of_same ⟨rfl, rfl, rfl, rfl⟩ rfl rfl
  pushFree := fun _ => ⟨rfl, hs⟩
  takeFree := h.takeFree
  ok := ok_update (hc.of_same ⟨rfl, rfl, rfl, rfl⟩ rfl) fun u _ =>
    (h.ok u).of_same ⟨rfl, rfl, rfl, rfl⟩ rfl
  history := h.history_of_same hh

/-- The take lock is given back, with the slot of the first element. -/
theorem unlockTake (h : InvAt s V) (hop : s.calls t = some op) (hown : OwnsTake (some op))
    (hp : OwnsPush c ↔ OwnsPush (some op)) (ht : ¬ OwnsTake c) (hs : Settled s.shared V)
    (hc : Ok s.shared V c) (hh : SameElements s.history h') :
    InvAt ⟨s.shared.setTakeIdx V.head, Function.update s.calls t c, h'⟩ V where
  pushLock := h.pushLock.same (hop ▸ hp) Iff.rfl
  takeLock := h.takeLock.release (hop ▸ hown) ht (h.stored.ne_uint32Max h.stored.headLt)
  stored := h.stored.of_same ⟨rfl, rfl, rfl, rfl⟩ rfl rfl
  pushFree := h.pushFree
  takeFree := fun _ => ⟨rfl, hs⟩
  ok := ok_update (hc.of_same ⟨rfl, rfl, rfl, rfl⟩ rfl) fun u _ =>
    (h.ok u).of_same ⟨rfl, rfl, rfl, rfl⟩ rfl
  history := h.history_of_same hh

/-- A byte of the new element is stored behind the list. -/
theorem copyByte (h : InvAt s V) (hop : s.calls t = some op) (hown : OwnsPush (some op))
    (hp : OwnsPush c) (ht : OwnsTake c ↔ OwnsTake (some op)) (hroom : V.items.length < V.cap) {k : ℕ}
    (hk : k < s.queue.elementSize) (v : UInt8)
    (hc : Ok (s.shared.storeByte V.block (V.tail * s.queue.elementSize + k) v) V c)
    (hh : SameElements s.history h') :
    InvAt ⟨s.shared.storeByte V.block (V.tail * s.queue.elementSize + k) v,
      Function.update s.calls t c, h'⟩ V where
  pushLock := h.pushLock.same (iff_of_true hp (hop ▸ hown)) Iff.rfl
  takeLock := h.takeLock.same (hop ▸ ht) Iff.rfl
  stored :=
    { h.stored with
      block := by rw [Shared.storeByte, Heap.sizeAt_store]; exact h.stored.block
      holds := h.stored.holds.congr fun i hi =>
        Heap.slot_store_of_ne hk (slot_ne_tail hi hroom) }
  pushFree := h.pushFree
  takeFree := h.takeFree
  ok := ok_update hc fun u hne => (h.ok u).of_push (h.pushLock.not_own_of_ne (hop ▸ hown) hne)
    ⟨rfl, rfl, rfl, rfl⟩ rfl rfl rfl fun _ hx => hx
  history := h.history_of_same hh

/-- The view after the element behind the list is counted. -/
def pushed (V : View) (x : Element) : View := { V with items := V.items ++ [x] }

theorem tail_pushed (V : View) (x : Element) : (pushed V x).tail = (V.tail + 1) % V.cap := by
  simp [pushed, View.tail, Nat.add_assoc]

/-- `size` is incremented. -/
theorem fetchAdd (h : InvAt s V) (hop : s.calls t = some op) (hown : OwnsPush (some op))
    (hp : OwnsPush c) (ht : OwnsTake c ↔ OwnsTake (some op)) (hs : Settled s.shared V)
    (hroom : V.items.length < V.cap) {x : Element}
    (hx : s.shared.heap.slot V.block s.queue.elementSize V.tail = x)
    (hc : Ok s.shared (pushed V x) c) (hpush : h'.pushed = s.history.pushed ++ [x])
    (htake : h'.taken = s.history.taken) :
    InvAt ⟨s.shared.setSize (s.queue.size + 1), Function.update s.calls t c, h'⟩ (pushed V x) where
  pushLock := h.pushLock.same (iff_of_true hp (hop ▸ hown)) Iff.rfl
  takeLock := h.takeLock.same (hop ▸ ht) Iff.rfl
  stored :=
    { h.stored with
      sizeEq := by
        have := h.stored.sizeEq
        simp [pushed, Shared.setSize, Shared.withQueue, this]
      sizeLe := by
        have : s.shared.queue.capacity = V.cap := hs.2
        simp [pushed, Shared.setSize, Shared.withQueue]
        omega
      holds := h.stored.holds.concat hx }
  pushFree := fun hne => absurd (h.pushLock.locked_of_own (hop ▸ hown)) hne
  takeFree := h.takeFree
  ok := ok_update (hc.of_same ⟨rfl, rfl, rfl, rfl⟩ rfl) fun u hne =>
    (h.ok u).of_push (h.pushLock.not_own_of_ne (hop ▸ hown) hne) ⟨rfl, rfl, rfl, rfl⟩ rfl rfl rfl
      fun y hy => by simp [pushed, hy]
  history := by rw [hpush, htake, h.history, List.append_assoc]; rfl

/-- The view after the first element is no longer counted. -/
def taken (V : View) : View := { V with head := (V.head + 1) % V.cap, items := V.items.tail }

theorem tail_taken {x : Element} (hx : V.items.head? = some x) : (taken V).tail = V.tail := by
  obtain ⟨rest, hrest⟩ := List.head?_eq_some_iff.mp hx
  simp only [taken, View.tail, hrest, List.tail_cons, List.length_cons, Nat.mod_add_mod]
  congr 1
  omega

/-- `size` is decremented. -/
theorem fetchSub (h : InvAt s V) (hop : s.calls t = some op) (hown : OwnsTake (some op))
    (ht : OwnsTake c) (hp : OwnsPush c ↔ OwnsPush (some op)) {x : Element}
    (hx : V.items.head? = some x) (hc : Ok s.shared (taken V) c) (hpush : h'.pushed = s.history.pushed)
    (htake : h'.taken = s.history.taken ++ [x]) :
    InvAt ⟨s.shared.setSize (s.queue.size - 1), Function.update s.calls t c, h'⟩ (taken V) where
  pushLock := h.pushLock.same (hop ▸ hp) Iff.rfl
  takeLock := h.takeLock.same (iff_of_true ht (hop ▸ hown)) Iff.rfl
  stored :=
    { h.stored with
      sizeEq := by
        have := h.stored.sizeEq
        simp [taken, Shared.setSize, Shared.withQueue, this]
      sizeLe := by
        have := h.stored.sizeLe
        simp [taken, Shared.setSize, Shared.withQueue]
        omega
      headLt := Nat.mod_lt _ (Nat.zero_lt_of_lt h.stored.headLt)
      holds := h.stored.holds.tail }
  pushFree := fun hne => by rw [tail_taken hx]; exact h.pushFree hne
  takeFree := fun hne => absurd (h.takeLock.locked_of_own (hop ▸ hown)) hne
  ok := ok_update (hc.of_same ⟨rfl, rfl, rfl, rfl⟩ rfl) fun u hne =>
    (h.ok u).of_take (h.takeLock.not_own_of_ne (hop ▸ hown) hne) ⟨rfl, rfl, rfl, rfl⟩ rfl rfl rfl
      (tail_taken hx) (by simp [taken])
  history := by
    obtain ⟨rest, hrest⟩ := List.head?_eq_some_iff.mp hx
    rw [hpush, htake, h.history, List.append_assoc, taken, hrest]
    rfl

/-- A step of the owner of both locks, who alone sees what changes. -/
theorem solo (h : InvAt s V) (hop : s.calls t = some op) (hpown : OwnsPush (some op))
    (htown : OwnsTake (some op)) (hp : OwnsPush c) (ht : OwnsTake c)
    (hpush : m'.queue.pushIdx = s.queue.pushIdx) (htake : m'.queue.takeIdx = s.queue.takeIdx)
    (hstored : Stored m' V') (hc : Ok m' V' c) (hitems : V'.items = V.items)
    (hh : SameElements s.history h') : InvAt ⟨m', Function.update s.calls t c, h'⟩ V' where
  pushLock := h.pushLock.same (iff_of_true hp (hop ▸ hpown)) (by rw [Sys.queue, hpush])
  takeLock := h.takeLock.same (iff_of_true ht (hop ▸ htown)) (by rw [Sys.queue, htake])
  stored := hstored
  pushFree := fun hne => absurd (hpush.trans (h.pushLock.locked_of_own (hop ▸ hpown))) hne
  takeFree := fun hne => absurd (htake.trans (h.takeLock.locked_of_own (hop ▸ htown))) hne
  ok := ok_update hc fun u hne => (h.ok u).idle (h.pushLock.not_own_of_ne (hop ▸ hpown) hne)
    (h.takeLock.not_own_of_ne (hop ▸ htown) hne)
  history := by rw [hitems]; exact h.history_of_same hh

end InvAt

/-! ### Growth -/

section Growth

variable {m : Shared} {nc nb : ℕ}

theorem Settled.capacity (h : Settled m V) : m.queue.capacity = V.cap := h.2

/-- The `memcpy` of the growth move all the elements. -/
theorem moveLength_eq (h : Stored m V) (hs : Settled m V) :
    moveLength m.queue V.head V.cap = V.cap * m.queue.elementSize := by
  have hcap := h.idx_lt h.headLt
  have hle : V.cap ≤ 0x40000 := h.maxLe.trans h.maxBound
  have hlt := h.headLt
  have hadd : u32Add V.head V.cap = V.head + V.cap := u32Add_eq (by omega)
  have hsub : u32Sub V.cap V.head = V.cap - V.head := u32Sub_eq (by omega) hlt.le
  have hsub' : u32Sub V.cap (V.cap - V.head) = V.head := by
    rw [u32Sub_eq (by omega) (Nat.sub_le _ _)]
    omega
  unfold moveLength
  rw [hs.capacity, hadd, hsub]
  dsimp only
  rw [hsub', h.u32Mul_idx (Nat.sub_le _ _), h.u32Mul_idx hlt.le, h.u32Mul_idx le_rfl]
  split_ifs
  · rw [← Nat.add_mul]
    congr 1
    omega
  · rfl

/-- They move the slot `(head + j) % cap` to the slot `j`. -/
theorem moveSource_eq (h : Stored m V) (hs : Settled m V) {j i : ℕ} (hj : j < V.cap)
    (hi : i < m.queue.elementSize) : moveSource m.queue V.head V.cap (j * m.queue.elementSize + i) =
      (V.head + j) % V.cap * m.queue.elementSize + i := by
  have hcap := h.idx_lt h.headLt
  have hle : V.cap ≤ 0x40000 := h.maxLe.trans h.maxBound
  have hlt := h.headLt
  have hadd : u32Add V.head V.cap = V.head + V.cap := u32Add_eq (by omega)
  have hsub : u32Sub V.cap V.head = V.cap - V.head := u32Sub_eq (by omega) hlt.le
  unfold moveSource
  rw [hs.capacity, hadd, hsub]
  dsimp only
  rw [h.u32Mul_idx (Nat.sub_le _ _), h.u32Mul_idx hlt.le, Circular.add_mod_of_le hlt hj.le]
  have hbyte : j * m.queue.elementSize + i < (V.cap - V.head) * m.queue.elementSize ↔
      V.head + j < V.cap := by
    constructor
    · intro hlt'
      have := Nat.lt_of_mul_lt_mul_right (lt_of_le_of_lt (Nat.le_add_right _ i) hlt')
      omega
    · intro hlt'
      calc j * m.queue.elementSize + i < (j + 1) * m.queue.elementSize := by rw [Nat.succ_mul]; omega
        _ ≤ (V.cap - V.head) * m.queue.elementSize := Nat.mul_le_mul_right _ (by omega)
  by_cases hwrap : V.head + j < V.cap
  · rw [if_pos (hbyte.mpr hwrap), if_pos hwrap, ite_self, Nat.add_mul]
    omega
  · have hsplit : (V.head + j - V.cap) * m.queue.elementSize =
        j * m.queue.elementSize - (V.cap - V.head) * m.queue.elementSize := by
      rw [← Nat.sub_mul]
      congr 1
      omega
    have hge : (V.cap - V.head) * m.queue.elementSize ≤ j * m.queue.elementSize :=
      Nat.mul_le_mul_right _ (by omega)
    rw [if_pos (by omega), if_neg (hbyte.not.mpr hwrap), if_neg hwrap, hsplit]
    omega

/-- After the move the new block holds the elements from its beginning on. -/
theorem holds_moved (h : Stored m V) (hs : Settled m V) (hfull : V.items.length = V.cap)
    (hnc : V.cap < nc) (hmoved : ∀ i < moveLength m.queue V.head V.cap,
      m.heap.load nb i = m.heap.load V.block (moveSource m.queue V.head V.cap i)) :
    Circular.Holds (m.heap.slot nb m.queue.elementSize) nc 0 V.items := by
  intro j hj
  rw [Nat.zero_add, Nat.mod_eq_of_lt (by omega), ← h.holds j hj]
  apply bytes_congr
  intro i hi
  have hlt : j * m.queue.elementSize + i < V.cap * m.queue.elementSize :=
    calc j * m.queue.elementSize + i < (j + 1) * m.queue.elementSize := by rw [Nat.succ_mul]; omega
      _ ≤ V.cap * m.queue.elementSize := Nat.mul_le_mul_right _ (by omega)
  rw [hmoved _ (by rwa [moveLength_eq h hs]), moveSource_eq h hs (by omega) hi]

/-- Memory away from the block of the view may change. -/
theorem Stored.of_heap (h : Stored m V) {heap' : Heap} (hheap : heap' V.block = m.heap V.block) :
    Stored ⟨m.queue, heap'⟩ V :=
  { h with
    block := (congrArg (Option.map Block.size) hheap).trans h.block
    holds := h.holds.congr fun _ _ => Heap.slot_congr_heap hheap }

end Growth

end Cryptochan.Queue
