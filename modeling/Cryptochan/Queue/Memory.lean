import Cryptochan.Queue.Safe

/-!
# Cryptochan.Queue.Memory — the blocks of a queue, from `init` to `destroy`

`cyclic_queue_push` replaces the block of the queue while other threads look at it, and
`cyclic_queue_destroy` frees the last one.  At every moment the queue and the calls on it hold some
blocks (`Sys.Holds`): they are allocated and were not before the initialization, and the rest of the
memory is as it was then (`Accounted`).  So nothing leaks, and no foreign block is touched.
-/

namespace Cryptochan.Queue

variable {τ : Type} {s s' : Sys τ} {V V' : View} {t : τ} {op : Op} {c : Option Op} {addr : ℕ}
  {heap : Heap}

/-! ### Destroying a queue -/

/-- The fields after `memset`, as `cyclic_queue_destroy` leaves them, and a `cyclic_queue_init` that
failed. -/
def zeroQueue : CyclicQueue := ⟨0, 0, 0, 0, 0, 0, 0⟩

/-- `cyclic_queue_destroy`; `NULL` is the address 0. -/
def cyclicQueueDestroy (m : Shared) : Shared :=
  ⟨zeroQueue, if m.queue.dataPtr ≠ 0 then m.heap.free m.queue.dataPtr else m.heap⟩

/-! ### Blocks -/

/-- The block that a growth allocated, until it is the block of the queue. -/
def PushPc.newBlock : PushPc → Option ℕ
  | .move _ _ _ _ nb _ | .free _ _ nb | .setData _ _ nb => some nb
  | _ => none

/-- The old block is freed, but `data_ptr` still has its address. -/
def PushPc.Dangling : PushPc → Prop
  | .setData _ _ _ => True
  | _ => False

def newBlock : Option Op → Option ℕ
  | some (.push _ pc) => pc.newBlock
  | _ => none

def Dangling : Option Op → Prop
  | some (.push _ pc) => pc.Dangling
  | _ => False

/-- The queue, or a push that replaces its block, holds the block at `addr`. -/
def Sys.Holds (s : Sys τ) (addr : ℕ) : Prop :=
  (addr = s.queue.dataPtr ∧ ∀ t, ¬ Dangling (s.calls t)) ∨ ∃ t, newBlock (s.calls t) = some addr

/-- `heap` is the memory before the initialization. -/
structure Accounted (heap : Heap) (s : Sys τ) : Prop where
  /-- What is held is allocated, and not by others. -/
  held : ∀ addr, s.Holds addr → (s.shared.heap addr).isSome ∧ heap addr = none ∧ addr ≠ 0
  /-- The rest of the memory is untouched. -/
  rest : ∀ addr, ¬ s.Holds addr → s.shared.heap addr = heap addr

/-- An allocation that succeeds does not return `NULL`. -/
def Event.NotNull : Event τ → Prop
  | .step _ ch => ∀ b ∈ ch.block, b.1 ≠ 0
  | _ => True

/-! ### What a step does to the memory -/

theorem newBlock_unlockFrom {element : Region} (p i : ℕ) (r : Bool) :
    newBlock (some (.push element (unlockFrom p i r))) = none ∧
      ¬ Dangling (some (.push element (unlockFrom p i r))) := by
  unfold unlockFrom
  split_ifs
  · exact ⟨rfl, id⟩
  · exact ⟨rfl, id⟩

/-- The call of a thread after a step of its push. -/
def afterCall (element : Region) : Cont PushPc → Option Op
  | .goto pc => some (.push element pc)
  | .ret _ => none

/-- A step that changes neither the memory nor who holds which block. -/
structure Quietly (m m' : Shared) (c c' : Option Op) : Prop where
  heap : m'.heap = m.heap
  dataPtr : m'.queue.dataPtr = m.queue.dataPtr
  newBlock : newBlock c' = newBlock c
  dangling : Dangling c' ↔ Dangling c

/-- A step of a push leaves the memory alone, or stores a byte in the block of the queue or in the new
one, or is the `malloc`, the `free` or the new `data_ptr` of the growth. -/
theorem pushStep_memory {m m' : Shared} {element : Region} {ch : Choice} {pc : PushPc}
    {k : Cont PushPc} (h : pushStep m element ch pc = some (m', k)) :
    Quietly m m' (some (.push element pc)) (afterCall element k) ∨
    (∃ a off v, m' = m.storeByte a off v ∧ newBlock (afterCall element k) = pc.newBlock ∧
      ¬ pc.Dangling ∧ ¬ Dangling (afterCall element k) ∧
      (pc.newBlock = some a ∨ ∃ p i j, pc = .copy p i a j)) ∨
    (∃ p i sz nc a data n, pc = .malloc p i sz nc ∧ ch.block = some (a, data) ∧ m.heap a = none ∧
      m' = ⟨m.queue, m.heap.alloc a n data⟩ ∧ k = .goto (.move p i sz nc a 0)) ∨
    (∃ sz nc nb, pc = .free sz nc nb ∧ m' = ⟨m.queue, m.heap.free m.queue.dataPtr⟩ ∧
      k = .goto (.setData sz nc nb)) ∨
    ∃ sz nc nb, pc = .setData sz nc nb ∧ m' = m.withQueue { m.queue with dataPtr := nb } ∧
      k = .goto (.setCapacity sz nc) := by
  have hquiet : ∀ {m1 : Shared} {k1 : Cont PushPc}, some (m1, k1) = some (m', k) →
      Quietly m m1 (some (.push element pc)) (afterCall element k1) →
      Quietly m m' (some (.push element pc)) (afterCall element k) := by
    intro m1 k1 he hq
    obtain ⟨rfl, rfl⟩ := Prod.mk.inj (Option.some.inj he)
    exact hq
  cases pc with
  | free sz nc nb =>
    obtain ⟨rfl, rfl⟩ := Prod.mk.inj (Option.some.inj h)
    exact Or.inr (Or.inr (Or.inr (Or.inl ⟨sz, nc, nb, rfl, rfl, rfl⟩)))
  | setData sz nc nb =>
    obtain ⟨rfl, rfl⟩ := Prod.mk.inj (Option.some.inj h)
    exact Or.inr (Or.inr (Or.inr (Or.inr ⟨sz, nc, nb, rfl, rfl, rfl⟩)))
  | malloc p i sz nc =>
    unfold pushStep at h
    dsimp only at h
    cases hb : ch.block with
    | none =>
      rw [hb] at h
      exact Or.inl (hquiet h ⟨rfl, rfl, (newBlock_unlockFrom _ _ _).1,
        iff_of_false (newBlock_unlockFrom _ _ _).2 id⟩)
    | some b =>
      obtain ⟨a, data⟩ := b
      rw [hb] at h
      dsimp only at h
      split_ifs at h with hused
      obtain ⟨rfl, rfl⟩ := Prod.mk.inj (Option.some.inj h)
      exact Or.inr (Or.inr (Or.inl ⟨p, i, sz, nc, a, data, _, rfl, rfl,
        Option.not_isSome_iff_eq_none.mp hused, rfl, rfl⟩))
  | move p i sz nc nb j =>
    simp only [pushStep] at h
    split_ifs at h
    · obtain ⟨rfl, rfl⟩ := Prod.mk.inj (Option.some.inj h)
      exact Or.inr (Or.inl ⟨nb, j, _, rfl, rfl, id, id, Or.inl rfl⟩)
    · exact Or.inl (hquiet h ⟨rfl, rfl, rfl, Iff.rfl⟩)
  | copy p i a j =>
    simp only [pushStep] at h
    split_ifs at h
    · obtain ⟨rfl, rfl⟩ := Prod.mk.inj (Option.some.inj h)
      exact Or.inr (Or.inl ⟨a, _, _, rfl, rfl, id, id, Or.inr ⟨p, i, j, rfl⟩⟩)
    · exact Or.inl (hquiet h ⟨rfl, rfl, rfl, Iff.rfl⟩)
  | fetchAdd p i =>
    exact Or.inl (hquiet h ⟨rfl, rfl, (newBlock_unlockFrom _ _ _).1,
      iff_of_false (newBlock_unlockFrom _ _ _).2 id⟩)
  | calcCapacity p i sz =>
    simp only [pushStep] at h
    split_ifs at h
    · exact Or.inl (hquiet h ⟨rfl, rfl, (newBlock_unlockFrom _ _ _).1,
        iff_of_false (newBlock_unlockFrom _ _ _).2 id⟩)
    · exact Or.inl (hquiet h ⟨rfl, rfl, rfl, Iff.rfl⟩)
  | lockPushLoad | lockPushCas | testFull | lockTakeLoad | lockTakeCas | retestFull =>
    simp only [pushStep] at h
    split_ifs at h <;> exact Or.inl (hquiet h ⟨rfl, rfl, rfl, Iff.rfl⟩)
  | loadSize | reloadSize | setCapacity | readData | advance | unlockTake | unlockPush =>
    exact Or.inl (hquiet h ⟨rfl, rfl, rfl, Iff.rfl⟩)

theorem withQueue_memory (m : Shared) {q : CyclicQueue} (h : q.dataPtr = m.queue.dataPtr) :
    (m.withQueue q).heap = m.heap ∧ (m.withQueue q).queue.dataPtr = m.queue.dataPtr := ⟨rfl, h⟩

theorem takeStep_memory (m : Shared) (dest : Region) (ch : Choice) (pc : TakePc) :
    (takeStep m dest ch pc).1.heap = m.heap ∧
      (takeStep m dest ch pc).1.queue.dataPtr = m.queue.dataPtr := by
  cases pc with
  | readData | advance => exact ⟨rfl, rfl⟩
  | fetchSub | unlockTake => exact withQueue_memory m rfl
  | loadSize | lockTakeLoad | reloadSize | copy =>
    simp only [takeStep]
    split_ifs <;> exact ⟨rfl, rfl⟩
  | lockTakeCas =>
    simp only [takeStep]
    split_ifs
    · exact withQueue_memory m rfl
    · exact ⟨rfl, rfl⟩

/-! ### Who holds what -/

/-- A thread that does not own both locks replaces no block. -/
theorem newBlock_of_not_owner {c : Option Op} (h : ¬ OwnsPush c) : newBlock c = none ∧ ¬ Dangling c := by
  match c, h with
  | none, _ => exact ⟨rfl, id⟩
  | some (.take _ _), _ => exact ⟨rfl, id⟩
  | some (.push _ pc), h =>
    cases pc with
    | move | free | setData => exact absurd trivial h
    | _ => exact ⟨rfl, id⟩

/-- What is held, seen by the owner of the push lock. -/
theorem InvAt.holds_iff (h : InvAt s V) (hown : OwnsPush (s.calls t)) :
    s.Holds addr ↔ (addr = s.queue.dataPtr ∧ ¬ Dangling (s.calls t)) ∨
      newBlock (s.calls t) = some addr := by
  have hothers : ∀ u, u ≠ t → newBlock (s.calls u) = none ∧ ¬ Dangling (s.calls u) :=
    fun u hu => newBlock_of_not_owner (h.pushLock.not_own_of_ne hown hu)
  constructor
  · rintro (⟨ha, hd⟩ | ⟨u, hu⟩)
    · exact Or.inl ⟨ha, hd t⟩
    · rcases eq_or_ne u t with rfl | hne
      · exact Or.inr hu
      · rw [(hothers u hne).1] at hu
        exact absurd hu (by simp)
  · rintro (⟨ha, hd⟩ | hn)
    · refine Or.inl ⟨ha, fun u => ?_⟩
      rcases eq_or_ne u t with rfl | hne
      · exact hd
      · exact (hothers u hne).2
    · exact Or.inr ⟨t, hn⟩

/-- A step that keeps what its thread holds. -/
theorem holds_congr [DecidableEq τ] (hptr : s'.queue.dataPtr = s.queue.dataPtr)
    (hcalls : s'.calls = Function.update s.calls t c) (hnew : newBlock c = newBlock (s.calls t))
    (hdang : Dangling c ↔ Dangling (s.calls t)) : s'.Holds addr ↔ s.Holds addr := by
  have hn : ∀ u, newBlock (s'.calls u) = newBlock (s.calls u) := by
    intro u
    rw [hcalls]
    rcases eq_or_ne u t with rfl | hne
    · rw [Function.update_self, hnew]
    · rw [Function.update_of_ne hne]
  have hd : ∀ u, Dangling (s'.calls u) ↔ Dangling (s.calls u) := by
    intro u
    rw [hcalls]
    rcases eq_or_ne u t with rfl | hne
    · rw [Function.update_self, hdang]
    · rw [Function.update_of_ne hne]
  unfold Sys.Holds
  rw [hptr]
  exact or_congr (and_congr_right fun _ => forall_congr' fun u => not_congr (hd u))
    (exists_congr fun u => by rw [hn u])

/-! ### Steps -/

namespace Accounted

theorem of_same (h : Accounted heap s) (hheap : s'.shared.heap = s.shared.heap)
    (hholds : ∀ addr, s'.Holds addr ↔ s.Holds addr) : Accounted heap s' where
  held a ha := by
    rw [hheap]
    exact h.held a ((hholds a).mp ha)
  rest a ha := by
    rw [hheap]
    exact h.rest a fun ha' => ha ((hholds a).mpr ha')

/-- A byte is stored in a block that is held. -/
theorem of_store (h : Accounted heap s) {a off : ℕ} {v : UInt8} (ha : s.Holds a)
    (hheap : s'.shared.heap = s.shared.heap.store a off v)
    (hholds : ∀ addr, s'.Holds addr ↔ s.Holds addr) : Accounted heap s' where
  held b hb := by
    obtain ⟨hsome, hfree, hnull⟩ := h.held b ((hholds b).mp hb)
    refine ⟨?_, hfree, hnull⟩
    have hsize : s'.shared.heap.sizeAt b = s.shared.heap.sizeAt b := hheap ▸ Heap.sizeAt_store
    simp only [Heap.sizeAt] at hsize
    rw [← Option.isSome_map (f := Block.size), hsize, Option.isSome_map]
    exact hsome
  rest b hb := by
    have hb' : ¬ s.Holds b := fun hs => hb ((hholds b).mpr hs)
    have hne : b ≠ a := fun he => hb' (he ▸ ha)
    rw [hheap, ← h.rest b hb']
    exact Function.update_of_ne hne _ _

/-- A block is allocated for the growth. -/
theorem of_alloc (h : Accounted heap s) {a n : ℕ} {data : Region} (hnull : a ≠ 0)
    (hfree : s.shared.heap a = none) (hheap : s'.shared.heap = s.shared.heap.alloc a n data)
    (hholds : ∀ addr, s'.Holds addr ↔ s.Holds addr ∨ addr = a) : Accounted heap s' where
  held b hb := by
    rw [hheap]
    rcases eq_or_ne b a with rfl | hne
    · have hnot : ¬ s.Holds b := by
        intro hs
        have := (h.held b hs).1
        rw [hfree] at this
        exact Bool.false_ne_true this
      refine ⟨?_, (h.rest b hnot).symm.trans hfree, hnull⟩
      rw [Heap.alloc, Function.update_self]
      rfl
    · rw [Heap.alloc, Function.update_of_ne hne]
      exact h.held b (((hholds b).mp hb).resolve_right hne)
  rest b hb := by
    have hnot := not_or.mp (mt (hholds b).mpr hb)
    rw [hheap, ← h.rest b hnot.1]
    exact Function.update_of_ne hnot.2 _ _

/-- A block that was held is freed. -/
theorem of_free (h : Accounted heap s) {a : ℕ} (ha : s.Holds a)
    (hheap : s'.shared.heap = s.shared.heap.free a)
    (hholds : ∀ addr, s'.Holds addr ↔ s.Holds addr ∧ addr ≠ a) : Accounted heap s' where
  held b hb := by
    obtain ⟨hs, hne⟩ := (hholds b).mp hb
    rw [hheap, Heap.free, Function.update_of_ne hne]
    exact h.held b hs
  rest b hb := by
    rcases eq_or_ne b a with rfl | hne
    · rw [hheap, Heap.free, Function.update_self]
      exact (h.held b ha).2.1.symm
    · rw [hheap, Heap.free, Function.update_of_ne hne]
      exact h.rest b fun hs => hb ((hholds b).mpr ⟨hs, hne⟩)

variable [DecidableEq τ] {element : Region} {ch : Choice} {pc : PushPc} {m : Shared} {k : Cont PushPc}

/-- A step of a push. -/
theorem push (h : Accounted heap s) (hinv : InvAt s V) (hnull : ∀ b ∈ ch.block, b.1 ≠ 0)
    (hop : s.calls t = some (.push element pc)) (hr : pushStep s.shared element ch pc = some (m, k))
    (hinv' : InvAt (s.afterPush t element pc (m, k)) V') :
    Accounted heap (s.afterPush t element pc (m, k)) := by
  have hcalls : (s.afterPush t element pc (m, k)).calls =
      Function.update s.calls t (afterCall element k) := by
    cases k <;> rfl
  have hshared : (s.afterPush t element pc (m, k)).shared = m := Sys.afterPush_shared
  have hheap : (s.afterPush t element pc (m, k)).shared.heap = m.heap := congrArg Shared.heap hshared
  have hptr : (s.afterPush t element pc (m, k)).queue.dataPtr = m.queue.dataPtr :=
    congrArg (fun m => m.queue.dataPtr) hshared
  have hself : (s.afterPush t element pc (m, k)).calls t = afterCall element k := by
    rw [hcalls, Function.update_self]
  rcases pushStep_memory hr with hq | ⟨a, off, v, rfl, hnew, hnd, hnd', ha⟩ |
    ⟨p, i, sz, nc, a, data, n, rfl, hb, hfree, rfl, rfl⟩ | ⟨sz, nc, nb, rfl, rfl, rfl⟩ |
    ⟨sz, nc, nb, rfl, rfl, rfl⟩
  · refine h.of_same (hheap.trans hq.heap) fun addr => ?_
    exact holds_congr (by rw [Sys.queue, hshared, hq.dataPtr]) hcalls (hop ▸ hq.newBlock)
      (hop ▸ hq.dangling)
  · have hholds : s.Holds a := by
      rcases ha with hnb | ⟨p, i, j, rfl⟩
      · exact Or.inr ⟨t, by rw [hop]; exact hnb⟩
      · obtain ⟨-, hs, -, -, hblock, -⟩ := hinv.ok_of hop
        refine (hinv.holds_iff (t := t) (by rw [hop]; trivial)).mpr (Or.inl ⟨?_, hop ▸ id⟩)
        rw [hblock, ← hs.1]
    refine h.of_store hholds hheap fun addr => ?_
    exact holds_congr (by rw [Sys.queue, hshared]; rfl) hcalls (hop ▸ hnew)
      (hop ▸ iff_of_false hnd' hnd)
  · refine h.of_alloc (hnull (a, data) hb) hfree hheap fun addr => ?_
    rw [hinv'.holds_iff (t := t) (by rw [hself]; trivial),
      hinv.holds_iff (t := t) (by rw [hop]; trivial), hself, hop, hptr]
    simp [newBlock, PushPc.newBlock, Dangling, PushPc.Dangling, afterCall, eq_comm]
  · obtain ⟨hs, -, -, -, -, hnb, -⟩ := hinv.ok_of hop
    have hold : ∀ addr, s.Holds addr ↔ addr = s.queue.dataPtr ∨ addr = nb := by
      intro addr
      rw [hinv.holds_iff (t := t) (by rw [hop]; trivial), hop]
      simp [newBlock, PushPc.newBlock, Dangling, PushPc.Dangling, eq_comm]
    refine h.of_free ((hold _).mpr (Or.inl rfl)) hheap fun addr => ?_
    rw [hinv'.holds_iff (t := t) (by rw [hself]; trivial), hold, hself]
    have hne : nb ≠ s.queue.dataPtr := hs.1 ▸ hnb
    simp only [newBlock, PushPc.newBlock, Dangling, PushPc.Dangling, afterCall]
    constructor
    · rintro (⟨-, hd⟩ | hn)
      · exact absurd trivial hd
      · obtain rfl := Option.some.inj hn
        exact ⟨Or.inr rfl, hne⟩
    · rintro ⟨rfl | rfl, hd⟩
      · exact absurd rfl hd
      · exact Or.inr rfl
  · refine h.of_same hheap fun addr => ?_
    rw [hinv'.holds_iff (t := t) (by rw [hself]; trivial),
      hinv.holds_iff (t := t) (by rw [hop]; trivial), hself, hop, hptr]
    simp [newBlock, PushPc.newBlock, Dangling, PushPc.Dangling, afterCall, Shared.withQueue, eq_comm]

/-- **Every step accounts for the memory.** -/
theorem step (h : Accounted heap s) (hinv : InvAt s V) {e : Event τ} (he : e.NotNull)
    (hs : s.step e = some s') (hinv' : InvAt s' V') : Accounted heap s' := by
  rcases Sys.step_cases hs with ⟨op, hop, hnone, rfl⟩ |
    ⟨t, ch, element, pc, m, c, rfl, hop, hr, rfl⟩ | ⟨t, ch, dest, pc, m, dest', c, rfl, hop, hr, rfl⟩
  · have hidle : newBlock (some op) = none ∧ ¬ Dangling (some op) := by
      match op, hop with
      | .push _ .lockPushLoad, _ => exact ⟨rfl, id⟩
      | .take _ .loadSize, _ => exact ⟨rfl, id⟩
    refine h.of_same rfl fun addr => holds_congr rfl rfl ?_ ?_
    · rw [hnone, hidle.1]
      rfl
    · rw [hnone]
      exact iff_of_false hidle.2 id
  · exact h.push hinv he hop hr hinv'
  · have hm : (s.afterTake t pc (m, dest', c)).shared = m := Sys.afterTake_shared
    have hsame : m.heap = s.shared.heap ∧ m.queue.dataPtr = s.queue.dataPtr := by
      rw [show m = (takeStep s.shared dest ch pc).1 by rw [hr]]
      exact takeStep_memory s.shared dest ch pc
    have hcalls : ∃ c', (s.afterTake t pc (m, dest', c)).calls = Function.update s.calls t c' ∧
        newBlock c' = none ∧ ¬ Dangling c' := by
      cases c with
      | goto pc' => exact ⟨_, rfl, rfl, id⟩
      | ret r => exact ⟨_, rfl, rfl, id⟩
    obtain ⟨c', hcalls, hnew, hdang⟩ := hcalls
    refine h.of_same ((congrArg Shared.heap hm).trans hsame.1) fun addr =>
      holds_congr (by rw [Sys.queue, hm, hsame.2]) hcalls ?_ ?_
    · rw [hop, hnew]
      rfl
    · rw [hop]
      exact iff_of_false hdang id

end Accounted

/-! ### Runs -/

/-- Nobody can free a block twice, or a block that is in use: what a growth frees is allocated, was
not there before the initialization, and is not the block the elements were moved to. -/
def Sys.FreesOwn (heap : Heap) (s : Sys τ) : Prop :=
  ∀ t element sz nc nb, s.calls t = some (.push element (.free sz nc nb)) →
    (s.shared.heap s.queue.dataPtr).isSome ∧ heap s.queue.dataPtr = none ∧ nb ≠ s.queue.dataPtr

theorem Accounted.freesOwn (h : Accounted heap s) (hinv : InvAt s V) : s.FreesOwn heap := by
  intro t element sz nc nb hop
  obtain ⟨hs, -, -, -, -, hnb, -⟩ := hinv.ok_of hop
  have hown : OwnsPush (s.calls t) := by
    rw [hop]
    trivial
  have hholds : s.Holds s.queue.dataPtr := (hinv.holds_iff hown).mpr (Or.inl ⟨rfl, hop ▸ id⟩)
  obtain ⟨hsome, hfree, -⟩ := h.held _ hholds
  exact ⟨hsome, hfree, hs.1 ▸ hnb⟩

/-- When no thread is in a call only the block of the queue is left, and `destroy` frees it. -/
theorem Accounted.destroy (h : Accounted heap s) (hidle : ∀ t, s.calls t = none) :
    (cyclicQueueDestroy s.shared).heap = heap := by
  have hholds : ∀ a, s.Holds a ↔ a = s.queue.dataPtr := by
    intro a
    unfold Sys.Holds
    simp [hidle, Dangling, newBlock]
  obtain ⟨-, hfree, hnull⟩ := h.held _ ((hholds _).mpr rfl)
  funext a
  unfold cyclicQueueDestroy
  dsimp only
  rw [if_pos hnull, Heap.free]
  rcases eq_or_ne a s.queue.dataPtr with rfl | hne
  · rw [Function.update_self, hfree]
  · rw [Function.update_of_ne hne]
    exact h.rest a fun ha => hne ((hholds a).mp ha)

section Runs

variable {elementSize initialCapacity : ℕ} {data : Region} {m : Shared} {max : ℕ}

theorem start_accounted (hfresh : heap addr = none) (hnull : addr ≠ 0)
    (hinit : cyclicQueueInit heap elementSize initialCapacity (some (addr, data)) = .ok m) :
    Accounted heap (Sys.start (m.setMaxCapacity max) : Sys τ) := by
  have hm : m.queue.dataPtr = addr ∧ ∃ n, m.heap = heap.alloc addr n data := by
    unfold cyclicQueueInit at hinit
    dsimp only at hinit
    split_ifs at hinit <;> obtain rfl := Except.ok.inj hinit <;> exact ⟨rfl, _, rfl⟩
  obtain ⟨hptr, n, hheap⟩ := hm
  have hholds : ∀ a, (Sys.start (m.setMaxCapacity max) : Sys τ).Holds a ↔ a = addr := by
    intro a
    unfold Sys.Holds
    simp [Sys.start, Shared.setMaxCapacity, Shared.withQueue, Dangling, newBlock, hptr]
  refine ⟨fun a ha => ?_, fun a ha => ?_⟩
  · obtain rfl := (hholds a).mp ha
    refine ⟨?_, hfresh, hnull⟩
    simp [Sys.start, Shared.setMaxCapacity, Shared.withQueue, hheap, Heap.alloc]
  · have hne : a ≠ addr := fun he => ha ((hholds a).mpr he)
    simp [Sys.start, Shared.setMaxCapacity, Shared.withQueue, hheap, Heap.alloc, hne]

/-- **Nothing leaks and nothing is freed twice**: whatever the interleaving of any number of threads,
growths included, the memory is what it was before the initialization, plus the blocks that the queue
and the calls hold; `destroy` between two calls gives the memory of before the initialization. -/
theorem cyclicQueue_accounted [DecidableEq τ] (hfresh : heap addr = none) (hnull : addr ≠ 0)
    (hinit : cyclicQueueInit heap elementSize initialCapacity (some (addr, data)) = .ok m)
    (hcap : m.queue.capacity ≤ max) (hmax : max ≤ cyclicQueueMaxCapacity) (es : List (Event τ))
    (hmalloc : ∀ e ∈ es, e.NotNull) (s : Sys τ)
    (hrun : Run.run Sys.step (Sys.start (m.setMaxCapacity max)) es = some s) :
    Accounted heap s ∧ s.FreesOwn heap ∧
      ((∀ t, s.calls t = none) → (cyclicQueueDestroy s.shared).heap = heap) := by
  have hstart : ∃ V, InvAt (Sys.start (m.setMaxCapacity max) : Sys τ) V := start_inv hinit hcap hmax
  obtain ⟨h, V, hinv⟩ : Accounted heap s ∧ ∃ V, InvAt s V := by
    refine Run.run_invariant Event.NotNull (fun s => Accounted heap s ∧ ∃ V, InvAt s V)
      ⟨start_accounted hfresh hnull hinit, hstart⟩ ?_ hmalloc hrun
    rintro s e s' he ⟨h, V, hinv⟩ hs
    obtain ⟨V', hinv'⟩ := step_inv hinv hs
    exact ⟨h.step hinv he hs hinv', V', hinv'⟩
  exact ⟨h, h.freesOwn hinv, h.destroy⟩

theorem cyclicQueue_accounted_pushPushTake : ∃ s, Run.run Sys.step
    (Sys.start (oneByteQueue.setMaxCapacity 0x80)) pushPushTake = some s ∧
    Accounted (fun _ => none) s := by
  have h : (Run.run Sys.step (Sys.start (oneByteQueue.setMaxCapacity 0x80)) pushPushTake).isSome := by
    decide +kernel
  obtain ⟨s, hs⟩ := Option.isSome_iff_exists.mp h
  refine ⟨s, hs, (cyclicQueue_accounted rfl (by decide) oneByteQueue_init (by decide) (by decide)
    pushPushTake ?_ s hs).1⟩
  simp [pushPushTake, plainStep, Event.NotNull]

end Runs

/-! ### Calls on a zeroed queue -/

/-- Where a call on a queue of capacity 0 can be: it finds the queue full, or empty, and gives its
locks back. -/
def Refused : Option Op → Prop
  | some (.push _ .lockPushLoad) | some (.push _ (.lockPushCas _)) | some (.push _ (.loadSize _))
  | some (.push _ (.lockTakeLoad _)) | some (.push _ (.lockTakeCas _ _))
  | some (.push _ (.reloadSize _ _)) | some (.take _ .loadSize) | none => True
  | some (.push _ (.testFull _ size)) | some (.push _ (.retestFull _ _ size)) => size = 0
  | some (.push _ (.calcCapacity _ _ _)) => True
  | some (.push _ (.unlockTake _ _ result)) | some (.push _ (.unlockPush _ result)) => result = false
  | _ => False

/-- A call that is about to use `data_ptr`, or to allocate. -/
def UsesBlock : Option Op → Prop
  | some (.push _ (.malloc _ _ _ _)) | some (.push _ (.move _ _ _ _ _ _))
  | some (.push _ (.free _ _ _)) | some (.push _ (.setData _ _ _)) | some (.push _ (.readData _ _))
  | some (.push _ (.copy _ _ _ _)) | some (.take _ (.readData _)) | some (.take _ (.copy _ _ _)) => True
  | _ => False

theorem Refused.not_usesBlock (h : Refused c) : ¬ UsesBlock c := by
  match c, h with
  | none, _ => exact id
  | some (.take _ pc), h =>
    cases pc with
    | loadSize => exact id
    | _ => exact h.elim
  | some (.push _ pc), h =>
    cases pc with
    | malloc | move | free | setData | readData | copy => exact h.elim
    | _ => exact id

/-- The queue is zero but for its locks and `max_capacity`. -/
structure Zeroed (heap : Heap) (m : Shared) : Prop where
  heap : m.heap = heap
  dataPtr : m.queue.dataPtr = 0
  capacity : m.queue.capacity = 0
  size : m.queue.size = 0

/-- Every call was refused so far, and the memory is untouched. -/
structure AllRefused (heap : Heap) (s : Sys τ) : Prop where
  shared : Zeroed heap s.shared
  calls : ∀ t, Refused (s.calls t)
  returned : ∀ r ∈ s.history.returned, r.result = false
  pushed : s.history.pushed = []
  taken : s.history.taken = []

theorem Zeroed.withQueue {m : Shared} (h : Zeroed heap m) {q : CyclicQueue}
    (hd : q.dataPtr = m.queue.dataPtr) (hc : q.capacity = m.queue.capacity)
    (hs : q.size = m.queue.size) : Zeroed heap (m.withQueue q) :=
  ⟨h.heap, hd.trans h.dataPtr, hc.trans h.capacity, hs.trans h.size⟩

theorem refused_unlockFrom (element : Region) (p i : ℕ) :
    Refused (some (.push element (unlockFrom p i false))) := by
  unfold unlockFrom
  split_ifs <;> rfl

/-- A step of a push. -/
theorem Zeroed.push {m m' : Shared} (h : Zeroed heap m) {element : Region} {ch : Choice} {pc : PushPc}
    {k : Cont PushPc} (hpc : Refused (some (.push element pc)))
    (hr : pushStep m element ch pc = some (m', k)) :
    Zeroed heap m' ∧ (∀ pc', k = .goto pc' → Refused (some (.push element pc'))) ∧
      ∀ r, k = .ret r → r = false := by
  have key : ∀ {m1 : Shared} {pc1 : PushPc}, some (m1, Cont.goto pc1) = some (m', k) →
      Zeroed heap m1 → Refused (some (.push element pc1)) →
      Zeroed heap m' ∧ (∀ pc', k = .goto pc' → Refused (some (.push element pc'))) ∧
        ∀ r, k = .ret r → r = false := by
    intro m1 pc1 he h1 hpc1
    obtain ⟨rfl, rfl⟩ := Prod.mk.inj (Option.some.inj he)
    exact ⟨h1, fun pc' he' => Cont.goto.inj he' ▸ hpc1, fun r he' => absurd he' (by simp)⟩
  have hwrite : ∀ {q : CyclicQueue}, q.dataPtr = m.queue.dataPtr → q.capacity = m.queue.capacity →
      q.size = m.queue.size → Zeroed heap (m.withQueue q) := h.withQueue
  cases pc with
  | lockPushLoad | lockTakeLoad =>
    simp only [pushStep] at hr
    split_ifs at hr <;> exact key hr h trivial
  | lockPushCas | lockTakeCas =>
    simp only [pushStep] at hr
    split_ifs at hr
    · exact key hr (hwrite rfl rfl rfl) trivial
    · exact key hr h trivial
  | loadSize | reloadSize => exact key hr h h.size
  | testFull p sz =>
    obtain rfl : sz = 0 := hpc
    simp only [pushStep, if_pos h.capacity.symm] at hr
    exact key hr h trivial
  | retestFull p i sz =>
    obtain rfl : sz = 0 := hpc
    simp only [pushStep, if_pos h.capacity.symm] at hr
    exact key hr h trivial
  | calcCapacity p i sz =>
    have hzero : min (u32Mul m.queue.capacity 2) m.queue.maxCapacity = m.queue.capacity := by
      rw [h.capacity]
      exact Nat.zero_min _
    simp only [pushStep, if_pos hzero] at hr
    exact key hr h (refused_unlockFrom element p i)
  | unlockTake p i result => exact key hr (hwrite rfl rfl rfl) hpc
  | unlockPush p result =>
    obtain ⟨rfl, rfl⟩ := Prod.mk.inj (Option.some.inj hr)
    exact ⟨hwrite rfl rfl rfl, fun pc' he => absurd he (by simp), fun r he => Cont.ret.inj he ▸ hpc⟩
  | malloc | move | free | setData | setCapacity | readData | copy | advance | fetchAdd =>
    exact hpc.elim

theorem AllRefused.step [DecidableEq τ] (h : AllRefused heap s) {e : Event τ}
    (hs : s.step e = some s') : AllRefused heap s' := by
  have hupdate : ∀ {t : τ} {c : Option Op}, Refused c →
      ∀ u, Refused (Function.update s.calls t c u) := by
    intro t c hc u
    rcases eq_or_ne u t with rfl | hne
    · rwa [Function.update_self]
    · rw [Function.update_of_ne hne]
      exact h.calls u
  have hreturned : ∀ {t : τ} {kind : Kind} {m : Shared}, Zeroed heap m →
      AllRefused heap (s.finish t kind m false) := by
    intro t kind m hm
    refine ⟨hm, hupdate trivial, ?_, h.pushed, h.taken⟩
    intro r hr
    rcases List.mem_append.mp hr with hr | hr
    · exact h.returned r hr
    · rw [List.mem_singleton.mp hr]
  rcases Sys.step_cases hs with ⟨op, hop, hnone, rfl⟩ |
    ⟨t, ch, element, pc, m, c, rfl, hop, hr, rfl⟩ | ⟨t, ch, dest, pc, m, dest', c, rfl, hop, hr, rfl⟩
  · refine ⟨h.shared, hupdate ?_, h.returned, h.pushed, h.taken⟩
    match op, hop with
    | .push _ .lockPushLoad, _ => trivial
    | .take _ .loadSize, _ => trivial
  · have hpc : Refused (some (.push element pc)) := hop ▸ h.calls t
    obtain ⟨hm, hgoto, hret⟩ := h.shared.push hpc hr
    cases c with
    | ret r =>
      obtain rfl := hret r rfl
      exact hreturned hm
    | goto pc' =>
      have hhist : (s.afterPush t element pc (m, .goto pc')).history = s.history := by
        cases pc with
        | fetchAdd => exact hpc.elim
        | _ => rfl
      refine ⟨hm, hupdate (hgoto pc' rfl), ?_, ?_, ?_⟩ <;> rw [hhist]
      · exact h.returned
      · exact h.pushed
      · exact h.taken
  · have hpc : Refused (some (.take dest pc)) := hop ▸ h.calls t
    cases pc with
    | loadSize =>
      simp only [takeStep, if_pos h.shared.size] at hr
      obtain ⟨rfl, hret⟩ := Prod.mk.inj hr
      obtain ⟨rfl, rfl⟩ := Prod.mk.inj hret
      exact hreturned h.shared
    | _ => exact hpc.elim

/-- **A zeroed queue refuses everything**: after `destroy`, or after an initialization that failed,
and whatever `max_capacity` is set to, every push and every take of any interleaving fails, none of
them uses `data_ptr` or allocates, and another `destroy` frees nothing. -/
theorem zeroQueue_refuses [DecidableEq τ] (heap : Heap) (max : ℕ) (es : List (Event τ)) (s : Sys τ)
    (hrun : Run.run Sys.step (Sys.start ((Shared.mk zeroQueue heap).setMaxCapacity max)) es = some s) :
    (∀ r ∈ s.history.returned, r.result = false) ∧ s.history.pushed = [] ∧ s.history.taken = [] ∧
      (∀ t, ¬ UsesBlock (s.calls t)) ∧ s.shared.heap = heap ∧
      cyclicQueueDestroy s.shared = ⟨zeroQueue, heap⟩ := by
  have h : AllRefused heap s := by
    refine Run.run_invariant (fun _ => True) (AllRefused heap) ?_
      (fun _ _ _ _ h hs => h.step hs) (fun _ _ => trivial) hrun
    exact ⟨⟨rfl, rfl, rfl, rfl⟩, fun _ => trivial, fun r hr => absurd hr List.not_mem_nil, rfl, rfl⟩
  refine ⟨h.returned, h.pushed, h.taken, fun t => (h.calls t).not_usesBlock, h.shared.heap, ?_⟩
  unfold cyclicQueueDestroy
  rw [if_neg (not_not_intro h.shared.dataPtr), h.shared.heap]

theorem zeroQueue_refuses_pushTake : ∃ s, Run.run Sys.step
    (Sys.start ((Shared.mk zeroQueue fun _ => none).setMaxCapacity 0x2000))
      (.push true (fun _ => 7) :: List.replicate 11 (plainStep true) ++ [.take false fun _ => 0,
        plainStep false]) = some s ∧ s.history.returned.length = 2 ∧ s.history.pushed = [] := by
  have h : (Run.run Sys.step (Sys.start ((Shared.mk zeroQueue fun _ => none).setMaxCapacity 0x2000))
      (.push true (fun _ => 7) :: List.replicate 11 (plainStep true) ++ [.take false fun _ => 0,
        plainStep false])).map (fun s => s.history.returned.length) = some 2 := by
    decide +kernel
  obtain ⟨s, hs, hlen⟩ := Option.map_eq_some_iff.mp h
  exact ⟨s, hs, hlen, (zeroQueue_refuses _ _ _ s hs).2.1⟩

end Cryptochan.Queue
