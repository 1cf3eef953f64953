import Cryptochan.Queue.Steps

/-!
# Cryptochan.Queue.Kept — every step keeps the invariant

The program points one by one, each by the kind of its step, then the steps of the system and whole
runs (`exists_invAt`).
-/

namespace Cryptochan.Queue

variable {τ : Type} [DecidableEq τ] {s : Sys τ} {V : View} {t : τ} {element dest : Region}
  {ch : Choice} {r : Shared × Cont PushPc}

omit [DecidableEq τ] in
theorem sameElements_rfl (h : History τ) : SameElements h h := ⟨rfl, rfl⟩

/-! ### The end of a push -/

/-- Whatever is left to unlock, the push lock is. -/
theorem ownsPush_unlockFrom (p i : ℕ) (result : Bool) : (unlockFrom p i result).OwnsPush := by
  unfold unlockFrom
  split_ifs
  · trivial
  · trivial

theorem ownsTake_unlockFrom (p i : ℕ) (result : Bool) :
    (unlockFrom p i result).OwnsTake ↔ i ≠ uint32Max := by
  unfold unlockFrom
  split_ifs with hi
  · exact iff_of_true trivial hi
  · exact iff_of_false id hi

/-- The unlocks store the ends of the list as they are. -/
theorem ok_unlockFrom {m : Shared} {p i : ℕ} {result : Bool} (hp : p = V.tail) (hs : Settled m V)
    (hi : i ≠ uint32Max → i = V.head) : (unlockFrom p i result).Ok m V element := by
  unfold unlockFrom
  split_ifs with hne
  · exact ⟨hp, hs, hi hne⟩
  · exact ⟨hp, hs⟩

/-- Leaving the slow path without success. -/
theorem leave_inv (h : InvAt s V) {pc : PushPc} (hop : s.calls t = some (.push element pc))
    (hpc : pc.OwnsPush) (hpc' : pc.OwnsTake) {p i : ℕ} (hp : p = V.tail) (hs : Settled s.shared V)
    (hi : i = V.head) :
    InvAt ⟨s.shared, Function.update s.calls t (some (.push element (unlockFrom p i false))),
      s.history⟩ V := by
  have hne : i ≠ uint32Max := h.stored.ne_uint32Max (hi ▸ h.stored.headLt)
  exact h.keep hop (iff_of_true (ownsPush_unlockFrom _ _ _) hpc)
    (iff_of_true ((ownsTake_unlockFrom _ _ _).mpr hne) hpc') (ok_unlockFrom hp hs fun _ => hi)
    (sameElements_rfl _)

/-! ### The locks of a push -/

/-- The load leaves the call before the lock, or with the index it saw. -/
theorem lockPushLoad_inv (h : InvAt s V)
    (hop : s.calls t = some (.push element .lockPushLoad))
    (hr : pushStep s.shared element ch .lockPushLoad = some r) :
    InvAt (s.afterPush t element .lockPushLoad r) V := by
  simp only [pushStep] at hr
  split_ifs at hr with hlocked
  · obtain rfl := Option.some.inj hr
    exact h.keep hop Iff.rfl Iff.rfl trivial (sameElements_rfl _)
  · obtain rfl := Option.some.inj hr
    exact h.keep hop Iff.rfl Iff.rfl hlocked (sameElements_rfl _)

/-- A successful compare-and-swap finds the end of the list and a settled view. -/
theorem lockPushCas_inv (h : InvAt s V) {p : ℕ}
    (hop : s.calls t = some (.push element (.lockPushCas p)))
    (hr : pushStep s.shared element ch (.lockPushCas p) = some r) :
    InvAt (s.afterPush t element (.lockPushCas p) r) V := by
  have hok := h.ok_of hop
  simp only [pushStep] at hr
  split_ifs at hr with hcas
  · obtain rfl := Option.some.inj hr
    have hfree : s.queue.pushIdx ≠ uint32Max := by
      rw [Sys.queue, hcas.1]
      exact hok
    obtain ⟨htail, hs⟩ := h.pushFree hfree
    exact h.lockPush hop hfree trivial Iff.rfl ⟨hcas.1.symm.trans htail, hs⟩ (sameElements_rfl _)
  · obtain rfl := Option.some.inj hr
    exact h.keep hop Iff.rfl Iff.rfl trivial (sameElements_rfl _)

theorem lockTakeLoad_inv (h : InvAt s V) {p : ℕ}
    (hop : s.calls t = some (.push element (.lockTakeLoad p)))
    (hr : pushStep s.shared element ch (.lockTakeLoad p) = some r) :
    InvAt (s.afterPush t element (.lockTakeLoad p) r) V := by
  have hok := h.ok_of hop
  simp only [pushStep] at hr
  split_ifs at hr with hlocked
  · obtain rfl := Option.some.inj hr
    exact h.keep hop Iff.rfl Iff.rfl hok (sameElements_rfl _)
  · obtain rfl := Option.some.inj hr
    exact h.keep hop Iff.rfl Iff.rfl ⟨hok.1, hok.2, hlocked⟩ (sameElements_rfl _)

/-- A push that grows the queue takes the second lock too, and so knows the front of the list. -/
theorem lockTakeCas_inv (h : InvAt s V) {p i : ℕ}
    (hop : s.calls t = some (.push element (.lockTakeCas p i)))
    (hr : pushStep s.shared element ch (.lockTakeCas p i) = some r) :
    InvAt (s.afterPush t element (.lockTakeCas p i) r) V := by
  obtain ⟨hp, hs, hi⟩ := h.ok_of hop
  simp only [pushStep] at hr
  split_ifs at hr with hcas
  · obtain rfl := Option.some.inj hr
    have hfree : s.queue.takeIdx ≠ uint32Max := by
      rw [Sys.queue, hcas.1]
      exact hi
    obtain ⟨hhead, -⟩ := h.takeFree hfree
    exact h.lockTake hop hfree Iff.rfl trivial ⟨hp, hs, hcas.1.symm.trans hhead⟩
      (sameElements_rfl _)
  · obtain rfl := Option.some.inj hr
    exact h.keep hop Iff.rfl Iff.rfl ⟨hp, hs⟩ (sameElements_rfl _)

theorem unlockTake_inv (h : InvAt s V) {p i : ℕ} {result : Bool}
    (hop : s.calls t = some (.push element (.unlockTake p i result)))
    (hr : pushStep s.shared element ch (.unlockTake p i result) = some r) :
    InvAt (s.afterPush t element (.unlockTake p i result) r) V := by
  obtain ⟨hp, hs, rfl⟩ := h.ok_of hop
  obtain rfl := Option.some.inj hr
  exact h.unlockTake hop trivial Iff.rfl id hs ⟨hp, hs⟩ (sameElements_rfl _)

theorem unlockPush_inv (h : InvAt s V) {p : ℕ} {result : Bool}
    (hop : s.calls t = some (.push element (.unlockPush p result)))
    (hr : pushStep s.shared element ch (.unlockPush p result) = some r) :
    InvAt (s.afterPush t element (.unlockPush p result) r) V := by
  obtain ⟨rfl, hs⟩ := h.ok_of hop
  obtain rfl := Option.some.inj hr
  exact h.unlockPush hop trivial id Iff.rfl hs trivial ⟨rfl, rfl⟩

/-! ### The size and the capacity -/

/-- Takes can only lower the size from here on, so what is loaded bounds the list from above. -/
theorem loadSize_inv (h : InvAt s V) {p : ℕ}
    (hop : s.calls t = some (.push element (.loadSize p)))
    (hr : pushStep s.shared element ch (.loadSize p) = some r) :
    InvAt (s.afterPush t element (.loadSize p) r) V := by
  obtain ⟨hp, hs⟩ := h.ok_of hop
  obtain rfl := Option.some.inj hr
  refine h.keep hop Iff.rfl Iff.rfl ⟨hp, hs, h.stored.sizeEq.le, ?_⟩ (sameElements_rfl _)
  exact h.stored.sizeEq ▸ h.stored.sizeLe.trans h.stored.capLe

/-- The fast path has room, without the second lock. -/
theorem testFull_inv (h : InvAt s V) {p sz : ℕ}
    (hop : s.calls t = some (.push element (.testFull p sz)))
    (hr : pushStep s.shared element ch (.testFull p sz) = some r) :
    InvAt (s.afterPush t element (.testFull p sz) r) V := by
  obtain ⟨hp, hs, hle, hcap⟩ := h.ok_of hop
  simp only [pushStep] at hr
  split_ifs at hr with hfull
  · obtain rfl := Option.some.inj hr
    exact h.keep hop Iff.rfl Iff.rfl ⟨hp, hs⟩ (sameElements_rfl _)
  · obtain rfl := Option.some.inj hr
    rw [hs.capacity] at hfull
    refine h.keep hop Iff.rfl (iff_of_false (fun hne => hne rfl) id) ?_ (sameElements_rfl _)
    exact ⟨hp, hs, by omega, fun hne => absurd rfl hne⟩

/-- Under both locks the size loaded is the length of the list. -/
theorem reloadSize_inv (h : InvAt s V) {p i : ℕ}
    (hop : s.calls t = some (.push element (.reloadSize p i)))
    (hr : pushStep s.shared element ch (.reloadSize p i) = some r) :
    InvAt (s.afterPush t element (.reloadSize p i) r) V := by
  obtain ⟨hp, hs, hi⟩ := h.ok_of hop
  obtain rfl := Option.some.inj hr
  exact h.keep hop Iff.rfl Iff.rfl ⟨hp, hs, hi, h.stored.sizeEq.symm⟩ (sameElements_rfl _)

theorem retestFull_inv (h : InvAt s V) {p i sz : ℕ}
    (hop : s.calls t = some (.push element (.retestFull p i sz)))
    (hr : pushStep s.shared element ch (.retestFull p i sz) = some r) :
    InvAt (s.afterPush t element (.retestFull p i sz) r) V := by
  obtain ⟨hp, hs, hi, hsz⟩ := h.ok_of hop
  simp only [pushStep] at hr
  split_ifs at hr with hfull
  · obtain rfl := Option.some.inj hr
    exact h.keep hop Iff.rfl Iff.rfl ⟨hp, hs, hi, hsz, hfull.trans hs.capacity⟩
      (sameElements_rfl _)
  · -- a take made room meanwhile
    obtain rfl := Option.some.inj hr
    have hne : i ≠ uint32Max := h.stored.ne_uint32Max (hi ▸ h.stored.headLt)
    have hle := h.stored.sizeLe
    rw [hs.capacity] at hfull hle
    exact h.keep hop Iff.rfl (iff_of_true hne trivial) ⟨hp, hs, by omega, fun _ => hi⟩
      (sameElements_rfl _)

/-- The new capacity is larger and within the limit, or the push gives up. -/
theorem calcCapacity_inv (h : InvAt s V) {p i sz : ℕ}
    (hop : s.calls t = some (.push element (.calcCapacity p i sz)))
    (hr : pushStep s.shared element ch (.calcCapacity p i sz) = some r) :
    InvAt (s.afterPush t element (.calcCapacity p i sz) r) V := by
  obtain ⟨hp, hs, hi, hsz, hfull⟩ := h.ok_of hop
  simp only [pushStep] at hr
  split_ifs at hr with hmax
  · obtain rfl := Option.some.inj hr
    exact leave_inv h hop trivial trivial hp hs hi
  · obtain rfl := Option.some.inj hr
    have hcap := h.stored.maxLe
    have hbound := h.stored.maxBound
    have hpos := h.stored.capPos
    rw [hs.capacity] at hmax hpos
    have hdouble : u32Mul V.cap 2 = V.cap * 2 := by
      unfold cyclicQueueMaxCapacity at hbound
      exact u32Mul_eq (by omega)
    rw [hdouble] at hmax
    refine h.keep hop Iff.rfl Iff.rfl ⟨hp, hs, hi, hsz, hfull, ?_, ?_⟩ (sameElements_rfl _)
    · rw [hs.capacity, hdouble]
      omega
    · exact min_le_right _ _

/-! ### The growth -/

/-- The new block is none that the view uses. -/
theorem malloc_inv (h : InvAt s V) {p i sz nc : ℕ}
    (hop : s.calls t = some (.push element (.malloc p i sz nc)))
    (hr : pushStep s.shared element ch (.malloc p i sz nc) = some r) :
    InvAt (s.afterPush t element (.malloc p i sz nc) r) V := by
  obtain ⟨hp, hs, hi, hsz, hfull, hnc, hmax⟩ := h.ok_of hop
  unfold pushStep at hr
  dsimp only at hr
  cases hb : ch.block with
  | none =>
    rw [hb] at hr
    obtain rfl := Option.some.inj hr
    exact leave_inv h hop trivial trivial hp hs hi
  | some b =>
    obtain ⟨addr, data⟩ := b
    rw [hb] at hr
    dsimp only at hr
    split_ifs at hr with hused
    obtain rfl := Option.some.inj hr
    have hfresh : addr ≠ V.block := by
      rintro rfl
      obtain ⟨b, hb, -⟩ := Option.map_eq_some_iff.mp h.stored.block
      exact hused (by rw [hb]; rfl)
    have hsize : u32Mul s.queue.elementSize nc = nc * s.queue.elementSize := by
      have hle : nc ≤ 0x40000 := hmax.trans h.stored.maxBound
      have := Nat.mul_le_mul hle h.stored.elementSize
      rw [Nat.mul_comm nc] at this ⊢
      exact u32Mul_eq (lt_of_le_of_lt this (by decide))
    refine h.solo hop trivial trivial trivial trivial rfl rfl
      (h.stored.of_heap (Function.update_of_ne hfresh.symm _ _)) ?_ rfl (sameElements_rfl _)
    exact ⟨hp, hs, hi, hsz, hfull, hnc, hmax, hfresh, Heap.sizeAt_alloc.trans (congrArg some hsize),
      Nat.zero_le _, fun k hk => absurd hk (Nat.not_lt_zero k)⟩

/-- Each byte moved lands where the copy of the list expects it. -/
theorem move_inv (h : InvAt s V) {p i sz nc nb k : ℕ}
    (hop : s.calls t = some (.push element (.move p i sz nc nb k)))
    (hr : pushStep s.shared element ch (.move p i sz nc nb k) = some r) :
    InvAt (s.afterPush t element (.move p i sz nc nb k) r) V := by
  obtain ⟨hp, hs, hi, hsz, hfull, hnc, hmax, hnb, hsize, hk, hmoved⟩ := h.ok_of hop
  unfold pushStep at hr
  dsimp only at hr
  split_ifs at hr with hlt
  · obtain rfl := Option.some.inj hr
    -- the old block keeps its bytes, the new one gets the byte `k`
    have hload : ∀ a off, a ≠ nb ∨ off ≠ k → (s.shared.heap.store nb k
        (s.shared.heap.load s.shared.queue.dataPtr (moveSource s.shared.queue i sz k))).load a off =
          s.shared.heap.load a off := fun a off h => Heap.load_store_of_ne h
    refine h.solo hop trivial trivial trivial trivial rfl rfl
      (h.stored.of_heap (Function.update_of_ne hnb.symm _ _)) ?_ rfl (sameElements_rfl _)
    refine ⟨hp, hs, hi, hsz, hfull, hnc, hmax, hnb, Heap.sizeAt_store.trans hsize, hlt,
      fun j hj => ?_⟩
    rw [Shared.storeByte, hload V.block _ (Or.inl hnb.symm)]
    rcases Nat.lt_succ_iff_lt_or_eq.mp hj with hj | rfl
    · rw [hload nb j (Or.inr hj.ne)]
      exact hmoved j hj
    · rw [Heap.load_store_self hsize, hs.1]
  · obtain rfl := Option.some.inj hr
    obtain rfl : k = moveLength s.shared.queue i sz := by omega
    refine h.keep hop Iff.rfl Iff.rfl ?_ (sameElements_rfl _)
    refine ⟨hs, hsz, hfull, hnc, hmax, hnb, hsize, ?_⟩
    subst hi hfull
    exact holds_moved h.stored hs hsz.symm hnc hmoved

/-- The view changes to the new block when the old one is freed. -/
theorem free_inv (h : InvAt s V) {sz nc nb : ℕ}
    (hop : s.calls t = some (.push element (.free sz nc nb)))
    (hr : pushStep s.shared element ch (.free sz nc nb) = some r) :
    InvAt (s.afterPush t element (.free sz nc nb) r) ⟨nb, nc, 0, V.items⟩ := by
  obtain ⟨hs, hsz, hfull, hnc, hmax, hnb, hsize, hholds⟩ := h.ok_of hop
  obtain rfl := Option.some.inj hr
  have hheap : s.shared.heap.free s.shared.queue.dataPtr nb = s.shared.heap nb :=
    Function.update_of_ne (by rwa [hs.1]) _ _
  refine h.solo hop trivial trivial trivial trivial rfl rfl ?_
    ⟨hsz, by omega, rfl, rfl, rfl⟩ rfl (sameElements_rfl _)
  exact
    { h.stored with
      capLe := h.stored.capLe.trans hnc.le
      maxLe := hmax
      headLt := Nat.zero_lt_of_lt hnc
      block := (congrArg (Option.map Block.size) hheap).trans hsize
      holds := hholds.congr fun _ _ => Heap.slot_congr_heap hheap }

theorem setData_inv (h : InvAt s V) {sz nc nb : ℕ}
    (hop : s.calls t = some (.push element (.setData sz nc nb)))
    (hr : pushStep s.shared element ch (.setData sz nc nb) = some r) :
    InvAt (s.afterPush t element (.setData sz nc nb) r) V := by
  obtain ⟨hsz, hlt, hblock, hcap, hhead⟩ := h.ok_of hop
  obtain rfl := Option.some.inj hr
  exact h.solo hop trivial trivial trivial trivial rfl rfl { h.stored with }
    ⟨hsz, hlt, hblock.symm, hcap, hhead⟩ rfl (sameElements_rfl _)

/-- From here on the fields agree with the new view. -/
theorem setCapacity_inv (h : InvAt s V) {sz nc : ℕ}
    (hop : s.calls t = some (.push element (.setCapacity sz nc)))
    (hr : pushStep s.shared element ch (.setCapacity sz nc) = some r) :
    InvAt (s.afterPush t element (.setCapacity sz nc) r) V := by
  obtain ⟨hsz, hlt, hblock, hcap, hhead⟩ := h.ok_of hop
  obtain rfl := Option.some.inj hr
  have htail : V.tail = sz := by
    rw [View.tail, hhead, hcap, ← hsz, Nat.zero_add, Nat.mod_eq_of_lt hlt]
  have hlocked : 0 ≠ uint32Max := by decide
  refine h.solo hop trivial trivial trivial hlocked rfl rfl ?_
    ⟨htail.symm, ⟨hblock, hcap.symm⟩, by omega, fun _ => hhead.symm⟩ rfl (sameElements_rfl _)
  exact
    { h.stored with
      capPos := Nat.zero_lt_of_lt hlt
      sizeLe := hsz ▸ hlt.le
      capLe := hcap.ge }

/-! ### The new element -/

/-- The copy goes to the block of the view, and nothing is copied yet. -/
theorem readData_inv (h : InvAt s V) {p i : ℕ}
    (hop : s.calls t = some (.push element (.readData p i)))
    (hr : pushStep s.shared element ch (.readData p i) = some r) :
    InvAt (s.afterPush t element (.readData p i) r) V := by
  obtain ⟨hp, hs, hroom, hi⟩ := h.ok_of hop
  obtain rfl := Option.some.inj hr
  exact h.keep hop Iff.rfl Iff.rfl ⟨hp, hs, hroom, hi, hs.1, Nat.zero_le _,
    fun k hk => absurd hk (Nat.not_lt_zero k)⟩ (sameElements_rfl _)

/-- The bytes go to the slot behind the list, which no element uses. -/
theorem copy_inv (h : InvAt s V) {p i addr k : ℕ}
    (hop : s.calls t = some (.push element (.copy p i addr k)))
    (hr : pushStep s.shared element ch (.copy p i addr k) = some r) :
    InvAt (s.afterPush t element (.copy p i addr k) r) V := by
  obtain ⟨rfl, hs, hroom, hi, rfl, hk, hbytes⟩ := h.ok_of hop
  unfold pushStep at hr
  dsimp only at hr
  split_ifs at hr with hlt
  · obtain rfl := Option.some.inj hr
    rw [h.stored.u32Mul_idx h.stored.tail_lt.le]
    refine h.copyByte (c := some (.push element (.copy V.tail i V.block (k + 1)))) hop trivial trivial
      Iff.rfl hroom hlt _ ?_ (sameElements_rfl _)
    refine ⟨rfl, hs, hroom, hi, rfl, hlt, ?_⟩
    intro j hj
    rcases Nat.lt_succ_iff_lt_or_eq.mp hj with hj | rfl
    · refine (Heap.load_store_of_ne (Or.inr ?_)).trans (hbytes j hj)
      exact fun he => hj.ne (Nat.add_left_cancel he)
    · exact Heap.load_store_self h.stored.block
  · obtain rfl := Option.some.inj hr
    obtain rfl : k = s.shared.queue.elementSize := by omega
    exact h.keep hop Iff.rfl Iff.rfl ⟨rfl, hs, hroom, hi, bytes_congr hbytes⟩ (sameElements_rfl _)

theorem advance_inv (h : InvAt s V) {p i : ℕ}
    (hop : s.calls t = some (.push element (.advance p i)))
    (hr : pushStep s.shared element ch (.advance p i) = some r) :
    InvAt (s.afterPush t element (.advance p i) r) V := by
  obtain ⟨rfl, hs, hroom, hi, hbytes⟩ := h.ok_of hop
  obtain rfl := Option.some.inj hr
  refine h.keep hop Iff.rfl Iff.rfl ⟨?_, hs, hroom, hi, hbytes⟩ (sameElements_rfl _)
  have := h.stored.idx_lt h.stored.tail_lt
  rw [u32Add_eq (by omega), hs.capacity]

/-- The element joins the list when the size grows. -/
theorem fetchAdd_inv (h : InvAt s V) {p i : ℕ}
    (hop : s.calls t = some (.push element (.fetchAdd p i)))
    (hr : pushStep s.shared element ch (.fetchAdd p i) = some r) :
    InvAt (s.afterPush t element (.fetchAdd p i) r)
      (InvAt.pushed V (bytes element s.queue.elementSize)) := by
  obtain ⟨hp, hs, hroom, hi, hbytes⟩ := h.ok_of hop
  obtain rfl := Option.some.inj hr
  have hsize : u32Add s.shared.queue.size 1 = s.queue.size + 1 := by
    have := h.stored.idx_lt hroom
    rw [h.stored.sizeEq] at this
    exact u32Add_eq (by omega)
  rw [hsize]
  refine h.fetchAdd (c := some (.push element (unlockFrom p i true))) hop trivial
    (ownsPush_unlockFrom _ _ _) (ownsTake_unlockFrom _ _ _) hs hroom hbytes (ok_unlockFrom ?_ hs hi)
    rfl rfl
  rw [hp, InvAt.tail_pushed]

/-! ### All program points of a push -/

/-- The view changes at the end of a growth and with the new element, and nowhere else. -/
theorem pushStep_inv (h : InvAt s V) {pc : PushPc} (hop : s.calls t = some (.push element pc))
    (hr : pushStep s.shared element ch pc = some r) :
    ∃ V', InvAt (s.afterPush t element pc r) V' := by
  cases pc with
  | lockPushLoad => exact ⟨V, lockPushLoad_inv h hop hr⟩
  | lockPushCas p => exact ⟨V, lockPushCas_inv h hop hr⟩
  | loadSize p => exact ⟨V, loadSize_inv h hop hr⟩
  | testFull p sz => exact ⟨V, testFull_inv h hop hr⟩
  | lockTakeLoad p => exact ⟨V, lockTakeLoad_inv h hop hr⟩
  | lockTakeCas p i => exact ⟨V, lockTakeCas_inv h hop hr⟩
  | reloadSize p i => exact ⟨V, reloadSize_inv h hop hr⟩
  | retestFull p i sz => exact ⟨V, retestFull_inv h hop hr⟩
  | calcCapacity p i sz => exact ⟨V, calcCapacity_inv h hop hr⟩
  | malloc p i sz nc => exact ⟨V, malloc_inv h hop hr⟩
  | move p i sz nc nb k => exact ⟨V, move_inv h hop hr⟩
  | free sz nc nb => exact ⟨_, free_inv h hop hr⟩
  | setData sz nc nb => exact ⟨V, setData_inv h hop hr⟩
  | setCapacity sz nc => exact ⟨V, setCapacity_inv h hop hr⟩
  | readData p i => exact ⟨V, readData_inv h hop hr⟩
  | copy p i addr k => exact ⟨V, copy_inv h hop hr⟩
  | advance p i => exact ⟨V, advance_inv h hop hr⟩
  | fetchAdd p i => exact ⟨_, fetchAdd_inv h hop hr⟩
  | unlockTake p i result => exact ⟨V, unlockTake_inv h hop hr⟩
  | unlockPush p result => exact ⟨V, unlockPush_inv h hop hr⟩

/-! ### Take -/

/-- The bytes copied so far are those of the first element. -/
theorem takeCopy_inv (h : InvAt s V) {i addr k : ℕ}
    (hop : s.calls t = some (.take dest (.copy i addr k))) :
    InvAt (s.afterTake t (.copy i addr k) (takeStep s.shared dest ch (.copy i addr k))) V := by
  obtain ⟨rfl, hs, rfl, hk, x, hx, hbytes⟩ := h.ok_of hop
  obtain ⟨rest, hrest⟩ := List.head?_eq_some_iff.mp hx
  have hslot : s.shared.heap.slot V.block s.queue.elementSize V.head = x := by
    have := h.stored.holds 0 (by simp [hrest])
    simpa [hrest, Nat.mod_eq_of_lt h.stored.headLt] using this
  simp only [takeStep]
  split_ifs with hlt
  · rw [h.stored.u32Mul_idx h.stored.headLt.le]
    refine h.keep hop Iff.rfl Iff.rfl ⟨rfl, hs, rfl, hlt, x, hx, ?_⟩ (sameElements_rfl _)
    have hxk : x.take (k + 1) = x.take k ++
        [s.shared.heap.load V.block (V.head * s.queue.elementSize + k)] := by
      have hlen : k < x.length := by rw [← hslot, Heap.length_slot]; exact hlt
      rw [List.take_add_one, List.getElem?_eq_getElem hlen]
      subst hslot
      simp [Heap.slot]
    rw [bytes_update, hxk, hbytes]
  · obtain rfl : k = s.shared.queue.elementSize := by omega
    refine h.keep hop Iff.rfl Iff.rfl ⟨rfl, hs, ?_⟩ (sameElements_rfl _)
    rw [hx, hbytes, List.take_of_length_le (by rw [← hslot, Heap.length_slot])]

theorem takeAdvance_inv (h : InvAt s V) {i : ℕ}
    (hop : s.calls t = some (.take dest (.advance i))) :
    InvAt (s.afterTake t (.advance i) (takeStep s.shared dest ch (.advance i))) V := by
  obtain ⟨rfl, hs, hx⟩ := h.ok_of hop
  refine h.keep hop Iff.rfl Iff.rfl ⟨?_, hs, hx⟩ (sameElements_rfl _)
  have := h.stored.idx_lt h.stored.headLt
  rw [u32Add_eq (by omega), hs.capacity]

/-- The element leaves the list when the size shrinks. -/
theorem fetchSub_inv (h : InvAt s V) {i : ℕ}
    (hop : s.calls t = some (.take dest (.fetchSub i))) :
    InvAt (s.afterTake t (.fetchSub i) (takeStep s.shared dest ch (.fetchSub i)))
      (InvAt.taken V) := by
  obtain ⟨hi, hs, hx⟩ := h.ok_of hop
  have hsize : u32Sub s.shared.queue.size 1 = s.queue.size - 1 := by
    obtain ⟨rest, hrest⟩ := List.head?_eq_some_iff.mp hx
    have hpos : 0 < V.items.length := by simp [hrest]
    have hle := h.stored.sizeLe.trans (h.stored.capLe.trans (h.stored.maxLe.trans h.stored.maxBound))
    unfold cyclicQueueMaxCapacity at hle
    rw [h.stored.sizeEq] at hpos hle
    exact u32Sub_eq (by omega) hpos
  simp only [takeStep]
  rw [hsize]
  exact h.fetchSub (c := some (.take dest (.unlockTake i true))) hop trivial trivial Iff.rfl hx
    ⟨hi, hs⟩ rfl rfl

/-- The view changes when the element leaves it, and nowhere else. -/
theorem takeStep_inv (h : InvAt s V) {pc : TakePc} (hop : s.calls t = some (.take dest pc)) :
    ∃ V', InvAt (s.afterTake t pc (takeStep s.shared dest ch pc)) V' := by
  have hok := h.ok_of hop
  cases pc with
  | copy i addr k => exact ⟨V, takeCopy_inv h hop⟩
  | advance i => exact ⟨V, takeAdvance_inv h hop⟩
  | fetchSub i => exact ⟨_, fetchSub_inv h hop⟩
  | loadSize =>
    simp only [takeStep]
    split_ifs with hzero
    · exact ⟨V, h.keep hop Iff.rfl Iff.rfl trivial ⟨rfl, rfl⟩⟩
    · exact ⟨V, h.keep hop Iff.rfl Iff.rfl trivial (sameElements_rfl _)⟩
  | lockTakeLoad =>
    simp only [takeStep]
    split_ifs with hlocked
    · exact ⟨V, h.keep hop Iff.rfl Iff.rfl trivial (sameElements_rfl _)⟩
    · exact ⟨V, h.keep hop Iff.rfl Iff.rfl hlocked (sameElements_rfl _)⟩
  | lockTakeCas i =>
    simp only [takeStep]
    split_ifs with hcas
    · have hfree : s.queue.takeIdx ≠ uint32Max := by
        rw [Sys.queue, hcas.1]
        exact hok
      obtain ⟨hhead, hs⟩ := h.takeFree hfree
      exact ⟨V, h.lockTake hop hfree Iff.rfl trivial ⟨hcas.1.symm.trans hhead, hs⟩
        (sameElements_rfl _)⟩
    · exact ⟨V, h.keep hop Iff.rfl Iff.rfl trivial (sameElements_rfl _)⟩
  | reloadSize i =>
    obtain ⟨hi, hs⟩ := hok
    simp only [takeStep]
    split_ifs with hzero
    · exact ⟨V, h.keep hop Iff.rfl Iff.rfl ⟨hi, hs⟩ (sameElements_rfl _)⟩
    · have hne : V.items ≠ [] := fun he => hzero (by rw [← h.stored.sizeEq, he]; rfl)
      obtain ⟨x, rest, hrest⟩ := List.exists_cons_of_ne_nil hne
      exact ⟨V, h.keep hop Iff.rfl Iff.rfl ⟨hi, hs, x, by rw [hrest]; rfl⟩ (sameElements_rfl _)⟩
  | readData i =>
    obtain ⟨hi, hs, x, hx⟩ := hok
    exact ⟨V, h.keep hop Iff.rfl Iff.rfl ⟨hi, hs, hs.1, Nat.zero_le _, x, hx, rfl⟩
      (sameElements_rfl _)⟩
  | unlockTake i result =>
    obtain ⟨rfl, hs⟩ := hok
    exact ⟨V, h.unlockTake hop trivial Iff.rfl id hs trivial ⟨rfl, rfl⟩⟩

/-! ### The system -/

/-- A step of the system, the start of a call included, keeps the invariant with some view. -/
theorem step_inv (h : InvAt s V) {e : Event τ} {s' : Sys τ} (hs : s.step e = some s') :
    ∃ V', InvAt s' V' := by
  rcases Sys.step_cases hs with ⟨op, hop, hnone, rfl⟩ |
    ⟨t, ch, element, pc, m, c, -, hop, hr, rfl⟩ | ⟨t, ch, dest, pc, m, dest', c, -, hop, hr, rfl⟩
  · -- a call that is started owns and knows nothing
    have hidle : ¬ OwnsPush (some op) ∧ ¬ OwnsTake (some op) ∧ Ok s.shared V (some op) := by
      match op, hop with
      | .push _ .lockPushLoad, _ => exact ⟨id, id, trivial⟩
      | .take _ .loadSize, _ => exact ⟨id, id, trivial⟩
    refine ⟨V, { h with pushLock := ?_, takeLock := ?_, ok := ok_update hidle.2.2 fun u _ => h.ok u }⟩
    · exact h.pushLock.same (by rw [hnone]; exact iff_of_false hidle.1 id) Iff.rfl
    · exact h.takeLock.same (by rw [hnone]; exact iff_of_false hidle.2.1 id) Iff.rfl
  · exact pushStep_inv h hop hr
  · rw [← hr]
    exact takeStep_inv h hop

/-! ### Runs -/

section Runs

variable {heap : Heap} {elementSize initialCapacity : ℕ} {block : Option (ℕ × Region)} {m : Shared}
  {max : ℕ}

/-- What a successful `cyclic_queue_init` did. -/
theorem of_cyclicQueueInit
    (hinit : cyclicQueueInit heap elementSize initialCapacity block = .ok m) :
    ∃ c addr data, c = (if initialCapacity < cyclicQueueMinCapacity then cyclicQueueMinCapacity
        else initialCapacity) ∧ 0 < c ∧ c ≤ cyclicQueueMaxCapacity ∧
      elementSize ≤ cyclicQueueMaxElementSize ∧
      m = ⟨⟨addr, elementSize, c, cyclicQueueMaxCapacity, 0, 0, 0⟩,
        heap.alloc addr (u32Mul c elementSize) data⟩ := by
  unfold cyclicQueueInit at hinit
  dsimp only at hinit
  generalize hc : (if initialCapacity < cyclicQueueMinCapacity then cyclicQueueMinCapacity
    else initialCapacity) = c at hinit
  have hpos : 0 < c := by
    rw [← hc]
    unfold cyclicQueueMinCapacity
    split_ifs <;> omega
  split_ifs at hinit with hbig hlarge
  cases block with
  | none => exact absurd hinit (by simp)
  | some b =>
    obtain ⟨addr, data⟩ := b
    obtain rfl := Except.ok.inj hinit
    exact ⟨c, addr, data, rfl, hpos, Nat.le_of_not_lt hbig, Nat.le_of_not_lt hlarge, rfl⟩

/-- An empty list in the block that the init allocated. -/
theorem stored_init (hinit : cyclicQueueInit heap elementSize initialCapacity block = .ok m)
    (hcap : m.queue.capacity ≤ max) (hmax : max ≤ cyclicQueueMaxCapacity) :
    ∃ addr, Stored (m.setMaxCapacity max) ⟨addr, m.queue.capacity, 0, []⟩ ∧
      Settled (m.setMaxCapacity max) ⟨addr, m.queue.capacity, 0, []⟩ ∧
      m.queue.pushIdx = 0 ∧ m.queue.takeIdx = 0 := by
  obtain ⟨c, addr, data, -, hpos, hle, hes, rfl⟩ := of_cyclicQueueInit hinit
  refine ⟨addr, ?_, ⟨rfl, rfl⟩, rfl, rfl⟩
  have hsize : u32Mul c elementSize = c * elementSize :=
    u32Mul_eq (lt_of_le_of_lt (Nat.mul_le_mul hle hes) (by decide))
  exact
    { elementSize := hes
      capPos := hpos
      sizeEq := rfl
      sizeLe := Nat.zero_le _
      capLe := le_rfl
      maxLe := hcap
      maxBound := hmax
      headLt := hpos
      block := Heap.sizeAt_alloc.trans (congrArg some hsize)
      holds := Circular.holds_nil }

omit [DecidableEq τ] in
theorem start_inv (hinit : cyclicQueueInit heap elementSize initialCapacity block = .ok m)
    (hcap : m.queue.capacity ≤ max) (hmax : max ≤ cyclicQueueMaxCapacity) :
    ∃ V, InvAt (Sys.start (m.setMaxCapacity max) : Sys τ) V := by
  obtain ⟨addr, hstored, hs, hpush, htake⟩ := stored_init hinit hcap hmax
  have hfree : (0 : ℕ) ≠ uint32Max := by decide
  refine ⟨⟨addr, m.queue.capacity, 0, []⟩, ?_, ?_, hstored, ?_, ?_, fun _ => trivial, rfl⟩
  · refine ⟨iff_of_false ?_ fun ⟨_, ht⟩ => ht, fun _ _ ht => absurd ht id⟩
    exact fun he => hfree (hpush.symm.trans he)
  · refine ⟨iff_of_false ?_ fun ⟨_, ht⟩ => ht, fun _ _ ht => absurd ht id⟩
    exact fun he => hfree (htake.symm.trans he)
  · intro _
    refine ⟨hpush.trans ?_, hs⟩
    rw [View.tail, List.length_nil, Nat.zero_mod]
  · exact fun _ => ⟨htake, hs⟩

/-- Every reachable state has a view. -/
theorem exists_invAt (hinit : cyclicQueueInit heap elementSize initialCapacity block = .ok m)
    (hcap : m.queue.capacity ≤ max) (hmax : max ≤ cyclicQueueMaxCapacity) {es : List (Event τ)}
    (hrun : Run.run Sys.step (Sys.start (m.setMaxCapacity max)) es = some s) :
    ∃ V, InvAt s V := by
  refine Run.run_invariant (fun _ => True) (fun s => ∃ V, InvAt s V) (start_inv hinit hcap hmax) ?_
    (fun _ _ => trivial) hrun
  rintro s e s' - ⟨V, h⟩ hstep
  exact step_inv h hstep

end Runs

end Cryptochan.Queue
