import Cryptochan.Buffer.Pool

/-!
# Cryptochan.Buffer.Checked — the divisions and the accesses of the calls

The functions of `cyclic_buffer.c` once more, with a `%` that is checked, and with `memcpy` and
`xor_memory_region` checked where they touch the cells of a buffer: the buffer must hold them.
`none` is a division by zero or an access without cells.

Main results: the checked call is the call, unless `divisors` lists a zero or `touches` a buffer
without cells (`PoolCall.execChecked_eq_some_iff`); the checked run of any calls is the run, unless
`runDivisors` lists a zero (`PoolCall.runChecked_eq_some_iff`).
-/

namespace Cryptochan

/-- `a % b`. -/
def modChecked (a b : ℕ) : Option ℕ := if b = 0 then none else some (a % b)

/-- The cells that a copy reads or writes; `held` says whether there are any. -/
def cellsChecked (held : Bool) (cells : Region) : Option Region := if held then some cells else none

/-- `CyclicBuffer.split` with a checked `%`. -/
def CyclicBuffer.splitChecked (buf : CyclicBuffer) (st : Stage) (size : ℕ) : Option Split :=
  let nextIdx := u32Add (buf.idx st) size
  if buf.totalSize < nextIdx then
    let sizeTillEnd := u32Sub buf.totalSize (buf.idx st)
    some ⟨u32Sub size sizeTillEnd, sizeTillEnd, u32Sub size sizeTillEnd⟩
  else (modChecked nextIdx buf.totalSize).map fun next => ⟨next, size, 0⟩

section Calls

variable (held : Bool) (buf : CyclicBuffer)

/-- `cyclic_buffer_read`. -/
def cyclicBufferReadChecked (dest : Option Region) (max : ℕ) :
    Option (CyclicBuffer × Option Region × ℕ) :=
  if buf.availableToRead = 0 then some (buf, dest, 0)
  else do
    let size := min buf.availableToRead max
    let sp ← buf.splitChecked .read size
    let dest ← match dest with
      | some d => do
        let cells ← cellsChecked held buf.dataPtr
        some (some (memcpy (memcpy d 0 cells buf.readIdx sp.first) sp.first cells 0 sp.second))
      | none => some none
    some (buf.advance .read size sp.next, dest, size)

/-- `cyclic_buffer_write`. -/
def cyclicBufferWriteChecked (src : Option Region) (max : ℕ) : Option (CyclicBuffer × ℕ) :=
  if buf.availableToWrite = 0 then some (buf, 0)
  else do
    let size := min buf.availableToWrite max
    let sp ← buf.splitChecked .write size
    let dataPtr ← match src with
      | some s => do
        let cells ← cellsChecked held buf.dataPtr
        some (memcpy (memcpy cells buf.writeIdx s 0 sp.first) 0 s sp.first sp.second)
      | none => some buf.dataPtr
    some ((buf.setData dataPtr).advance .write size sp.next, size)

/-- `cyclic_buffer_recode_none`. -/
def cyclicBufferRecodeNoneChecked : Option (CyclicBuffer × ℕ) := do
  let size := buf.availableToRecode
  let recodeIdx ← modChecked (u32Add buf.recodeIdx size) buf.totalSize
  let buf := buf.setIdx .recode recodeIdx
  some ((buf.fetchAdd .read size).setAvailable .recode 0, size)

/-- `cyclic_buffer_recode_xor`; `maskHeld` says whether `mask` points to bytes. -/
def cyclicBufferRecodeXorChecked (maskHeld : Bool) (pl : Placement) (mask : Option Region)
    (max : ℕ) : Option (CyclicBuffer × ℕ) :=
  if buf.availableToRecode = 0 then some (buf, 0)
  else do
    let size := min buf.availableToRecode max
    let sp ← buf.splitChecked .recode size
    let dataPtr ← match mask with
      | some m => do
        let cells ← cellsChecked held buf.dataPtr
        let m ← cellsChecked maskHeld m
        some (xorInto pl (xorInto pl cells buf.recodeIdx m 0 sp.first) 0 m sp.first sp.second)
      | none => some buf.dataPtr
    some ((buf.setData dataPtr).advance .recode size sp.next, size)

/-- `cyclic_buffer_recode_xor_buf`. -/
def cyclicBufferRecodeXorBufChecked (maskHeld : Bool) (pl : Placement) (maskBuf : CyclicBuffer) :
    Option (CyclicBuffer × CyclicBuffer × ℕ) :=
  if buf.availableToRecode = 0 then some (buf, maskBuf, 0)
  else if maskBuf.availableToRead = 0 then some (buf, maskBuf, 0)
  else do
    let size := min buf.availableToRecode maskBuf.availableToRead
    let sp ← maskBuf.splitChecked .read size
    let maskAt := fun off => some fun k => maskBuf.dataPtr (off + k)
    let plAt := fun off => { pl with
      base := fun | .data => pl.base .data | .mask => pl.base .mask + off }
    let r ← cyclicBufferRecodeXorChecked held buf maskHeld (plAt maskBuf.readIdx)
      (maskAt maskBuf.readIdx) sp.first
    let r ← if maskBuf.totalSize < u32Add maskBuf.readIdx size then
      cyclicBufferRecodeXorChecked held r.1 maskHeld pl (maskAt 0) sp.second else some r
    some (r.1, maskBuf.advance .read size sp.next, size)

end Calls

/-! ### What can fail -/

@[simp] theorem modChecked_eq_some_iff {a b r : ℕ} :
    modChecked a b = some r ↔ b ≠ 0 ∧ a % b = r := by
  unfold modChecked
  split_ifs with h <;> simp [h]

@[simp] theorem cellsChecked_eq_some_iff {held : Bool} {cells r : Region} :
    cellsChecked held cells = some r ↔ held ∧ cells = r := by
  unfold cellsChecked
  split_ifs with h <;> simp [h]

theorem CyclicBuffer.splitChecked_eq_some_iff {buf : CyclicBuffer} {st : Stage} {size : ℕ}
    {sp : Split} : buf.splitChecked st size = some sp ↔
      0 ∉ buf.splitDivisors st size ∧ buf.split st size = sp := by
  simp only [splitChecked, splitDivisors, split]
  by_cases hw : buf.totalSize < u32Add (buf.idx st) size
  · simp [hw]
  · simp only [if_neg hw, Option.map_eq_some_iff, modChecked_eq_some_iff, List.mem_singleton]
    constructor
    · rintro ⟨next, ⟨hne, rfl⟩, rfl⟩
      exact ⟨Ne.symm hne, rfl⟩
    · rintro ⟨hne, rfl⟩
      exact ⟨_, ⟨Ne.symm hne, rfl⟩, rfl⟩

section Calls

variable {held maskHeld : Bool} {buf maskBuf : CyclicBuffer}

theorem cyclicBufferReadChecked_eq_some_iff {dest : Option Region} {max : ℕ}
    {r : CyclicBuffer × Option Region × ℕ} :
    cyclicBufferReadChecked held buf dest max = some r ↔ 0 ∉ buf.callDivisors .read max ∧
      ((buf.availableToRead = 0 ∨ dest.isNone) ∨ held) ∧ cyclicBufferRead buf dest max = r := by
  unfold cyclicBufferReadChecked cyclicBufferRead CyclicBuffer.callDivisors
  simp only [CyclicBuffer.available]
  by_cases h0 : buf.availableToRead = 0
  · simp [h0]
  · cases dest <;>
      simp [h0, Option.bind_eq_some_iff, CyclicBuffer.splitChecked_eq_some_iff, and_assoc]

theorem cyclicBufferWriteChecked_eq_some_iff {src : Option Region} {max : ℕ}
    {r : CyclicBuffer × ℕ} :
    cyclicBufferWriteChecked held buf src max = some r ↔ 0 ∉ buf.callDivisors .write max ∧
      ((buf.availableToWrite = 0 ∨ src.isNone) ∨ held) ∧ cyclicBufferWrite buf src max = r := by
  unfold cyclicBufferWriteChecked cyclicBufferWrite CyclicBuffer.callDivisors
  simp only [CyclicBuffer.available]
  by_cases h0 : buf.availableToWrite = 0
  · simp [h0]
  · cases src <;>
      simp [h0, Option.bind_eq_some_iff, CyclicBuffer.splitChecked_eq_some_iff, and_assoc]

theorem cyclicBufferRecodeNoneChecked_eq_some_iff {r : CyclicBuffer × ℕ} :
    cyclicBufferRecodeNoneChecked buf = some r ↔
      buf.totalSize ≠ 0 ∧ cyclicBufferRecodeNone buf = r := by
  simp [cyclicBufferRecodeNoneChecked, cyclicBufferRecodeNone, Option.bind_eq_some_iff, and_assoc]

theorem cyclicBufferRecodeXorChecked_eq_some_iff {pl : Placement} {mask : Option Region} {max : ℕ}
    {r : CyclicBuffer × ℕ} :
    cyclicBufferRecodeXorChecked held buf maskHeld pl mask max = some r ↔
      0 ∉ buf.callDivisors .recode max ∧
      ((buf.availableToRecode = 0 ∨ mask.isNone) ∨ held ∧ maskHeld) ∧
      cyclicBufferRecodeXor pl buf mask max = r := by
  unfold cyclicBufferRecodeXorChecked cyclicBufferRecodeXor CyclicBuffer.callDivisors
  simp only [CyclicBuffer.available]
  by_cases h0 : buf.availableToRecode = 0
  · simp [h0]
  · cases mask <;>
      simp [h0, Option.bind_eq_some_iff, CyclicBuffer.splitChecked_eq_some_iff, and_assoc]

/-- The placement has no part in the result. -/
theorem cyclicBufferRecodeXor_placement (pl pl' : Placement) (buf : CyclicBuffer)
    (mask : Option Region) (max : ℕ) :
    cyclicBufferRecodeXor pl buf mask max = cyclicBufferRecodeXor pl' buf mask max := by
  unfold cyclicBufferRecodeXor
  simp only [xorInto_eq]

/-- A mask that wraps is read by two nested calls, and nothing is divided by its size. -/
theorem recodeXorBufChecked_wraps (pl : Placement) (h0 : buf.availableToRecode ≠ 0)
    (h1 : maskBuf.availableToRead ≠ 0) {n : ℕ}
    (hn : n = min buf.availableToRecode maskBuf.availableToRead)
    (hw : maskBuf.totalSize < u32Add maskBuf.readIdx n) {r : CyclicBuffer × CyclicBuffer × ℕ} :
    cyclicBufferRecodeXorBufChecked held buf maskHeld pl maskBuf = some r ↔
      0 ∉ buf.callDivisors .recode (maskBuf.split .read n).first ++
        (cyclicBufferRecodeXor pl buf (some fun k => maskBuf.dataPtr (maskBuf.readIdx + k))
          (maskBuf.split .read n).first).1.callDivisors .recode (maskBuf.split .read n).second ∧
      (held ∧ maskHeld) ∧ cyclicBufferRecodeXorBuf pl buf maskBuf = r := by
  have hdiv : 0 ∉ maskBuf.splitDivisors .read n := by
    rw [CyclicBuffer.splitDivisors, if_pos (show _ < u32Add (maskBuf.idx .read) n from hw)]
    exact List.not_mem_nil
  rw [cyclicBufferRecodeXorBufChecked, cyclicBufferRecodeXorBuf, if_neg h0, if_neg h1, if_neg h0,
    if_neg h1, ← hn, List.mem_append, not_or]
  simp only [hw, if_true, Option.bind_eq_bind, Option.bind_eq_some_iff, h0, Option.isNone_some,
    CyclicBuffer.splitChecked_eq_some_iff, cyclicBufferRecodeXorChecked_eq_some_iff, hdiv,
    Option.some_inj, Bool.false_eq_true, or_self, false_or, not_false_eq_true, true_and]
  constructor
  · rintro ⟨sp, rfl, r1, ⟨hd1, hheld, rfl⟩, r2, ⟨hd2, -, rfl⟩, rfl⟩
    rw [cyclicBufferRecodeXor_placement _ pl] at hd2
    exact ⟨⟨hd1, hd2⟩, hheld, rfl⟩
  · rintro ⟨⟨hd1, hd2⟩, hheld, rfl⟩
    refine ⟨_, rfl, _, ⟨hd1, hheld, rfl⟩, _, ⟨?_, Or.inr hheld, rfl⟩, rfl⟩
    rw [cyclicBufferRecodeXor_placement _ pl]
    exact hd2

/-- A mask that does not is read by one, after a division by its size. -/
theorem recodeXorBufChecked_straight (pl : Placement) (h0 : buf.availableToRecode ≠ 0)
    (h1 : maskBuf.availableToRead ≠ 0) {n : ℕ}
    (hn : n = min buf.availableToRecode maskBuf.availableToRead)
    (hw : ¬ maskBuf.totalSize < u32Add maskBuf.readIdx n)
    {r : CyclicBuffer × CyclicBuffer × ℕ} :
    cyclicBufferRecodeXorBufChecked held buf maskHeld pl maskBuf = some r ↔
      (maskBuf.totalSize ≠ 0 ∧ 0 ∉ buf.callDivisors .recode n) ∧
      (held ∧ maskHeld) ∧ cyclicBufferRecodeXorBuf pl buf maskBuf = r := by
  have hw' : ¬ maskBuf.totalSize < u32Add (maskBuf.idx .read) n := hw
  have hfirst : (maskBuf.split .read n).first = n := by
    rw [CyclicBuffer.split]
    exact congrArg CyclicBuffer.Split.first (if_neg hw')
  have hdiv : 0 ∉ maskBuf.splitDivisors .read n ↔ maskBuf.totalSize ≠ 0 := by
    rw [CyclicBuffer.splitDivisors, if_neg hw', List.mem_singleton]
    exact ne_comm
  rw [cyclicBufferRecodeXorBufChecked, cyclicBufferRecodeXorBuf, if_neg h0, if_neg h1, if_neg h0,
    if_neg h1, ← hn]
  simp only [hw, if_false, Option.bind_eq_bind, Option.bind_eq_some_iff, h0, Option.isNone_some,
    CyclicBuffer.splitChecked_eq_some_iff, cyclicBufferRecodeXorChecked_eq_some_iff, hdiv,
    Option.some_inj, Bool.false_eq_true, or_self, false_or]
  constructor
  · rintro ⟨sp, ⟨hm, rfl⟩, r1, ⟨hd, hheld, rfl⟩, r2, rfl, rfl⟩
    rw [hfirst] at hd
    exact ⟨⟨hm, hd⟩, hheld, rfl⟩
  · rintro ⟨⟨hm, hd⟩, hheld, rfl⟩
    exact ⟨_, ⟨hm, rfl⟩, _, ⟨hfirst.symm ▸ hd, hheld, rfl⟩, _, rfl, rfl⟩

end Calls

/-! ### A call of a pool -/

namespace PoolCall

variable {ι : Type}

/-- The buffers whose cells a call passes to `memcpy` or `xor_memory_region`. -/
def touches (bufs : ι → CyclicBuffer) : PoolCall ι → List ι
  | .write i src _ => if (bufs i).availableToWrite = 0 ∨ src.isNone then [] else [i]
  | .read i dest _ => if (bufs i).availableToRead = 0 ∨ dest.isNone then [] else [i]
  | .recodeNone _ => []
  | .recodeXor i _ mask _ => if (bufs i).availableToRecode = 0 ∨ mask.isNone then [] else [i]
  | .recodeXorBuf i j _ _ =>
    if (bufs i).availableToRecode = 0 ∨ (bufs j).availableToRead = 0 then [] else [i, j]

theorem forall_mem_ite {p : Prop} [Decidable p] {ks : List ι} {held : ι → Bool} :
    (∀ k ∈ if p then [] else ks, held k) ↔ p ∨ ∀ k ∈ ks, held k := by
  split_ifs with hp <;> simp [hp]

theorem not_mem_map_divisors {i : ι} {ds : List ℕ} :
    (∀ k, (k, 0) ∉ ds.map (i, ·)) ↔ 0 ∉ ds := by
  simp

theorem not_mem_cons_divisors {i : ι} {n : ℕ} {ds : List (ι × ℕ)} :
    (∀ k, (k, 0) ∉ (i, n) :: ds) ↔ n ≠ 0 ∧ ∀ k, (k, 0) ∉ ds := by
  simp only [List.mem_cons, not_or, forall_and, Prod.mk.injEq, not_and, forall_eq, ne_comm]

theorem forall_mem_pair {i j : ι} {held : ι → Bool} :
    (∀ k ∈ [i, j], held k) ↔ held i ∧ held j := by
  simp

/-- What a checked function says of its result, of a function of the result. -/
theorem map_checked_eq_some_iff {α β : Type} {checked : Option α} {a : α} {f : α → β} {b : β}
    {noDiv held : Prop} (h : ∀ {r}, checked = some r ↔ noDiv ∧ held ∧ a = r) :
    checked.map f = some b ↔ noDiv ∧ held ∧ f a = b := by
  rw [Option.map_eq_some_iff]
  constructor
  · rintro ⟨r, hr, rfl⟩
    obtain ⟨hdiv, hheld, rfl⟩ := h.mp hr
    exact ⟨hdiv, hheld, rfl⟩
  · rintro ⟨hdiv, hheld, rfl⟩
    exact ⟨a, h.mpr ⟨hdiv, hheld, rfl⟩, rfl⟩

variable [DecidableEq ι]

/-- `exec` with checked calls; `held k` says whether buffer `k` has its cells. -/
def execChecked (held : ι → Bool) (bufs : ι → CyclicBuffer) :
    PoolCall ι → Option (ι → CyclicBuffer)
  | .write i src max =>
    (cyclicBufferWriteChecked (held i) (bufs i) src max).map fun r => Function.update bufs i r.1
  | .read i dest max =>
    (cyclicBufferReadChecked (held i) (bufs i) dest max).map fun r => Function.update bufs i r.1
  | .recodeNone i =>
    (cyclicBufferRecodeNoneChecked (bufs i)).map fun r => Function.update bufs i r.1
  | .recodeXor i pl mask max =>
    (cyclicBufferRecodeXorChecked (held i) (bufs i) true pl mask max).map fun r =>
      Function.update bufs i r.1
  | .recodeXorBuf i j _ pl =>
    (cyclicBufferRecodeXorBufChecked (held i) (bufs i) (held j) pl (bufs j)).map fun r =>
      Function.update (Function.update bufs i r.1) j r.2.1

/-- **The lists of a call are what it does**: the checked call is the call, unless `divisors` lists
a zero or `touches` a buffer without cells. -/
theorem execChecked_eq_some_iff {held : ι → Bool} {bufs bufs' : ι → CyclicBuffer}
    {c : PoolCall ι} : execChecked held bufs c = some bufs' ↔
      (∀ k, (k, 0) ∉ divisors bufs c) ∧ (∀ k ∈ c.touches bufs, held k) ∧ exec bufs c = bufs' := by
  cases c with
  | write i src max =>
    refine (map_checked_eq_some_iff cyclicBufferWriteChecked_eq_some_iff).trans ?_
    simp only [divisors, not_mem_map_divisors, touches, forall_mem_ite, List.forall_mem_singleton,
      exec]
  | read i dest max =>
    refine (map_checked_eq_some_iff cyclicBufferReadChecked_eq_some_iff).trans ?_
    simp only [divisors, not_mem_map_divisors, touches, forall_mem_ite, List.forall_mem_singleton,
      exec]
  | recodeNone i =>
    have hnone : ∀ {r}, cyclicBufferRecodeNoneChecked (bufs i) = some r ↔
        (bufs i).totalSize ≠ 0 ∧ True ∧ cyclicBufferRecodeNone (bufs i) = r := by
      intro r
      rw [true_and, cyclicBufferRecodeNoneChecked_eq_some_iff]
    refine (map_checked_eq_some_iff hnone).trans ?_
    simp only [divisors, not_mem_cons_divisors, touches, exec, List.not_mem_nil, not_false_eq_true,
      implies_true, and_true, false_implies]
  | recodeXor i pl mask max =>
    refine (map_checked_eq_some_iff cyclicBufferRecodeXorChecked_eq_some_iff).trans ?_
    simp only [divisors, not_mem_map_divisors, touches, forall_mem_ite, List.forall_mem_singleton,
      exec, and_true]
  | recodeXorBuf i j distinct pl =>
    simp only [execChecked, divisors, touches, forall_mem_ite, forall_mem_pair, exec]
    by_cases h0 : (bufs i).availableToRecode = 0
    · simp [cyclicBufferRecodeXorBufChecked, cyclicBufferRecodeXorBuf, h0]
    by_cases h1 : (bufs j).availableToRead = 0
    · simp [cyclicBufferRecodeXorBufChecked, cyclicBufferRecodeXorBuf, h0, h1]
    by_cases hw : (bufs j).totalSize < u32Add (bufs j).readIdx
        (min (bufs i).availableToRecode (bufs j).availableToRead)
    · refine (map_checked_eq_some_iff (recodeXorBufChecked_wraps pl h0 h1 rfl hw)).trans ?_
      simp only [h0, h1, hw, if_true, if_false, not_mem_map_divisors, or_self, false_or]
    · refine (map_checked_eq_some_iff (recodeXorBufChecked_straight pl h0 h1 rfl hw)).trans ?_
      simp only [h0, h1, hw, if_false, not_mem_cons_divisors, not_mem_map_divisors, or_self,
        false_or]

/-- The checked calls `cs`, on buffers that have their cells. -/
def runChecked (bufs : ι → CyclicBuffer) : List (PoolCall ι) → Option (ι → CyclicBuffer)
  | [] => some bufs
  | c :: cs => (execChecked (fun _ => true) bufs c).bind fun bufs => runChecked bufs cs

/-- A run of checked calls is the run, unless one of them divides by zero. -/
theorem runChecked_eq_some_iff {bufs' : ι → CyclicBuffer} {cs : List (PoolCall ι)} :
    ∀ {bufs : ι → CyclicBuffer}, runChecked bufs cs = some bufs' ↔
      (∀ k, (k, 0) ∉ runDivisors bufs cs) ∧ run bufs cs = bufs' := by
  induction cs with
  | nil =>
    intro bufs
    simp [runChecked, runDivisors, run]
  | cons c cs ih =>
    intro bufs
    simp only [runChecked, Option.bind_eq_some_iff, execChecked_eq_some_iff, implies_true, true_and,
      runDivisors, List.mem_append, not_or, forall_and]
    constructor
    · rintro ⟨_, ⟨hc, rfl⟩, h⟩
      obtain ⟨hcs, hrun⟩ := ih.mp h
      exact ⟨⟨hc, hcs⟩, hrun⟩
    · rintro ⟨⟨hc, hcs⟩, hrun⟩
      exact ⟨_, ⟨hc, rfl⟩, ih.mpr ⟨hcs, hrun⟩⟩

end PoolCall

end Cryptochan
