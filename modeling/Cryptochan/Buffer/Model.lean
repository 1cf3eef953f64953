import Cryptochan.XorRegion

/-!
# Cryptochan.Buffer.Model — the functions of `cyclic_buffer.c`

`read`, `write` and `recode_xor` have one shape: load the counter of the stage, take
`MIN(counter, max)` bytes, move them in one or two runs (the second one after the physical end),
store the index, add to the counter of the next stage and subtract from the own one.  What they
share is `CyclicBuffer.split` and `CyclicBuffer.advance`; a function executed alone is the
composition in program order (`Buffer.Threads` splits it into its atomic steps).
-/

namespace Cryptochan

/-- `CYCLIC_BUFFER_CHUNK_SIZE`. -/
def cyclicBufferChunkSize : ℕ := 0x1000

/-- `CYCLIC_BUFFER_MAX_SIZE`. -/
def cyclicBufferMaxSize : ℕ := 0x40000000

/-- `cyclic_buffer_t`. -/
structure CyclicBuffer where
  dataPtr : Region
  totalSize : ℕ
  readIdx : ℕ
  writeIdx : ℕ
  recodeIdx : ℕ
  availableToRead : ℕ
  availableToWrite : ℕ
  availableToRecode : ℕ

/-- The three users of a buffer.  Each owns one index and consumes one counter. -/
inductive Stage
  | write
  | recode
  | read
  deriving DecidableEq, Repr

namespace Stage

/-- The stage whose counter a stage adds to. -/
def next : Stage → Stage
  | write => recode
  | recode => read
  | read => write

/-- The stage that adds to a stage's counter. -/
def prev : Stage → Stage
  | write => read
  | recode => write
  | read => recode

theorem prev_eq_iff (i k : Stage) : prev k = i ↔ k = next i := by
  cases i <;> cases k <;> simp [prev, next]

theorem next_ne (i : Stage) : next i ≠ i := by cases i <;> simp [next]

end Stage

namespace CyclicBuffer

variable (buf : CyclicBuffer)

/-- The index a stage owns. -/
def idx : Stage → ℕ
  | .write => buf.writeIdx
  | .recode => buf.recodeIdx
  | .read => buf.readIdx

/-- The counter a stage consumes. -/
def available : Stage → ℕ
  | .write => buf.availableToWrite
  | .recode => buf.availableToRecode
  | .read => buf.availableToRead

def setData (data : Region) : CyclicBuffer := { buf with dataPtr := data }

def setIdx (st : Stage) (i : ℕ) : CyclicBuffer :=
  match st with
  | .write => { buf with writeIdx := i }
  | .recode => { buf with recodeIdx := i }
  | .read => { buf with readIdx := i }

def setAvailable (st : Stage) (n : ℕ) : CyclicBuffer :=
  match st with
  | .write => { buf with availableToWrite := n }
  | .recode => { buf with availableToRecode := n }
  | .read => { buf with availableToRead := n }

/-- `atomic_fetch_add` on the counter of `st`. -/
def fetchAdd (st : Stage) (n : ℕ) : CyclicBuffer :=
  buf.setAvailable st (u32Add (buf.available st) n)

/-- `atomic_fetch_sub` on the counter of `st`. -/
def fetchSub (st : Stage) (n : ℕ) : CyclicBuffer :=
  buf.setAvailable st (u32Sub (buf.available st) n)

section Accessors

variable (st : Stage) (n : ℕ)

@[simp] theorem dataPtr_setData (d : Region) : (buf.setData d).dataPtr = d := rfl
@[simp] theorem totalSize_setData (d : Region) : (buf.setData d).totalSize = buf.totalSize := rfl
@[simp] theorem idx_setData (d : Region) : (buf.setData d).idx = buf.idx := by
  funext k; cases k <;> rfl
@[simp] theorem available_setData (d : Region) : (buf.setData d).available = buf.available := by
  funext k; cases k <;> rfl
@[simp] theorem dataPtr_setIdx : (buf.setIdx st n).dataPtr = buf.dataPtr := by cases st <;> rfl
@[simp] theorem totalSize_setIdx : (buf.setIdx st n).totalSize = buf.totalSize := by cases st <;> rfl
@[simp] theorem available_setIdx : (buf.setIdx st n).available = buf.available := by
  funext k; cases st <;> cases k <;> rfl
@[simp] theorem idx_setIdx : (buf.setIdx st n).idx = Function.update buf.idx st n := by
  funext k; cases st <;> cases k <;> rfl
@[simp] theorem dataPtr_setAvailable : (buf.setAvailable st n).dataPtr = buf.dataPtr := by
  cases st <;> rfl
@[simp] theorem totalSize_setAvailable : (buf.setAvailable st n).totalSize = buf.totalSize := by
  cases st <;> rfl
@[simp] theorem idx_setAvailable : (buf.setAvailable st n).idx = buf.idx := by
  funext k; cases st <;> cases k <;> rfl
@[simp] theorem available_setAvailable :
    (buf.setAvailable st n).available = Function.update buf.available st n := by
  funext k; cases st <;> cases k <;> rfl
@[simp] theorem available_fetchAdd : (buf.fetchAdd st n).available =
    Function.update buf.available st (u32Add (buf.available st) n) := by simp [fetchAdd]
@[simp] theorem idx_fetchAdd : (buf.fetchAdd st n).idx = buf.idx := by simp [fetchAdd]
@[simp] theorem dataPtr_fetchAdd : (buf.fetchAdd st n).dataPtr = buf.dataPtr := by simp [fetchAdd]
@[simp] theorem totalSize_fetchAdd : (buf.fetchAdd st n).totalSize = buf.totalSize := by
  simp [fetchAdd]
@[simp] theorem available_fetchSub : (buf.fetchSub st n).available =
    Function.update buf.available st (u32Sub (buf.available st) n) := by simp [fetchSub]
@[simp] theorem idx_fetchSub : (buf.fetchSub st n).idx = buf.idx := by simp [fetchSub]
@[simp] theorem dataPtr_fetchSub : (buf.fetchSub st n).dataPtr = buf.dataPtr := by simp [fetchSub]
@[simp] theorem totalSize_fetchSub : (buf.fetchSub st n).totalSize = buf.totalSize := by
  simp [fetchSub]

end Accessors

/-- The next index of a stage, and the lengths of the runs before and after the physical end. -/
structure Split where
  next : ℕ
  first : ℕ
  second : ℕ

/-- The index arithmetic of `read`, `write` and `recode_xor`. -/
def split (st : Stage) (size : ℕ) : Split :=
  let nextIdx := u32Add (buf.idx st) size
  if buf.totalSize < nextIdx then
    let sizeTillEnd := u32Sub buf.totalSize (buf.idx st)
    ⟨u32Sub size sizeTillEnd, sizeTillEnd, u32Sub size sizeTillEnd⟩
  else ⟨nextIdx % buf.totalSize, size, 0⟩

/-- The `// advance` lines: store the index, add to the next counter, subtract from the own one. -/
def advance (st : Stage) (size nextIdx : ℕ) : CyclicBuffer :=
  ((buf.setIdx st nextIdx).fetchAdd st.next size).fetchSub st size

end CyclicBuffer

/-- The errors of `cyclic_buffer_init`. -/
inductive InitError
  | negativeChunks (chunks : ℤ)
  | exceededMaxSize (totalSize : ℕ)
  | malloc
  deriving DecidableEq, Repr

/-- `cyclic_buffer_init`; `malloc` gives the bytes of the new block, or `none`. -/
def cyclicBufferInit (malloc : ℕ → Option Region) (chunks : ℤ) : Except InitError CyclicBuffer :=
  if chunks ≤ 0 then .error (.negativeChunks chunks)
  else
    let totalSize := u32OfInt (cyclicBufferChunkSize * chunks)
    if cyclicBufferMaxSize < totalSize then .error (.exceededMaxSize totalSize)
    else match malloc totalSize with
      | none => .error .malloc
      | some dataPtr => .ok
          { dataPtr, totalSize, readIdx := 0, writeIdx := 0, recodeIdx := 0, availableToRead := 0,
            availableToWrite := totalSize, availableToRecode := 0 }

/-- `cyclic_buffer_read`: the buffer, the bytes at `dest`, the returned size. -/
def cyclicBufferRead (buf : CyclicBuffer) (dest : Option Region) (max : ℕ) :
    CyclicBuffer × Option Region × ℕ :=
  if buf.availableToRead = 0 then (buf, dest, 0)
  else
    let size := min buf.availableToRead max
    let sp := buf.split .read size
    let dest := dest.map fun d =>
      memcpy (memcpy d 0 buf.dataPtr buf.readIdx sp.first) sp.first buf.dataPtr 0 sp.second
    (buf.advance .read size sp.next, dest, size)

/-- `cyclic_buffer_write`. -/
def cyclicBufferWrite (buf : CyclicBuffer) (src : Option Region) (max : ℕ) : CyclicBuffer × ℕ :=
  if buf.availableToWrite = 0 then (buf, 0)
  else
    let size := min buf.availableToWrite max
    let sp := buf.split .write size
    let dataPtr := match src with
      | some s => memcpy (memcpy buf.dataPtr buf.writeIdx s 0 sp.first) 0 s sp.first sp.second
      | none => buf.dataPtr
    ((buf.setData dataPtr).advance .write size sp.next, size)

/-- `cyclic_buffer_recode_none`. -/
def cyclicBufferRecodeNone (buf : CyclicBuffer) : CyclicBuffer × ℕ :=
  let size := buf.availableToRecode
  let buf := buf.setIdx .recode (u32Add buf.recodeIdx size % buf.totalSize)
  ((buf.fetchAdd .read size).setAvailable .recode 0, size)

/-- The two blocks of a call of `xor_memory_region`. -/
inductive XorSide
  | data
  | mask
  deriving DecidableEq, Repr

/-- The build and the addresses of the two blocks. -/
structure Placement where
  build : Build
  base : XorSide → ℕ

/-- `xor_memory_region(data + d, mask + m, n)`: the bytes of the data block afterwards. -/
def xorInto (pl : Placement) (data : Region) (d : ℕ) (mask : Region) (m n : ℕ) : Region :=
  xorMemoryRegion pl.build pl.base (fun | .data => data | .mask => mask) ⟨.data, d⟩ ⟨.mask, m⟩ n .data

theorem xorInto_eq (pl : Placement) (data : Region) (d : ℕ) (mask : Region) (m n : ℕ) :
    xorInto pl data d mask m n =
      fun i => if d ≤ i ∧ i < d + n then data i ^^^ mask (m + (i - d)) else data i := by
  funext i
  rw [xorInto, xorMemoryRegion_eq _ _ _ _ _ _ (Or.inl (by simp))]
  simp [xorBytes]

/-- `cyclic_buffer_recode_xor`. -/
def cyclicBufferRecodeXor (pl : Placement) (buf : CyclicBuffer) (mask : Option Region) (max : ℕ) :
    CyclicBuffer × ℕ :=
  if buf.availableToRecode = 0 then (buf, 0)
  else
    let size := min buf.availableToRecode max
    let sp := buf.split .recode size
    let dataPtr := match mask with
      | some m => xorInto pl (xorInto pl buf.dataPtr buf.recodeIdx m 0 sp.first) 0 m sp.first sp.second
      | none => buf.dataPtr
    ((buf.setData dataPtr).advance .recode size sp.next, size)

/-- `cyclic_buffer_recode_xor_buf`: both buffers, the returned size.  The mask argument of the
nested calls is a pointer into the data of `mask_buf`. -/
def cyclicBufferRecodeXorBuf (pl : Placement) (buf maskBuf : CyclicBuffer) :
    CyclicBuffer × CyclicBuffer × ℕ :=
  if buf.availableToRecode = 0 then (buf, maskBuf, 0)
  else if maskBuf.availableToRead = 0 then (buf, maskBuf, 0)
  else
    let size := min buf.availableToRecode maskBuf.availableToRead
    let sp := maskBuf.split .read size
    let maskAt := fun off => some fun k => maskBuf.dataPtr (off + k)
    let plAt := fun off => { pl with
      base := fun | .data => pl.base .data | .mask => pl.base .mask + off }
    let buf :=
      (cyclicBufferRecodeXor (plAt maskBuf.readIdx) buf (maskAt maskBuf.readIdx) sp.first).1
    let buf := if maskBuf.totalSize < u32Add maskBuf.readIdx size then
      (cyclicBufferRecodeXor pl buf (maskAt 0) sp.second).1 else buf
    (buf, maskBuf.advance .read size sp.next, size)

/-! ### The index arithmetic is addition modulo `total_size` -/

/-- What `cyclic_buffer_init` promises about the size. -/
structure CyclicBuffer.Sized (buf : CyclicBuffer) : Prop where
  pos : 0 < buf.totalSize
  le : buf.totalSize ≤ cyclicBufferMaxSize

namespace CyclicBuffer

/-- The offset in `data_ptr` of byte `k` of the `size` bytes at the index of `st`. -/
def byteOffset (buf : CyclicBuffer) (st : Stage) (size k : ℕ) : ℕ :=
  if k < (buf.split st size).first then buf.idx st + k else k - (buf.split st size).first

variable {buf : CyclicBuffer} {st : Stage} {size : ℕ}

theorem Sized.lt_uint32 (h : buf.Sized) : buf.totalSize + buf.totalSize < 2 ^ 32 := by
  have := h.le
  unfold cyclicBufferMaxSize at this
  omega

/-- The wrap-around of the source without machine arithmetic. -/
theorem split_eq (h : buf.Sized) (hi : buf.idx st < buf.totalSize) (hs : size ≤ buf.totalSize) :
    buf.split st size = if buf.totalSize < buf.idx st + size then
      ⟨buf.idx st + size - buf.totalSize, buf.totalSize - buf.idx st,
        buf.idx st + size - buf.totalSize⟩
    else ⟨(buf.idx st + size) % buf.totalSize, size, 0⟩ := by
  have h32 := h.lt_uint32
  have e1 : u32Sub buf.totalSize (buf.idx st) = buf.totalSize - buf.idx st :=
    u32Sub_eq (by omega) (by omega)
  simp only [split, u32Add_eq (show buf.idx st + size < 2 ^ 32 by omega), e1]
  split_ifs with hlt
  · have e2 : u32Sub size (buf.totalSize - buf.idx st) = buf.idx st + size - buf.totalSize := by
      rw [u32Sub_eq (by omega) (by omega)]
      omega
    rw [e2]
  · rfl

theorem split_next (h : buf.Sized) (hi : buf.idx st < buf.totalSize) (hs : size ≤ buf.totalSize) :
    (buf.split st size).next = (buf.idx st + size) % buf.totalSize := by
  rw [split_eq h hi hs]
  split_ifs
  · rw [Nat.mod_eq_sub_mod (by omega), Nat.mod_eq_of_lt (by omega)]
  · rfl

theorem byteOffset_eq (h : buf.Sized) (hi : buf.idx st < buf.totalSize) (hs : size ≤ buf.totalSize)
    {k : ℕ} (hk : k < size) : buf.byteOffset st size k = (buf.idx st + k) % buf.totalSize := by
  rw [byteOffset, split_eq h hi hs]
  split_ifs with hlt hk1
  · exact (Nat.mod_eq_of_lt (by simp only at hk1; omega)).symm
  · simp only at hk1 ⊢
    rw [Nat.mod_eq_sub_mod (by omega), Nat.mod_eq_of_lt (by omega)]
    omega
  · exact (Nat.mod_eq_of_lt (by omega)).symm

end CyclicBuffer

/-- A successful init leaves an empty buffer of at most the maximal size. -/
theorem cyclicBufferInit_ok {malloc : ℕ → Option Region} {chunks : ℤ} {buf : CyclicBuffer}
    (h1 : 1 ≤ chunks) (h2 : chunks ≤ 0x40000) (h : cyclicBufferInit malloc chunks = .ok buf) :
    buf.Sized ∧ (buf.totalSize : ℤ) = 0x1000 * chunks ∧
      (∀ st, buf.idx st = 0) ∧ buf.availableToRead = 0 ∧ buf.availableToRecode = 0 ∧
      buf.availableToWrite = buf.totalSize := by
  have hneg : ¬ chunks ≤ 0 := by omega
  have hsize : ((u32OfInt (cyclicBufferChunkSize * chunks) : ℕ) : ℤ) = 0x1000 * chunks := by
    unfold u32OfInt cyclicBufferChunkSize
    push_cast
    omega
  simp only [cyclicBufferInit, if_neg hneg] at h
  split_ifs at h with hmax
  split at h
  · exact absurd h (by simp)
  · simp only [Except.ok.injEq] at h
    subst h
    refine ⟨⟨by simp only; omega, by simp only; omega⟩, hsize, ?_, rfl, rfl, rfl⟩
    intro st
    cases st <;> rfl

end Cryptochan
