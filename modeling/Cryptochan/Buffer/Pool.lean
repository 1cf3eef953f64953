import Cryptochan.Buffer.ReadRecode

/-!
# Cryptochan.Buffer.Pool — several buffers and any sequence of calls on them

`PoolCall` is a call of any function of `cyclic_buffer.c` on buffers of a family;
`cyclic_buffer_recode_xor_buf` takes two different ones.  Every buffer of a pool that was
initialized stays sound (`run_sound`), so in every state reached `recode_xor_buf` is a read followed
by a `recode_xor`.

The second part is about the size: when the product with the chunk size is exact, and which divisors
the calls use (that these are the ones: Buffer.Checked).
-/

namespace Cryptochan

/-- A call on buffers of a family. -/
inductive PoolCall (ι : Type)
  | write (i : ι) (src : Option Region) (max : ℕ)
  | read (i : ι) (dest : Option Region) (max : ℕ)
  | recodeNone (i : ι)
  | recodeXor (i : ι) (pl : Placement) (mask : Option Region) (max : ℕ)
  | recodeXorBuf (i j : ι) (distinct : i ≠ j) (pl : Placement)

namespace PoolCall

variable {ι : Type} [DecidableEq ι]

/-- The buffers after a call. -/
def exec (bufs : ι → CyclicBuffer) : PoolCall ι → ι → CyclicBuffer
  | .write i src max => Function.update bufs i (cyclicBufferWrite (bufs i) src max).1
  | .read i dest max => Function.update bufs i (cyclicBufferRead (bufs i) dest max).1
  | .recodeNone i => Function.update bufs i (cyclicBufferRecodeNone (bufs i)).1
  | .recodeXor i pl mask max => Function.update bufs i (cyclicBufferRecodeXor pl (bufs i) mask max).1
  | .recodeXorBuf i j _ pl =>
    let r := cyclicBufferRecodeXorBuf pl (bufs i) (bufs j)
    Function.update (Function.update bufs i r.1) j r.2.1

/-- The buffers after the calls `cs`. -/
def run (bufs : ι → CyclicBuffer) (cs : List (PoolCall ι)) : ι → CyclicBuffer := cs.foldl exec bufs

/-- What every call keeps holds after every sequence of calls. -/
theorem run_induction {I : (ι → CyclicBuffer) → Prop} (hstep : ∀ bufs c, I bufs → I (exec bufs c))
    (cs : List (PoolCall ι)) : ∀ bufs, I bufs → I (run bufs cs) := by
  induction cs with
  | nil => exact fun bufs h => h
  | cons c cs ih => exact fun bufs h => ih _ (hstep bufs c h)

end PoolCall

/-! ### Soundness -/

/-- The buffer represents two lists. -/
def CyclicBuffer.Sound (buf : CyclicBuffer) : Prop := ∃ cap U R, Represents cap buf U R

/-- A write from `NULL` stores the bytes that are there. -/
theorem Represents.write_null {cap : ℕ} {buf : CyclicBuffer} {U R : List UInt8}
    (h : Represents cap buf U R) (max : ℕ) : cyclicBufferWrite buf none max = cyclicBufferWrite buf
      (some fun k => buf.dataPtr ((buf.idx .write + k) % buf.totalSize)) max := by
  by_cases h0 : buf.available .write = 0
  · have h0' : buf.availableToWrite = 0 := h0
    rw [cyclicBufferWrite, cyclicBufferWrite, if_pos h0', if_pos h0']
  · have hle := h.available_le .write
    have hlt := h.idx_lt .write
    have hs : min (buf.available .write) max ≤ buf.totalSize := by omega
    have hdata : buf.moveRuns (fun _ b => b) .write
        (fun k => buf.dataPtr ((buf.idx .write + k) % buf.totalSize))
        (min (buf.available .write) max) = buf.dataPtr := by
      funext c
      by_cases hc : ∃ k < min (buf.available .write) max, (buf.idx .write + k) % buf.totalSize = c
      · obtain ⟨k, hk, rfl⟩ := hc
        rw [CyclicBuffer.moveRuns_cell h.sized hlt hs _ _ hk]
      · push Not at hc
        rw [CyclicBuffer.moveRuns_other h.sized hlt hs _ _ hc]
    rw [cyclicBufferWrite_eq h0, hdata, cyclicBufferWrite,
      if_neg (show buf.availableToWrite ≠ 0 from h0)]
    rfl

namespace PoolCall

variable {ι : Type} [DecidableEq ι] {bufs : ι → CyclicBuffer}

theorem sound_update (h : ∀ k, (bufs k).Sound) {i : ι} {buf : CyclicBuffer} (hb : buf.Sound)
    (k : ι) : (Function.update bufs i buf k).Sound := by
  by_cases hk : k = i
  · rw [hk, Function.update_self]
    exact hb
  · rw [Function.update_of_ne hk]
    exact h k

theorem exec_sound (bufs : ι → CyclicBuffer) (c : PoolCall ι) (h : ∀ k, (bufs k).Sound) :
    ∀ k, (exec bufs c k).Sound := by
  cases c with
  | write i src max =>
    obtain ⟨cap, U, R, hi⟩ := h i
    cases src with
    | some src => exact sound_update h ⟨_, _, _, (hi.write src max).2⟩
    | none =>
      refine sound_update h ?_
      rw [hi.write_null]
      exact ⟨_, _, _, (hi.write _ max).2⟩
  | read i dest max =>
    obtain ⟨cap, U, R, hi⟩ := h i
    exact sound_update h ⟨_, _, _, (hi.read dest max).2⟩
  | recodeNone i =>
    obtain ⟨cap, U, R, hi⟩ := h i
    exact sound_update h ⟨_, _, _, hi.recodeNone.2⟩
  | recodeXor i pl mask max =>
    obtain ⟨cap, U, R, hi⟩ := h i
    exact sound_update h ⟨_, _, _, (hi.recodeXor pl mask max).2⟩
  | recodeXorBuf i j distinct pl =>
    obtain ⟨cap, U, R, hi⟩ := h i
    obtain ⟨capm, Um, Rm, hj⟩ := h j
    obtain ⟨d, mask', hread, -, heq⟩ := hi.recodeXorBuf_eq hj pl pl (fun _ => 0) rfl
    have hmask := (hj.read (some fun _ => 0)
      (min (bufs i).availableToRecode (bufs j).availableToRead)).2
    rw [hread] at hmask
    simp only [exec, heq]
    exact sound_update (sound_update h ⟨_, _, _, (hi.recodeXor pl (some d) _).2⟩) ⟨_, _, _, hmask⟩

theorem run_sound {malloc : ι → ℕ → Option Region} {chunks : ι → ℤ} (h1 : ∀ i, 1 ≤ chunks i)
    (h2 : ∀ i, chunks i ≤ 0x40000)
    (hinit : ∀ i, cyclicBufferInit (malloc i) (chunks i) = .ok (bufs i))
    (cs : List (PoolCall ι)) : ∀ k, (run bufs cs k).Sound :=
  run_induction exec_sound cs bufs fun k => ⟨_, _, _, refines_init (h1 k) (h2 k) (hinit k)⟩

end PoolCall

/-- **`recode_xor_buf` is an optimised read-then-recode**: in every state that calls on initialized
buffers lead to, it leaves both buffers and returns the size as a read of
`n = MIN(available_to_recode, available_to_read)` bytes into a scratch array does, followed by a
`recode_xor` with that array. -/
theorem cyclicBufferRecodeXorBuf_readThenRecode {ι : Type} [DecidableEq ι]
    (malloc : ι → ℕ → Option Region) (chunks : ι → ℤ) (bufs : ι → CyclicBuffer)
    (h1 : ∀ i, 1 ≤ chunks i) (h2 : ∀ i, chunks i ≤ 0x40000)
    (hinit : ∀ i, cyclicBufferInit (malloc i) (chunks i) = .ok (bufs i)) (cs : List (PoolCall ι))
    (i j : ι) (pl pl' : Placement) (tmp : Region) :
    let buf := PoolCall.run bufs cs i
    let maskBuf := PoolCall.run bufs cs j
    let n := min buf.availableToRecode maskBuf.availableToRead
    let read := cyclicBufferRead maskBuf (some tmp) n
    let recode := cyclicBufferRecodeXor pl' buf read.2.1 n
    cyclicBufferRecodeXorBuf pl buf maskBuf = (recode.1, read.1, n) ∧ read.2.2 = n ∧ recode.2 = n ∧
      (n = 0 → cyclicBufferRecodeXorBuf pl buf maskBuf = (buf, maskBuf, 0)) := by
  intro buf maskBuf n read recode
  obtain ⟨cap, U, R, hi⟩ := PoolCall.run_sound h1 h2 hinit cs i
  obtain ⟨capm, Um, Rm, hj⟩ := PoolCall.run_sound h1 h2 hinit cs j
  obtain ⟨d, mask', hread, hrecode, heq⟩ := hi.recodeXorBuf_eq hj pl pl' tmp (n := n) rfl
  have hr : read = (mask', some d, n) := hread
  have hc : recode = cyclicBufferRecodeXor pl' buf (some d) n := by
    simp only [recode, hr]
  refine ⟨?_, ?_, ?_, ?_⟩
  · rw [hc, hr]
    exact heq
  · rw [hr]
  · rw [hc]
    exact hrecode
  · intro h0
    have h0' : min buf.availableToRecode maskBuf.availableToRead = 0 := h0
    rw [cyclicBufferRecodeXorBuf]
    split_ifs with hz hz'
    · rfl
    · rfl
    · omega

/-- Two buffers of one chunk: five bytes to recode, three bytes of the mask. -/
def fiveAndThree : List (PoolCall Bool) :=
  [.write false (some fun k => k.toUInt8) 5, .write true (some fun _ => 9) 3, .recodeNone true]

theorem cyclicBufferRecodeXorBuf_readThenRecode_fiveAndThree :
    (cyclicBufferRecodeXorBuf ⟨.sse2, fun _ => 0⟩ (PoolCall.run (fun _ => oneChunk) fiveAndThree false)
      (PoolCall.run (fun _ => oneChunk) fiveAndThree true)).2.2 = 3 := by
  have h := (cyclicBufferRecodeXorBuf_readThenRecode (fun _ _ => some fun _ => 0) (fun _ => 1)
    (fun _ => oneChunk) (by decide) (by decide) (fun _ => oneChunk_init) fiveAndThree false true
    ⟨.sse2, fun _ => 0⟩ ⟨.sse2, fun _ => 0⟩ fun _ => 0).1
  have hn : min (PoolCall.run (fun _ => oneChunk) fiveAndThree false).availableToRecode
      (PoolCall.run (fun _ => oneChunk) fiveAndThree true).availableToRead = 3 := by decide
  exact (congrArg (fun r => r.2.2) h).trans hn

/-! ### The size -/

/-- `total_size` and `available_to_write` are the exact product, within the limit. -/
structure ExactSize (chunks : ℤ) (buf : CyclicBuffer) : Prop where
  chunks_pos : 1 ≤ chunks
  product_le : cyclicBufferChunkSize * chunks ≤ cyclicBufferMaxSize
  totalSize : (buf.totalSize : ℤ) = cyclicBufferChunkSize * chunks
  availableToWrite : (buf.availableToWrite : ℤ) = cyclicBufferChunkSize * chunks

namespace CyclicBuffer

variable (buf : CyclicBuffer)

/-- The divisors of the `%` that the index arithmetic of `st` executes for `size` bytes. -/
def splitDivisors (st : Stage) (size : ℕ) : List ℕ :=
  if buf.totalSize < u32Add (buf.idx st) size then [] else [buf.totalSize]

/-- The divisors that a call of `read`, `write` or `recode_xor` uses. -/
def callDivisors (st : Stage) (max : ℕ) : List ℕ :=
  if buf.available st = 0 then [] else buf.splitDivisors st (min (buf.available st) max)

variable {buf}

theorem of_mem_callDivisors {st : Stage} {max d : ℕ} (h : d ∈ buf.callDivisors st max) :
    d = buf.totalSize := by
  unfold callDivisors splitDivisors at h
  split_ifs at h
  · exact absurd h List.not_mem_nil
  · exact absurd h List.not_mem_nil
  · exact List.mem_singleton.mp h

@[simp] theorem totalSize_advance (st : Stage) (size next : ℕ) :
    (buf.advance st size next).totalSize = buf.totalSize := by simp [advance]

end CyclicBuffer

theorem totalSize_recodeXor (pl : Placement) (buf : CyclicBuffer) (mask : Option Region) (max : ℕ) :
    (cyclicBufferRecodeXor pl buf mask max).1.totalSize = buf.totalSize := by
  unfold cyclicBufferRecodeXor
  split_ifs <;> simp

namespace PoolCall

variable {ι : Type} [DecidableEq ι]

/-- The divisors that a call uses, each with the buffer whose `total_size` it is. -/
def divisors (bufs : ι → CyclicBuffer) : PoolCall ι → List (ι × ℕ)
  | .write i _ max => ((bufs i).callDivisors .write max).map (i, ·)
  | .read i _ max => ((bufs i).callDivisors .read max).map (i, ·)
  | .recodeNone i => [(i, (bufs i).totalSize)]
  | .recodeXor i _ _ max => ((bufs i).callDivisors .recode max).map (i, ·)
  | .recodeXorBuf i j _ pl =>
    let buf := bufs i
    let maskBuf := bufs j
    if buf.availableToRecode = 0 then []
    else if maskBuf.availableToRead = 0 then []
    else
      let size := min buf.availableToRecode maskBuf.availableToRead
      let sp := maskBuf.split .read size
      if maskBuf.totalSize < u32Add maskBuf.readIdx size then
        let mask := some fun k => maskBuf.dataPtr (maskBuf.readIdx + k)
        let buf' := (cyclicBufferRecodeXor pl buf mask sp.first).1
        (buf.callDivisors .recode sp.first ++ buf'.callDivisors .recode sp.second).map (i, ·)
      else (j, maskBuf.totalSize) :: (buf.callDivisors .recode size).map (i, ·)

/-- The divisors of all the calls `cs`. -/
def runDivisors (bufs : ι → CyclicBuffer) : List (PoolCall ι) → List (ι × ℕ)
  | [] => []
  | c :: cs => divisors bufs c ++ runDivisors (exec bufs c) cs

theorem totalSize_update {bufs : ι → CyclicBuffer} {i : ι} {buf : CyclicBuffer}
    (h : buf.totalSize = (bufs i).totalSize) (k : ι) :
    (Function.update bufs i buf k).totalSize = (bufs k).totalSize := by
  by_cases hk : k = i
  · rw [hk, Function.update_self, h]
  · rw [Function.update_of_ne hk]

theorem totalSize_exec (bufs : ι → CyclicBuffer) (c : PoolCall ι) (k : ι) :
    (exec bufs c k).totalSize = (bufs k).totalSize := by
  cases c with
  | write i src max =>
    apply totalSize_update
    unfold cyclicBufferWrite
    split_ifs <;> simp
  | read i dest max =>
    apply totalSize_update
    unfold cyclicBufferRead
    split_ifs <;> simp
  | recodeNone i =>
    apply totalSize_update
    simp [cyclicBufferRecodeNone]
  | recodeXor i pl mask max =>
    apply totalSize_update
    exact totalSize_recodeXor pl _ mask max
  | recodeXorBuf i j distinct pl =>
    simp only [exec]
    rw [totalSize_update, totalSize_update]
    · unfold cyclicBufferRecodeXorBuf
      split_ifs
      · rfl
      · rfl
      · dsimp only
        split_ifs <;> simp only [totalSize_recodeXor]
    · rw [Function.update_of_ne (Ne.symm distinct)]
      unfold cyclicBufferRecodeXorBuf
      split_ifs <;> simp

omit [DecidableEq ι] in
theorem of_mem_map_divisors {bufs : ι → CyclicBuffer} {i k : ι} {d : ℕ} {ds : List ℕ}
    (h : (k, d) ∈ ds.map (i, ·)) (hds : ∀ d ∈ ds, d = (bufs i).totalSize) :
    d = (bufs k).totalSize := by
  obtain ⟨d', hd', he⟩ := List.mem_map.mp h
  obtain ⟨rfl, rfl⟩ := Prod.mk.inj he
  exact hds d' hd'

omit [DecidableEq ι] in
/-- Every divisor is the size of the buffer it belongs to. -/
theorem of_mem_divisors {bufs : ι → CyclicBuffer} {c : PoolCall ι} {k : ι} {d : ℕ}
    (h : (k, d) ∈ divisors bufs c) : d = (bufs k).totalSize := by
  cases c with
  | write i src max => exact of_mem_map_divisors h fun d => CyclicBuffer.of_mem_callDivisors
  | read i dest max => exact of_mem_map_divisors h fun d => CyclicBuffer.of_mem_callDivisors
  | recodeNone i =>
    obtain ⟨rfl, rfl⟩ := Prod.mk.inj (List.mem_singleton.mp h)
    rfl
  | recodeXor i pl mask max => exact of_mem_map_divisors h fun d => CyclicBuffer.of_mem_callDivisors
  | recodeXorBuf i j distinct pl =>
    simp only [divisors] at h
    split_ifs at h
    · exact absurd h List.not_mem_nil
    · exact absurd h List.not_mem_nil
    · refine of_mem_map_divisors h ?_
      intro d hd
      rcases List.mem_append.mp hd with h1 | h2
      · exact CyclicBuffer.of_mem_callDivisors h1
      · rw [CyclicBuffer.of_mem_callDivisors h2, totalSize_recodeXor]
    · rcases List.mem_cons.mp h with he | h'
      · obtain ⟨rfl, rfl⟩ := Prod.mk.inj he
        rfl
      · exact of_mem_map_divisors h' fun d => CyclicBuffer.of_mem_callDivisors

theorem of_mem_runDivisors {cs : List (PoolCall ι)} {k : ι} {d : ℕ} :
    ∀ {bufs : ι → CyclicBuffer}, (k, d) ∈ runDivisors bufs cs → d = (bufs k).totalSize := by
  induction cs with
  | nil =>
    intro bufs h
    exact absurd h List.not_mem_nil
  | cons c cs ih =>
    intro bufs h
    rcases List.mem_append.mp h with h | h
    · exact of_mem_divisors h
    · rw [ih h, totalSize_exec]

end PoolCall

/-- The product wraps to a size within the limit. -/
def WrapsBelowLimit (chunks : ℤ) : Prop := 0x40000 < chunks ∧ chunks % 0x100000 ≤ 0x40000

/-- The size of an initialized buffer is the product modulo `2 ^ 32`. -/
theorem cyclicBufferInit_size {malloc : ℕ → Option Region} {chunks : ℤ} {buf : CyclicBuffer}
    (h : cyclicBufferInit malloc chunks = .ok buf) : 1 ≤ chunks ∧
      (buf.totalSize : ℤ) = 0x1000 * (chunks % 0x100000) ∧ buf.totalSize ≤ cyclicBufferMaxSize ∧
      buf.availableToWrite = buf.totalSize := by
  have hsize : ((u32OfInt (cyclicBufferChunkSize * chunks) : ℕ) : ℤ) =
      0x1000 * (chunks % 0x100000) := by
    unfold u32OfInt cyclicBufferChunkSize
    push_cast
    omega
  simp only [cyclicBufferInit] at h
  split_ifs at h with hneg hmax
  split at h
  · exact absurd h (by simp)
  · simp only [Except.ok.injEq] at h
    subst h
    exact ⟨by omega, hsize, by simp only; omega, rfl⟩

/-- **When the size is exact.**  A successful init leaves the exact product as the size, and with it
no call ever divides by a `total_size` of zero, unless the product wraps below the limit. -/
theorem cyclicBufferInit_exact_iff {ι : Type} [DecidableEq ι] (i : ι) (chunks : ℤ) :
    (∀ malloc buf, cyclicBufferInit malloc chunks = .ok buf → ExactSize chunks buf ∧
      ∀ bufs : ι → CyclicBuffer, bufs i = buf → ∀ cs d, (i, d) ∈ PoolCall.runDivisors bufs cs → d ≠ 0) ↔
      ¬ WrapsBelowLimit chunks := by
  constructor
  · rintro h ⟨hlarge, hmod⟩
    have hok : ∃ buf, cyclicBufferInit (fun _ => some fun _ => 0) chunks = .ok buf := by
      simp only [cyclicBufferInit, if_neg (show ¬ chunks ≤ 0 by omega)]
      rw [if_neg]
      · exact ⟨_, rfl⟩
      · unfold u32OfInt cyclicBufferChunkSize cyclicBufferMaxSize
        push_cast
        omega
    obtain ⟨buf, hbuf⟩ := hok
    have hle := (h _ buf hbuf).1.product_le
    unfold cyclicBufferChunkSize cyclicBufferMaxSize at hle
    push_cast at hle
    omega
  · intro h malloc buf hinit
    obtain ⟨hpos, hsize, hle, hav⟩ := cyclicBufferInit_size hinit
    have hsmall : chunks ≤ 0x40000 := by
      unfold WrapsBelowLimit at h
      unfold cyclicBufferMaxSize at hle
      omega
    have hexact : (buf.totalSize : ℤ) = cyclicBufferChunkSize * chunks := by
      rw [hsize]
      unfold cyclicBufferChunkSize
      push_cast
      omega
    refine ⟨⟨hpos, ?_, hexact, by rw [hav]; exact hexact⟩, ?_⟩
    · unfold cyclicBufferChunkSize cyclicBufferMaxSize
      push_cast
      omega
    · rintro bufs rfl cs d hd
      rw [PoolCall.of_mem_runDivisors hd]
      unfold cyclicBufferChunkSize at hexact
      omega

/-- `2 ^ 20` chunks: the product is `2 ^ 32`, the size becomes `0`, and the first `recode_none`
divides by it. -/
theorem cyclicBufferInit_wraps : ∃ buf,
    cyclicBufferInit (fun _ => some fun _ => 0) 0x100000 = .ok buf ∧ buf.totalSize = 0 ∧
      ¬ ExactSize 0x100000 buf ∧ ((), 0) ∈ PoolCall.runDivisors (fun _ => buf) [.recodeNone ()] := by
  refine ⟨_, rfl, rfl, ?_, by decide⟩
  intro h
  exact absurd h.product_le (by decide)

end Cryptochan
