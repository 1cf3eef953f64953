import Cryptochan.Buffer.Model
import Cryptochan.Lib.Circular
import Cryptochan.Lib.Run
import Mathlib.Data.List.GetD

/-!
# Cryptochan.Buffer.Refine — the buffer is a two-stage bounded byte FIFO

`ByteFifo cap` says what the buffer is for: bytes written and not yet recoded (`unrecoded`), bytes
recoded and readable (`readable`), together at most `cap` of them.  `Represents` ties a
`CyclicBuffer` to it: one window of the array holds `readable ++ unrecoded`, the three counters are
the two lengths and the free space, and the three indices are the ends of the two lists.  Every
function of `cyclic_buffer.c`, executed alone, acts on the lists as the FIFO does.
-/

namespace Cryptochan

open Circular

/-- A two-stage bounded FIFO of bytes. -/
structure ByteFifo (cap : ℕ) where
  unrecoded : List UInt8
  readable : List UInt8
  room : unrecoded.length + readable.length ≤ cap

/-- The bytes of `xs` XORed with the bytes of the mask; without a mask they stay. -/
def maskBytes (xs : List UInt8) : Option Region → List UInt8
  | none => xs
  | some m => List.zipWith (· ^^^ ·) xs (bytes m xs.length)

@[simp] theorem length_maskBytes (xs : List UInt8) (m : Option Region) :
    (maskBytes xs m).length = xs.length := by
  cases m <;> simp [maskBytes]

/-- `d` with its first bytes replaced by `xs`. -/
def storeBytes (d : Region) (xs : List UInt8) : Region := fun i => xs.getD i (d i)

theorem storeBytes_of_lt {d : Region} {xs : List UInt8} {i : ℕ} (h : i < xs.length) :
    storeBytes d xs i = xs[i] := List.getD_eq_getElem _ _ h

theorem storeBytes_of_le {d : Region} {xs : List UInt8} {i : ℕ} (h : xs.length ≤ i) :
    storeBytes d xs i = d i := List.getD_eq_default _ _ h

@[simp] theorem storeBytes_nil (d : Region) : storeBytes d [] = d := rfl

namespace ByteFifo

variable {cap : ℕ} (f : ByteFifo cap)

def empty (cap : ℕ) : ByteFifo cap := ⟨[], [], Nat.zero_le _⟩

/-- The free space. -/
def free : ℕ := cap - f.unrecoded.length - f.readable.length

def write (src : Region) (max : ℕ) : ByteFifo cap × ℕ :=
  let n := min max f.free
  (⟨f.unrecoded ++ bytes src n, f.readable, by
    have := f.room
    simp only [List.length_append, length_bytes, n, free]
    omega⟩, n)

def recodeXor (mask : Option Region) (max : ℕ) : ByteFifo cap × ℕ :=
  let n := min max f.unrecoded.length
  (⟨f.unrecoded.drop n, f.readable ++ maskBytes (f.unrecoded.take n) mask, by
    have := f.room
    simp only [List.length_append, List.length_drop, length_maskBytes, List.length_take, n]
    omega⟩, n)

def recodeNone : ByteFifo cap × ℕ :=
  (⟨[], f.readable ++ f.unrecoded, by
    have := f.room
    simp only [List.length_nil, List.length_append]
    omega⟩, f.unrecoded.length)

def read (dest : Option Region) (max : ℕ) : ByteFifo cap × Option Region × ℕ :=
  let n := min max f.readable.length
  (⟨f.unrecoded, f.readable.drop n, by
    have := f.room
    simp only [List.length_drop]
    omega⟩, dest.map (storeBytes · (f.readable.take n)), n)

end ByteFifo

/-! ### Commands -/

/-- One call, with all its arguments. -/
inductive Command
  | write (src : Region) (max : ℕ)
  | recodeXor (pl : Placement) (mask : Option Region) (max : ℕ)
  | recodeNone
  | read (dest : Option Region) (max : ℕ)

/-- What the caller sees: the returned size and, for a read, the bytes at `dest`. -/
structure Answer where
  size : ℕ
  dest : Option Region

def CyclicBuffer.exec (buf : CyclicBuffer) : Command → CyclicBuffer × Answer
  | .write src max =>
    let r := cyclicBufferWrite buf (some src) max
    (r.1, ⟨r.2, none⟩)
  | .recodeXor pl mask max =>
    let r := cyclicBufferRecodeXor pl buf mask max
    (r.1, ⟨r.2, none⟩)
  | .recodeNone =>
    let r := cyclicBufferRecodeNone buf
    (r.1, ⟨r.2, none⟩)
  | .read dest max =>
    let r := cyclicBufferRead buf dest max
    (r.1, ⟨r.2.2, r.2.1⟩)

def ByteFifo.exec {cap : ℕ} (f : ByteFifo cap) : Command → ByteFifo cap × Answer
  | .write src max =>
    let r := f.write src max
    (r.1, ⟨r.2, none⟩)
  | .recodeXor _ mask max =>
    let r := f.recodeXor mask max
    (r.1, ⟨r.2, none⟩)
  | .recodeNone =>
    let r := f.recodeNone
    (r.1, ⟨r.2, none⟩)
  | .read dest max =>
    let r := f.read dest max
    (r.1, ⟨r.2.2, r.2.1⟩)

/-! ### What the two runs of a call do to the bytes -/

/-- Combine the bytes of one run with those of the other side. -/
def moveRun (g : UInt8 → UInt8 → UInt8) (dst : Region) (d : ℕ) (src : Region) (s n : ℕ) : Region :=
  fun i => if d ≤ i ∧ i < d + n then g (dst i) (src (s + (i - d))) else dst i

theorem xorInto_eq_moveRun (pl : Placement) (dst : Region) (d : ℕ) (src : Region) (s n : ℕ) :
    xorInto pl dst d src s n = moveRun (· ^^^ ·) dst d src s n := xorInto_eq pl dst d src s n

namespace CyclicBuffer

variable {buf : CyclicBuffer} {st : Stage} {size : ℕ}

/-- The two runs of a call on the cells of the buffer. -/
def moveRuns (g : UInt8 → UInt8 → UInt8) (buf : CyclicBuffer) (st : Stage) (src : Region)
    (size : ℕ) : Region :=
  moveRun g (moveRun g buf.dataPtr (buf.idx st) src 0 (buf.split st size).first) 0 src
    (buf.split st size).first (buf.split st size).second

section Runs

variable (h : buf.Sized) (hi : buf.idx st < buf.totalSize) (hs : size ≤ buf.totalSize)
include h hi hs

/-- Byte `k` of the call meets the cell `k` behind the index. -/
theorem moveRuns_cell (g : UInt8 → UInt8 → UInt8) (src : Region) {k : ℕ} (hk : k < size) :
    moveRuns g buf st src size ((buf.idx st + k) % buf.totalSize) =
      g (buf.dataPtr ((buf.idx st + k) % buf.totalSize)) (src k) := by
  have hm := add_mod_of_le hi (show k ≤ buf.totalSize by omega)
  unfold moveRuns
  rw [split_eq h hi hs, hm]
  by_cases hlt : buf.totalSize < buf.idx st + size
  · rw [if_pos hlt]
    simp only [moveRun]
    by_cases hw : buf.idx st + k < buf.totalSize
    · rw [if_pos hw, if_neg (by omega), if_pos (by omega)]
      congr 2; omega
    · rw [if_neg hw, if_pos (by omega), if_neg (by omega)]
      congr 2; omega
  · rw [if_neg hlt]
    simp only [moveRun]
    by_cases hw : buf.idx st + k < buf.totalSize
    · rw [if_pos hw, if_neg (by omega), if_pos (by omega)]
      congr 2; omega
    · omega

/-- The other cells stay. -/
theorem moveRuns_other (g : UInt8 → UInt8 → UInt8) (src : Region) {c : ℕ}
    (hc : ∀ k < size, (buf.idx st + k) % buf.totalSize ≠ c) :
    moveRuns g buf st src size c = buf.dataPtr c := by
  unfold moveRuns
  rw [split_eq h hi hs]
  have key : ∀ k < size, (if buf.idx st + k < buf.totalSize then buf.idx st + k
      else buf.idx st + k - buf.totalSize) ≠ c := by
    intro k hk
    rw [← add_mod_of_le hi (show k ≤ buf.totalSize by omega)]
    exact hc k hk
  by_cases hlt : buf.totalSize < buf.idx st + size
  · rw [if_pos hlt]
    simp only [moveRun]
    rw [if_neg, if_neg]
    · rintro ⟨h1, h2⟩
      have := key (c - buf.idx st) (by omega)
      rw [if_pos (by omega)] at this
      omega
    · rintro ⟨-, h2⟩
      have := key (buf.totalSize - buf.idx st + c) (by omega)
      rw [if_neg (by omega)] at this
      omega
  · rw [if_neg hlt]
    simp only [moveRun]
    rw [if_neg (by omega), if_neg]
    rintro ⟨h1, h2⟩
    have := key (c - buf.idx st) (by omega)
    rw [if_pos (by omega)] at this
    omega

/-- A read copies the window behind the index. -/
theorem read_runs (d : Region) :
    memcpy (memcpy d 0 buf.dataPtr (buf.idx st) (buf.split st size).first)
      (buf.split st size).first buf.dataPtr 0 (buf.split st size).second =
      fun i => if i < size then buf.dataPtr ((buf.idx st + i) % buf.totalSize) else d i := by
  funext i
  rw [split_eq h hi hs]
  by_cases hsz : i < size
  · have hm := add_mod_of_le hi (show i ≤ buf.totalSize by omega)
    rw [if_pos hsz, hm]
    by_cases hlt : buf.totalSize < buf.idx st + size
    · rw [if_pos hlt]
      simp only [memcpy]
      by_cases hw : buf.idx st + i < buf.totalSize
      · rw [if_pos hw, if_neg (by omega), if_pos (by omega)]
        congr 1
      · rw [if_neg hw, if_pos (by omega)]
        congr 1; omega
    · rw [if_neg hlt]
      simp only [memcpy]
      rw [if_neg (by omega), if_pos (by omega), if_pos (by omega)]
      congr 1
  · rw [if_neg hsz]
    by_cases hlt : buf.totalSize < buf.idx st + size
    · rw [if_pos hlt]
      simp only [memcpy]
      rw [if_neg (by omega), if_neg (by omega)]
    · rw [if_neg hlt]
      simp only [memcpy]
      rw [if_neg (by omega), if_neg (by omega)]

end Runs

/-- The `// advance` lines when no counter leaves its range. -/
theorem advance_eq (b : CyclicBuffer) (n : ℕ) (hadd : b.available st.next + size < 2 ^ 32)
    (hsub : size ≤ b.available st) (hlt : b.available st < 2 ^ 32) :
    (b.advance st size n).available = Function.update (Function.update b.available st.next
      (b.available st.next + size)) st (b.available st - size) ∧
    (b.advance st size n).idx = Function.update b.idx st n ∧
    (b.advance st size n).dataPtr = b.dataPtr ∧
    (b.advance st size n).totalSize = b.totalSize := by
  refine ⟨?_, by simp [advance], by simp [advance], by simp [advance]⟩
  simp only [advance, available_fetchSub, available_fetchAdd, available_setIdx]
  rw [Function.update_of_ne st.next_ne.symm, u32Add_eq hadd, u32Sub_eq hlt hsub]

end CyclicBuffer

/-- A call that is not turned away: move the runs, then `advance`. -/
theorem cyclicBufferWrite_eq {buf : CyclicBuffer} (h0 : buf.available .write ≠ 0) (src : Region)
    (max : ℕ) : cyclicBufferWrite buf (some src) max =
      ((buf.setData (buf.moveRuns (fun _ b => b) .write src (min (buf.available .write) max))).advance
        .write (min (buf.available .write) max)
        (buf.split .write (min (buf.available .write) max)).next,
      min (buf.available .write) max) := by
  rw [cyclicBufferWrite, if_neg (show buf.availableToWrite ≠ 0 from h0)]
  rfl

theorem cyclicBufferRecodeXor_eq {buf : CyclicBuffer} (h0 : buf.available .recode ≠ 0)
    (pl : Placement) (mask : Option Region) (max : ℕ) : cyclicBufferRecodeXor pl buf mask max =
      ((buf.setData (mask.elim buf.dataPtr fun m =>
          buf.moveRuns (· ^^^ ·) .recode m (min (buf.available .recode) max))).advance
        .recode (min (buf.available .recode) max)
        (buf.split .recode (min (buf.available .recode) max)).next,
      min (buf.available .recode) max) := by
  rw [cyclicBufferRecodeXor, if_neg (show buf.availableToRecode ≠ 0 from h0)]
  cases mask with
  | none => rfl
  | some m =>
    simp only [xorInto_eq_moveRun]
    rfl

/-! ### The representation -/

/-- The buffer holds the lists `U` (unrecoded) and `R` (readable). -/
structure Represents (cap : ℕ) (buf : CyclicBuffer) (U R : List UInt8) : Prop where
  sized : buf.Sized
  total : buf.totalSize = cap
  room : U.length + R.length ≤ cap
  cells : Holds buf.dataPtr cap (buf.idx .read) (R ++ U)
  available_read : buf.available .read = R.length
  available_recode : buf.available .recode = U.length
  available_write : buf.available .write = cap - U.length - R.length
  read_lt : buf.idx .read < cap
  recode_idx : buf.idx .recode = (buf.idx .read + R.length) % cap
  write_idx : buf.idx .write = (buf.idx .read + R.length + U.length) % cap

namespace Represents

variable {cap : ℕ} {buf : CyclicBuffer} {U R : List UInt8}

theorem idx_lt (h : Represents cap buf U R) (st : Stage) : buf.idx st < buf.totalSize := by
  have hlt := h.read_lt
  rw [h.total]
  cases st with
  | write => rw [h.write_idx]; exact Nat.mod_lt _ (by omega)
  | recode => rw [h.recode_idx]; exact Nat.mod_lt _ (by omega)
  | read => exact hlt

theorem available_le (h : Represents cap buf U R) (st : Stage) :
    buf.available st ≤ buf.totalSize := by
  have hroom := h.room
  rw [h.total]
  cases st with
  | write => rw [h.available_write]; omega
  | recode => rw [h.available_recode]; omega
  | read => rw [h.available_read]; omega

theorem sum_available (h : Represents cap buf U R) :
    buf.availableToRead + buf.availableToRecode + buf.availableToWrite = buf.totalSize := by
  have h1 : buf.availableToRead = _ := h.available_read
  have h2 : buf.availableToRecode = _ := h.available_recode
  have h3 : buf.availableToWrite = _ := h.available_write
  have := h.room
  rw [h1, h2, h3, h.total]
  omega

/-- Successive indices differ by the counter between them. -/
theorem idx_prev (h : Represents cap buf U R) (t : Stage) :
    buf.idx t.prev = (buf.idx t + buf.available t) % buf.totalSize := by
  have hroom := h.room
  rw [h.total]
  cases t with
  | read => rw [h.available_read]; exact h.recode_idx
  | recode =>
    rw [h.available_recode, h.recode_idx, Nat.mod_add_mod]
    exact h.write_idx
  | write =>
    have hlt := h.read_lt
    rw [h.available_write, h.write_idx, Nat.mod_add_mod]
    have e : buf.idx .read + R.length + U.length + (cap - U.length - R.length) =
        buf.idx .read + cap := by omega
    rw [e, Nat.add_mod_right, Nat.mod_eq_of_lt hlt]
    rfl

/-- `advance` on a represented buffer whose cells may have been moved. -/
theorem advance (h : Represents cap buf U R) {st : Stage} {size : ℕ} (data : Region)
    (hs : size ≤ buf.available st) :
    let b := (buf.setData data).advance st size (buf.split st size).next
    b.available = Function.update (Function.update buf.available st.next
      (buf.available st.next + size)) st (buf.available st - size) ∧
    b.idx = Function.update buf.idx st ((buf.idx st + size) % cap) ∧
    b.dataPtr = data ∧ b.totalSize = cap := by
  have h32 := h.sized.lt_uint32
  have h1 := h.available_le st
  have h2 := h.available_le st.next
  have ht := h.total
  have hn : (buf.split st size).next = (buf.idx st + size) % cap := by
    rw [CyclicBuffer.split_next h.sized (h.idx_lt st) (by omega), ht]
  rw [hn, ← ht]
  exact CyclicBuffer.advance_eq (buf.setData data) _
    (by rw [CyclicBuffer.available_setData]; omega) hs
    (by rw [CyclicBuffer.available_setData]; omega)

/-- `advance` keeps the representation, for lists of the new lengths that the new cells hold. -/
theorem of_advance (h : Represents cap buf U R) {st : Stage} {size : ℕ} {U' R' : List UInt8}
    (data : Region) (hs : size ≤ buf.available st)
    (hU : U'.length + (if st = .recode then size else 0) =
      U.length + (if st = .write then size else 0))
    (hR : R'.length + (if st = .read then size else 0) =
      R.length + (if st = .recode then size else 0))
    (hcells : Holds data cap (buf.idx .read + (if st = .read then size else 0)) (R' ++ U')) :
    Represents cap ((buf.setData data).advance st size (buf.split st size).next) U' R' := by
  have hroom := h.room
  obtain ⟨ha, hi, hd, ht⟩ := h.advance data hs
  generalize (buf.setData data).advance st size (buf.split st size).next = b at ha hi hd ht ⊢
  have h1 := h.available_write
  have h2 := h.available_recode
  have h3 := h.available_read
  have hsized : b.Sized := ⟨ht ▸ h.total ▸ h.sized.pos, ht ▸ h.total ▸ h.sized.le⟩
  cases st with
  | write =>
    simp only [reduceCtorEq, if_true, if_false, Nat.add_zero, Stage.next] at hU hR hcells ha
    refine ⟨hsized, ht, by omega, ?_, ?_, ?_, ?_, ?_, ?_, ?_⟩
    · rw [hd, hi]
      simpa using hcells
    · rw [ha]; simp; omega
    · rw [ha]; simp; omega
    · rw [ha]; simp; omega
    · rw [hi]; simpa using h.read_lt
    · rw [hi]; simp [h.recode_idx, hR]
    · rw [hi]; simp [h.write_idx, hR, hU, Nat.add_assoc]
  | recode =>
    simp only [reduceCtorEq, if_true, if_false, Nat.add_zero, Stage.next] at hU hR hcells ha
    refine ⟨hsized, ht, by omega, ?_, ?_, ?_, ?_, ?_, ?_, ?_⟩
    · rw [hd, hi]
      simpa using hcells
    · rw [ha]; simp; omega
    · rw [ha]; simp; omega
    · rw [ha]; simp; omega
    · rw [hi]; simpa using h.read_lt
    · rw [hi]; simp [h.recode_idx, hR, Nat.add_assoc]
    · rw [hi]; simp [h.write_idx, Nat.add_assoc]; congr 1; omega
  | read =>
    simp only [reduceCtorEq, if_true, if_false, Nat.add_zero, Stage.next] at hU hR hcells ha
    refine ⟨hsized, ht, by omega, ?_, ?_, ?_, ?_, ?_, ?_, ?_⟩
    · rw [hd, hi]
      simpa [holds_mod] using hcells
    · rw [ha]; simp; omega
    · rw [ha]; simp; omega
    · rw [ha]; simp; omega
    · rw [hi]; simpa using Nat.mod_lt _ (lt_of_le_of_lt (Nat.zero_le _) h.read_lt)
    · rw [hi, Function.update_of_ne (by simp), Function.update_self, h.recode_idx, Nat.mod_add_mod]
      congr 1; omega
    · rw [hi, Function.update_of_ne (by simp), Function.update_self, h.write_idx, Nat.add_assoc,
        Nat.add_assoc, Nat.mod_add_mod]
      congr 1; omega

/-- The cell `k` behind the index of a stage, counted from the first readable byte. -/
theorem cell_eq (h : Represents cap buf U R) (k : ℕ) :
    (buf.idx .write + k) % cap = (buf.idx .read + (R ++ U).length + k) % cap ∧
    (buf.idx .recode + k) % cap = (buf.idx .read + R.length + k) % cap := by
  rw [h.write_idx, h.recode_idx, Nat.mod_add_mod, Nat.mod_add_mod, List.length_append, Nat.add_assoc,
    Nat.add_assoc, Nat.add_assoc, Nat.add_assoc, Nat.add_assoc]
  exact ⟨rfl, rfl⟩

theorem write (h : Represents cap buf U R) (src : Region) (max : ℕ) :
    (cyclicBufferWrite buf (some src) max).2 = min max (cap - U.length - R.length) ∧
    Represents cap (cyclicBufferWrite buf (some src) max).1
      (U ++ bytes src (min max (cap - U.length - R.length))) R := by
  have hav := h.available_write
  have hroom := h.room
  rw [min_comm, ← hav]
  by_cases h0 : buf.available .write = 0
  · have h0' : buf.availableToWrite = 0 := h0
    rw [cyclicBufferWrite, if_pos h0', h0, Nat.zero_min, bytes_zero, List.append_nil]
    exact ⟨rfl, h⟩
  rw [cyclicBufferWrite_eq h0]
  refine ⟨rfl, ?_⟩
  set n := min (buf.available .write) max with hn
  have hnle : n ≤ buf.available .write := Nat.min_le_left _ _
  have hnt : n ≤ buf.totalSize := hnle.trans (h.available_le _)
  have hcell : ∀ k < n, buf.moveRuns (fun _ b => b) .write src n ((buf.idx .write + k) % cap) =
      src k := by
    intro k hk
    rw [← h.total]
    exact CyclicBuffer.moveRuns_cell h.sized (h.idx_lt _) hnt _ src hk
  have hother : ∀ i < (R ++ U).length, buf.moveRuns (fun _ b => b) .write src n
      ((buf.idx .read + i) % cap) = buf.dataPtr ((buf.idx .read + i) % cap) := by
    intro i hlt
    refine CyclicBuffer.moveRuns_other h.sized (h.idx_lt _) hnt _ src ?_
    intro k hk
    rw [h.total, (h.cell_eq k).1]
    rw [List.length_append] at hlt ⊢
    exact slot_ne (by omega) (by omega) (by omega)
  refine h.of_advance _ hnle (by simp) (by simp) ?_
  simp only [reduceCtorEq, if_false, Nat.add_zero]
  rw [← List.append_assoc, holds_append]
  refine ⟨h.cells.congr hother, ?_⟩
  intro k hk
  rw [length_bytes] at hk
  rw [← (h.cell_eq k).1, hcell k hk, getElem_bytes]

/-- The first `n` unrecoded bytes, XORed in their cells. -/
theorem holds_xor (h : Represents cap buf U R) (m : Region) {n : ℕ} (hn : n ≤ U.length) :
    Holds (buf.moveRuns (· ^^^ ·) .recode m n) cap (buf.idx .read)
      (R ++ List.zipWith (· ^^^ ·) (U.take n) (bytes m n) ++ U.drop n) := by
  have hroom := h.room
  have ht := h.total
  have hnt : n ≤ buf.totalSize := by omega
  obtain ⟨hR, hU⟩ := holds_append.mp h.cells
  have hother : ∀ j, j < cap → (j < R.length ∨ R.length + n ≤ j) →
      buf.moveRuns (· ^^^ ·) .recode m n ((buf.idx .read + j) % cap) =
        buf.dataPtr ((buf.idx .read + j) % cap) := by
    intro j hj hout
    refine CyclicBuffer.moveRuns_other h.sized (h.idx_lt _) hnt _ m ?_
    intro k hk
    rw [ht, (h.cell_eq k).2]
    exact slot_ne (by omega) (by omega) (by omega)
  have hlen : (List.zipWith (· ^^^ ·) (U.take n) (bytes m n)).length = n := by simp; omega
  rw [List.append_assoc, holds_append, holds_append, hlen]
  refine ⟨hR.congr fun i hi => hother i (by omega) (Or.inl hi), ?_, ?_⟩
  · intro k hk
    rw [hlen] at hk
    have hcell := CyclicBuffer.moveRuns_cell h.sized (h.idx_lt .recode) hnt (· ^^^ ·) m hk
    rw [ht, (h.cell_eq k).2] at hcell
    rw [hcell, hU k (by omega), List.getElem_zipWith, List.getElem_take, getElem_bytes]
  · intro i hi
    rw [List.length_drop] at hi
    have := hother (R.length + n + i) (by omega) (by omega)
    rw [← Nat.add_assoc, ← Nat.add_assoc] at this
    rw [this, List.getElem_drop, ← hU (n + i) (by omega), Nat.add_assoc _ n i]

theorem recodeXor (h : Represents cap buf U R) (pl : Placement) (mask : Option Region) (max : ℕ) :
    (cyclicBufferRecodeXor pl buf mask max).2 = min max U.length ∧
    Represents cap (cyclicBufferRecodeXor pl buf mask max).1 (U.drop (min max U.length))
      (R ++ maskBytes (U.take (min max U.length)) mask) := by
  have hav := h.available_recode
  rw [min_comm, ← hav]
  by_cases h0 : buf.available .recode = 0
  · have h0' : buf.availableToRecode = 0 := h0
    rw [cyclicBufferRecodeXor, if_pos h0', h0, Nat.zero_min, List.drop_zero]
    refine ⟨rfl, ?_⟩
    cases mask <;> simpa [maskBytes] using h
  rw [cyclicBufferRecodeXor_eq h0]
  refine ⟨rfl, ?_⟩
  set n := min (buf.available .recode) max with hn
  have hnle : n ≤ buf.available .recode := Nat.min_le_left _ _
  have hnU : n ≤ U.length := by omega
  refine h.of_advance _ hnle (by simp; omega) (by simp; omega) ?_
  simp only [reduceCtorEq, if_false, Nat.add_zero]
  cases mask with
  | none =>
    simp only [maskBytes, Option.elim_none]
    rw [List.append_assoc, List.take_append_drop]
    exact h.cells
  | some m =>
    have := h.holds_xor m hnU
    simpa only [maskBytes, Option.elim_some, List.length_take, Nat.min_eq_left hnU] using this

theorem recodeNone (h : Represents cap buf U R) :
    (cyclicBufferRecodeNone buf).2 = U.length ∧
    Represents cap (cyclicBufferRecodeNone buf).1 [] (R ++ U) := by
  have hr := h.available_read
  have hc := h.available_recode
  have hw := h.available_write
  have hroom := h.room
  have ht := h.total
  have h32 := h.sized.lt_uint32
  have hi := h.idx_lt .recode
  have hidx : u32Add buf.recodeIdx buf.availableToRecode % buf.totalSize =
      (buf.idx .read + (R ++ U).length) % cap := by
    change u32Add (buf.idx .recode) (buf.available .recode) % buf.totalSize = _
    rw [u32Add_eq (by omega), h.recode_idx, ht, Nat.mod_add_mod, List.length_append, hc,
      Nat.add_assoc]
  have hadd : u32Add (buf.available .read) buf.availableToRecode = (R ++ U).length := by
    change u32Add (buf.available .read) (buf.available .recode) = _
    rw [u32Add_eq (by omega), List.length_append, hr, hc]
  refine ⟨hc, ⟨?_, ?_⟩, ?_, ?_, ?_, ?_, ?_, ?_, ?_, ?_, ?_⟩
  · simpa [cyclicBufferRecodeNone] using h.sized.pos
  · simpa [cyclicBufferRecodeNone] using h.sized.le
  · simpa [cyclicBufferRecodeNone] using ht
  · simp; omega
  · simpa [cyclicBufferRecodeNone] using h.cells
  · simp [cyclicBufferRecodeNone, hadd]
  · simp [cyclicBufferRecodeNone]
  · simp [cyclicBufferRecodeNone, hw]; omega
  · simpa [cyclicBufferRecodeNone] using h.read_lt
  · simp [cyclicBufferRecodeNone, hidx]
  · simp [cyclicBufferRecodeNone, h.write_idx, Nat.add_assoc]

theorem read (h : Represents cap buf U R) (dest : Option Region) (max : ℕ) :
    (cyclicBufferRead buf dest max).2 =
      (dest.map (storeBytes · (R.take (min max R.length))), min max R.length) ∧
    Represents cap (cyclicBufferRead buf dest max).1 U (R.drop (min max R.length)) := by
  have hav := h.available_read
  have hroom := h.room
  have ht := h.total
  rw [min_comm, ← hav]
  by_cases h0 : buf.available .read = 0
  · have h0' : buf.availableToRead = 0 := h0
    rw [cyclicBufferRead, if_pos h0', h0, Nat.zero_min, List.drop_zero]
    refine ⟨?_, h⟩
    cases dest <;> simp
  · rw [cyclicBufferRead, if_neg (show buf.availableToRead ≠ 0 from h0)]
    change (dest.map (fun d => memcpy (memcpy d 0 buf.dataPtr (buf.idx .read)
        (buf.split .read (min (buf.available .read) max)).first)
        (buf.split .read (min (buf.available .read) max)).first buf.dataPtr 0
        (buf.split .read (min (buf.available .read) max)).second), min (buf.available .read) max) = _ ∧
      Represents cap (buf.advance .read (min (buf.available .read) max)
        (buf.split .read (min (buf.available .read) max)).next) U _
    set n := min (buf.available .read) max with hn
    have hnle : n ≤ buf.available .read := Nat.min_le_left _ _
    have hnR : n ≤ R.length := by omega
    obtain ⟨hR, hU⟩ := holds_append.mp h.cells
    refine ⟨?_, ?_⟩
    · refine Prod.ext ?_ rfl
      cases dest with
      | none => rfl
      | some d =>
        refine congrArg some ((CyclicBuffer.read_runs h.sized (h.idx_lt .read) (by omega) d).trans ?_)
        funext i
        show _ = storeBytes d (R.take n) i
        split_ifs with hi
        · rw [storeBytes_of_lt (by simp; omega), List.getElem_take, ← hR i (by omega), ht]
        · rw [storeBytes_of_le (by simp; omega)]
    · refine h.of_advance buf.dataPtr hnle (by simp) (by simp; omega) ?_
      have := h.cells.drop (n := n) (by simp; omega)
      rwa [List.drop_append_of_le_length hnR] at this

end Represents

/-! ### The refinement -/

/-- The FIFO's lists, held by the buffer. -/
def CyclicBuffer.Refines {cap : ℕ} (buf : CyclicBuffer) (f : ByteFifo cap) : Prop :=
  Represents cap buf f.unrecoded f.readable

theorem refines_init {malloc : ℕ → Option Region} {chunks : ℤ} {buf : CyclicBuffer}
    (h1 : 1 ≤ chunks) (h2 : chunks ≤ 0x40000) (h : cyclicBufferInit malloc chunks = .ok buf) :
    buf.Refines (ByteFifo.empty buf.totalSize) := by
  obtain ⟨hs, -, hi, hr, hc, hw⟩ := cyclicBufferInit_ok h1 h2 h
  refine ⟨hs, rfl, Nat.zero_le _, ?_, hr, hc, hw, ?_, ?_, ?_⟩
  · simp [ByteFifo.empty]
  · rw [hi]; exact hs.pos
  · rw [hi, hi]; simp [ByteFifo.empty]
  · rw [hi, hi]; simp [ByteFifo.empty]

/-- One call answers as the FIFO does and keeps the representation. -/
theorem refines_exec {cap : ℕ} (buf : CyclicBuffer) (f : ByteFifo cap) (c : Command)
    (h : buf.Refines f) : (buf.exec c).2 = (f.exec c).2 ∧ (buf.exec c).1.Refines (f.exec c).1 := by
  cases c with
  | write src max =>
    obtain ⟨h1, h2⟩ := Represents.write h src max
    exact ⟨congrArg (Answer.mk · none) h1, h2⟩
  | recodeXor pl mask max =>
    obtain ⟨h1, h2⟩ := Represents.recodeXor h pl mask max
    exact ⟨congrArg (Answer.mk · none) h1, h2⟩
  | recodeNone =>
    obtain ⟨h1, h2⟩ := Represents.recodeNone h
    exact ⟨congrArg (Answer.mk · none) h1, h2⟩
  | read dest max =>
    obtain ⟨h1, h2⟩ := Represents.read h dest max
    exact ⟨congrArg (fun r : Option Region × ℕ => Answer.mk r.2 r.1) h1, h2⟩

/-- **The buffer refines the FIFO**: from a successful init, every sequence of calls gives the
answers of the FIFO of the buffer's size, and once all bytes are drained a write is again offered
the whole size. -/
theorem cyclicBuffer_refines_fifo (malloc : ℕ → Option Region) (chunks : ℤ) (buf : CyclicBuffer)
    (h1 : 1 ≤ chunks) (h2 : chunks ≤ 0x40000) (h : cyclicBufferInit malloc chunks = .ok buf)
    (cs : List Command) :
    (buf.totalSize : ℤ) = 0x1000 * chunks ∧
    (Run.answers CyclicBuffer.exec buf cs).2 =
      (Run.answers ByteFifo.exec (ByteFifo.empty buf.totalSize) cs).2 ∧
    ((Run.answers ByteFifo.exec (ByteFifo.empty buf.totalSize) cs).1.unrecoded = [] →
      (Run.answers ByteFifo.exec (ByteFifo.empty buf.totalSize) cs).1.readable = [] →
      ∀ src max, (cyclicBufferWrite (Run.answers CyclicBuffer.exec buf cs).1 (some src) max).2 =
        min max buf.totalSize) := by
  obtain ⟨hans, href⟩ := Run.answers_eq_of_rel (fun b f => b.Refines f) refines_exec cs buf
    (ByteFifo.empty buf.totalSize) (refines_init h1 h2 h)
  refine ⟨(cyclicBufferInit_ok h1 h2 h).2.1, hans, ?_⟩
  intro hU hR src max
  have hw := (Represents.write href src max).1
  rw [hU, hR] at hw
  exact hw

/-- The buffer of one chunk whose bytes are all zero. -/
def oneChunk : CyclicBuffer where
  dataPtr := fun _ => 0
  totalSize := 0x1000
  readIdx := 0
  writeIdx := 0
  recodeIdx := 0
  availableToRead := 0
  availableToWrite := 0x1000
  availableToRecode := 0

theorem oneChunk_init : cyclicBufferInit (fun _ => some fun _ => 0) 1 = .ok oneChunk := rfl

theorem cyclicBuffer_refines_fifo_oneChunk :
    (Run.answers CyclicBuffer.exec oneChunk
      [.write (fun k => k.toUInt8) 5, .recodeNone, .read (some fun _ => 0) 3]).2 =
    (Run.answers ByteFifo.exec (ByteFifo.empty 0x1000)
      [.write (fun k => k.toUInt8) 5, .recodeNone, .read (some fun _ => 0) 3]).2 :=
  (cyclicBuffer_refines_fifo (fun _ => some fun _ => 0) 1 oneChunk (by decide) (by decide)
    oneChunk_init _).2.1

end Cryptochan
