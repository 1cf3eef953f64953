import Cryptochan.Buffer.Refine

/-!
# Cryptochan.Buffer.ReadRecode — `recode_xor_buf` without the copy

`cyclic_buffer_recode_xor_buf(buf, mask_buf)` XORs the cells of `mask_buf` directly into `buf`, in
up to three segments.  It has the effect of a read into a scratch array followed by a `recode_xor`
with that array.  The cells are compared through `moveRuns`: two calls one behind the other move the
bytes of one call (`moveRuns_moveRuns`).
-/

namespace Cryptochan

namespace CyclicBuffer

/-- A buffer is its cells, its size, its indices and its counters. -/
theorem ext_stages {a b : CyclicBuffer} (hd : a.dataPtr = b.dataPtr)
    (ht : a.totalSize = b.totalSize) (hi : ∀ t, a.idx t = b.idx t)
    (hv : ∀ t, a.available t = b.available t) : a = b := by
  cases a
  cases b
  simp only at hd ht
  have h1 := hi .read
  have h2 := hi .write
  have h3 := hi .recode
  have h4 := hv .read
  have h5 := hv .write
  have h6 := hv .recode
  simp only [idx, available] at h1 h2 h3 h4 h5 h6
  subst hd ht h1 h2 h3 h4 h5 h6
  rfl

section Runs

variable {buf : CyclicBuffer} {st : Stage} {n : ℕ} (h : buf.Sized)
  (hi : buf.idx st < buf.totalSize) {g : UInt8 → UInt8 → UInt8}
include h hi

theorem moveRuns_congr (hs : n ≤ buf.totalSize) {src src' : Region} (he : ∀ k < n, src k = src' k) :
    buf.moveRuns g st src n = buf.moveRuns g st src' n := by
  funext c
  by_cases hc : ∃ k < n, (buf.idx st + k) % buf.totalSize = c
  · obtain ⟨k, hk, rfl⟩ := hc
    rw [moveRuns_cell h hi hs g src hk, moveRuns_cell h hi hs g src' hk, he k hk]
  · push Not at hc
    rw [moveRuns_other h hi hs g src hc, moveRuns_other h hi hs g src' hc]

theorem moveRuns_zero (src : Region) : buf.moveRuns g st src 0 = buf.dataPtr := by
  funext c
  exact moveRuns_other h hi (Nat.zero_le _) g src fun k hk => absurd hk (Nat.not_lt_zero k)

/-- A second call goes on where the first one stopped. -/
theorem moveRuns_moveRuns {buf' : CyclicBuffer} {n' : ℕ} (hs : n + n' ≤ buf.totalSize)
    {src src' : Region} (hd : buf'.dataPtr = buf.moveRuns g st src n)
    (ht : buf'.totalSize = buf.totalSize)
    (hi' : buf'.idx st = (buf.idx st + n) % buf.totalSize) (he : ∀ k < n', src' k = src (n + k)) :
    buf'.moveRuns g st src' n' = buf.moveRuns g st src (n + n') := by
  have hsized : buf'.Sized := ⟨ht ▸ h.pos, ht ▸ h.le⟩
  have hlt : buf'.idx st < buf'.totalSize := by
    rw [hi', ht]
    exact Nat.mod_lt _ h.pos
  have hcell : ∀ k,
      (buf'.idx st + k) % buf'.totalSize = (buf.idx st + (n + k)) % buf.totalSize := by
    intro k
    rw [hi', ht, Nat.mod_add_mod, Nat.add_assoc]
  funext c
  by_cases hc2 : ∃ k < n', (buf.idx st + (n + k)) % buf.totalSize = c
  · obtain ⟨k, hk, rfl⟩ := hc2
    rw [moveRuns_cell h hi hs g src (show n + k < n + n' by omega), ← hcell k,
      moveRuns_cell hsized hlt (by omega) g src' hk, he k hk, hd, hcell k]
    rw [moveRuns_other h hi (by omega) g src]
    intro j hj
    exact Circular.slot_ne (by omega) (by omega) (by omega)
  · push Not at hc2
    rw [moveRuns_other hsized hlt (by omega) g src' fun k hk => by rw [hcell]; exact hc2 k hk, hd]
    by_cases hc1 : ∃ k < n, (buf.idx st + k) % buf.totalSize = c
    · obtain ⟨k, hk, rfl⟩ := hc1
      rw [moveRuns_cell h hi (by omega) g src hk,
        moveRuns_cell h hi hs g src (show k < n + n' by omega)]
    · push Not at hc1
      rw [moveRuns_other h hi (by omega) g src hc1, moveRuns_other h hi hs g src]
      intro k hk
      by_cases hkn : k < n
      · exact hc1 k hkn
      · have := hc2 (k - n) (by omega)
        rwa [Nat.add_sub_cancel' (by omega)] at this

end Runs

end CyclicBuffer

/-! ### Recoding in two calls -/

namespace Represents

variable {cap : ℕ} {buf buf' : CyclicBuffer} {U R U' R' : List UInt8}

/-- Lists of the same lengths at the same place, and the same cells: the same buffer. -/
theorem eq_of_cells (h : Represents cap buf U R) (h' : Represents cap buf' U' R')
    (hU : U.length = U'.length) (hR : R.length = R'.length) (hr : buf.readIdx = buf'.readIdx)
    (hd : buf.dataPtr = buf'.dataPtr) : buf = buf' := by
  have hread : buf.idx .read = buf'.idx .read := hr
  apply CyclicBuffer.ext_stages hd (h.total.trans h'.total.symm)
  · intro t
    cases t with
    | write => rw [h.write_idx, h'.write_idx, hread, hU, hR]
    | recode => rw [h.recode_idx, h'.recode_idx, hread, hR]
    | read => exact hread
  · intro t
    cases t with
    | write => rw [h.available_write, h'.available_write, hU, hR]
    | recode => rw [h.available_recode, h'.available_recode, hU]
    | read => rw [h.available_read, h'.available_read, hR]

/-- What `recode_xor` does to the cells when there are `n` bytes to recode. -/
theorem recodeXor_cells (h : Represents cap buf U R) (pl : Placement) (m : Region) {n : ℕ}
    (hn : n ≤ U.length) : (cyclicBufferRecodeXor pl buf (some m) n).2 = n ∧
    (cyclicBufferRecodeXor pl buf (some m) n).1.dataPtr = buf.moveRuns (· ^^^ ·) .recode m n ∧
    (cyclicBufferRecodeXor pl buf (some m) n).1.readIdx = buf.readIdx := by
  have hav := h.available_recode
  by_cases h0 : buf.available .recode = 0
  · obtain rfl : n = 0 := by omega
    rw [cyclicBufferRecodeXor, if_pos (show buf.availableToRecode = 0 from h0),
      CyclicBuffer.moveRuns_zero h.sized (h.idx_lt _)]
    exact ⟨rfl, rfl, rfl⟩
  · rw [cyclicBufferRecodeXor_eq h0, Nat.min_eq_right (by omega)]
    obtain ⟨-, hidx, hdata, -⟩ := h.advance (buf.moveRuns (· ^^^ ·) .recode m n)
      (show n ≤ buf.available .recode by omega)
    refine ⟨rfl, hdata, ?_⟩
    have := congrFun hidx .read
    simpa [CyclicBuffer.idx] using this

/-- Only the bytes of the mask that are used matter, not where the mask lies. -/
theorem recodeXor_congr (h : Represents cap buf U R) (pl pl' : Placement) {n : ℕ} {m m' : Region}
    (hn : n ≤ U.length) (he : ∀ k < n, m k = m' k) :
    cyclicBufferRecodeXor pl buf (some m) n = cyclicBufferRecodeXor pl' buf (some m') n := by
  have hroom := h.room
  have ht := h.total
  obtain ⟨h2, hd, hr⟩ := h.recodeXor_cells pl m hn
  obtain ⟨h2', hd', hr'⟩ := h.recodeXor_cells pl' m' hn
  obtain ⟨-, hR⟩ := h.recodeXor pl (some m) n
  obtain ⟨-, hR'⟩ := h.recodeXor pl' (some m') n
  refine Prod.ext ?_ (h2.trans h2'.symm)
  refine hR.eq_of_cells hR' rfl (by simp) (hr.trans hr'.symm) ?_
  rw [hd, hd']
  exact CyclicBuffer.moveRuns_congr h.sized (h.idx_lt _) (by omega) he

/-- Two calls of `recode_xor` one behind the other are one call. -/
theorem recodeXor_recodeXor (h : Represents cap buf U R) (pl pl1 pl2 : Placement) {n1 n2 : ℕ}
    {m m1 m2 : Region} (hn : n1 + n2 ≤ U.length) (h1 : ∀ k < n1, m1 k = m k)
    (h2 : ∀ k < n2, m2 k = m (n1 + k)) :
    cyclicBufferRecodeXor pl2 (cyclicBufferRecodeXor pl1 buf (some m1) n1).1 (some m2) n2 =
      ((cyclicBufferRecodeXor pl buf (some m) (n1 + n2)).1, n2) := by
  have hroom := h.room
  have ht := h.total
  obtain ⟨-, hd1, hr1⟩ := h.recodeXor_cells pl1 m1 (show n1 ≤ U.length by omega)
  obtain ⟨-, hR1⟩ := h.recodeXor pl1 (some m1) n1
  obtain ⟨-, hd, hr⟩ := h.recodeXor_cells pl m hn
  obtain ⟨-, hRep⟩ := h.recodeXor pl (some m) (n1 + n2)
  rw [Nat.min_eq_left (by omega)] at hR1 hRep
  generalize (cyclicBufferRecodeXor pl1 buf (some m1) n1).1 = b1 at hd1 hr1 hR1 ⊢
  have hlen1 : (U.drop n1).length = U.length - n1 := List.length_drop ..
  obtain ⟨hn2, hd2, hr2⟩ := hR1.recodeXor_cells pl2 m2 (show n2 ≤ (U.drop n1).length by omega)
  obtain ⟨-, hR2⟩ := hR1.recodeXor pl2 (some m2) n2
  rw [Nat.min_eq_left (by omega)] at hR2
  refine Prod.ext ?_ hn2
  refine hR2.eq_of_cells hRep ?_ ?_ ?_ ?_
  · simp only [List.length_drop]
    omega
  · simp only [List.length_append, length_maskBytes, List.length_take, List.length_drop]
    omega
  · rw [hr2, hr1, hr]
  · have hidx : b1.idx .recode = (buf.idx .recode + n1) % buf.totalSize := by
      have hread : b1.idx .read = buf.idx .read := hr1
      rw [hR1.recode_idx, hread, List.length_append, length_maskBytes, List.length_take,
        Nat.min_eq_left (by omega), h.recode_idx, ht, Nat.mod_add_mod, Nat.add_assoc]
    rw [hd2, hd]
    apply CyclicBuffer.moveRuns_moveRuns h.sized (h.idx_lt _) (by omega) ?_
      (hR1.total.trans ht.symm) hidx h2
    rw [hd1]
    exact CyclicBuffer.moveRuns_congr h.sized (h.idx_lt _) (by omega) h1

/-! ### Reading without the copy -/

variable {capm : ℕ} {maskBuf : CyclicBuffer} {Um Rm : List UInt8}

/-- A step by no bytes. -/
theorem advance_zero (h : Represents cap buf U R) (st : Stage) :
    buf.advance st 0 (buf.split st 0).next = buf := by
  obtain ⟨hav, hidx, hd, ht⟩ := h.advance buf.dataPtr (Nat.zero_le (buf.available st))
  rw [show buf.setData buf.dataPtr = buf from rfl] at hav hidx hd ht
  apply CyclicBuffer.ext_stages hd (ht.trans h.total.symm)
  · intro t
    have hlt := h.idx_lt st
    rw [h.total] at hlt
    rw [hidx, Nat.add_zero, Nat.mod_eq_of_lt hlt, Function.update_eq_self]
  · intro t
    rw [hav, Nat.add_zero, Nat.sub_zero, Function.update_eq_self, Function.update_eq_self]

theorem recodeXor_zero (h : Represents cap buf U R) (pl : Placement) (m : Region) :
    cyclicBufferRecodeXor pl buf (some m) 0 = (buf, 0) := by
  obtain ⟨h2, hd, hr⟩ := h.recodeXor_cells pl m (Nat.zero_le _)
  obtain ⟨-, hR⟩ := h.recodeXor pl (some m) 0
  refine Prod.ext ?_ h2
  refine hR.eq_of_cells h (by simp) (by simp) hr ?_
  rw [hd, CyclicBuffer.moveRuns_zero h.sized (h.idx_lt _)]

/-- A read of `n` available bytes: the cells in order, and one step of the index. -/
theorem read_cells (h : Represents capm maskBuf Um Rm) {n : ℕ} (hn : n ≤ Rm.length) (tmp : Region) :
    ∃ d, cyclicBufferRead maskBuf (some tmp) n =
        (maskBuf.advance .read n (maskBuf.split .read n).next, some d, n) ∧
      ∀ k < n, d k = maskBuf.dataPtr ((maskBuf.idx .read + k) % maskBuf.totalSize) := by
  obtain ⟨h2, -⟩ := h.read (some tmp) n
  rw [Nat.min_eq_left hn, Option.map_some] at h2
  refine ⟨storeBytes tmp (Rm.take n), Prod.ext ?_ h2, ?_⟩
  · have hav : maskBuf.availableToRead = Rm.length := h.available_read
    by_cases h0 : maskBuf.availableToRead = 0
    · obtain rfl : n = 0 := by omega
      rw [cyclicBufferRead, if_pos h0]
      exact (h.advance_zero .read).symm
    · rw [cyclicBufferRead, if_neg h0, Nat.min_eq_right (by omega)]
  · intro k hk
    have hcell := h.cells k (by simp; omega)
    rw [storeBytes_of_lt (by simp; omega), List.getElem_take, h.total, hcell,
      List.getElem_append_left]

/-- A mask that wraps: the two nested calls are one call with all the bytes. -/
theorem recodeXorBuf_wraps (h : Represents cap buf U R) (hm : Represents capm maskBuf Um Rm)
    (pl pl' : Placement) {n : ℕ} {d : Region}
    (hn : n = min buf.availableToRecode maskBuf.availableToRead) (h0 : n ≠ 0)
    (hd : ∀ k < n, d k = maskBuf.dataPtr ((maskBuf.idx .read + k) % maskBuf.totalSize))
    (hw : maskBuf.totalSize < maskBuf.idx .read + n) : cyclicBufferRecodeXorBuf pl buf maskBuf =
      ((cyclicBufferRecodeXor pl' buf (some d) n).1,
        maskBuf.advance .read n (maskBuf.split .read n).next, n) := by
  have hav : buf.availableToRecode = U.length := h.available_recode
  have havm : maskBuf.availableToRead = Rm.length := hm.available_read
  have hlt := hm.idx_lt .read
  have htm := hm.total
  have hroom := hm.room
  have h32 := hm.sized.lt_uint32
  have hadd : u32Add maskBuf.readIdx n = maskBuf.idx .read + n := u32Add_eq (by
    change maskBuf.idx .read + n < 2 ^ 32
    omega)
  have hsplit := CyclicBuffer.split_eq hm.sized hlt (show n ≤ maskBuf.totalSize by omega)
  rw [if_pos hw] at hsplit
  have hfirst : (maskBuf.split .read n).first = maskBuf.totalSize - maskBuf.idx .read := by
    rw [hsplit]
  have hsecond : (maskBuf.split .read n).second =
      maskBuf.idx .read + n - maskBuf.totalSize := by rw [hsplit]
  have hsum : (maskBuf.split .read n).first + (maskBuf.split .read n).second = n := by omega
  have hmask1 : ∀ k < (maskBuf.split .read n).first,
      maskBuf.dataPtr (maskBuf.readIdx + k) = d k := by
    intro k hk
    rw [hd k (by omega), Nat.mod_eq_of_lt (by omega)]
    rfl
  have hmask2 : ∀ k < (maskBuf.split .read n).second,
      maskBuf.dataPtr (0 + k) = d ((maskBuf.split .read n).first + k) := by
    intro k hk
    rw [hd _ (by omega)]
    congr 1
    rw [Nat.mod_eq_sub_mod (by omega), Nat.mod_eq_of_lt (by omega)]
    omega
  have htwo := fun pl1 => h.recodeXor_recodeXor pl' pl1 pl (by omega) hmask1 hmask2
  rw [hsum] at htwo
  rw [cyclicBufferRecodeXorBuf, if_neg (by omega), if_neg (by omega), ← hn]
  simp only [hadd]
  rw [if_pos hw]
  exact congrArg (fun r => (r.1, maskBuf.advance .read n (maskBuf.split .read n).next, n)) (htwo _)

/-- A mask that does not: the nested call is the call. -/
theorem recodeXorBuf_straight (h : Represents cap buf U R) (hm : Represents capm maskBuf Um Rm)
    (pl pl' : Placement) {n : ℕ} {d : Region}
    (hn : n = min buf.availableToRecode maskBuf.availableToRead) (h0 : n ≠ 0)
    (hd : ∀ k < n, d k = maskBuf.dataPtr ((maskBuf.idx .read + k) % maskBuf.totalSize))
    (hw : ¬ maskBuf.totalSize < maskBuf.idx .read + n) : cyclicBufferRecodeXorBuf pl buf maskBuf =
      ((cyclicBufferRecodeXor pl' buf (some d) n).1,
        maskBuf.advance .read n (maskBuf.split .read n).next, n) := by
  have hav : buf.availableToRecode = U.length := h.available_recode
  have havm : maskBuf.availableToRead = Rm.length := hm.available_read
  have hlt := hm.idx_lt .read
  have h32 := hm.sized.lt_uint32
  have hadd : u32Add maskBuf.readIdx n = maskBuf.idx .read + n := u32Add_eq (by
    change maskBuf.idx .read + n < 2 ^ 32
    omega)
  have hsplit := CyclicBuffer.split_eq hm.sized hlt (show n ≤ maskBuf.totalSize by omega)
  rw [if_neg hw] at hsplit
  have hfirst : (maskBuf.split .read n).first = n := by rw [hsplit]
  have hmask : ∀ k < n, maskBuf.dataPtr (maskBuf.readIdx + k) = d k := by
    intro k hk
    rw [hd k hk, Nat.mod_eq_of_lt (by omega)]
    rfl
  rw [cyclicBufferRecodeXorBuf, if_neg (by omega), if_neg (by omega), ← hn]
  simp only [hadd]
  rw [if_neg hw, hfirst]
  exact congrArg (fun r => (r.1, maskBuf.advance .read n (maskBuf.split .read n).next, n))
    (h.recodeXor_congr _ pl' (show n ≤ U.length by omega) hmask)

/-- `recode_xor_buf` is a read followed by a `recode_xor`. -/
theorem recodeXorBuf_eq (h : Represents cap buf U R) (hm : Represents capm maskBuf Um Rm)
    (pl pl' : Placement) (tmp : Region) {n : ℕ}
    (hn : n = min buf.availableToRecode maskBuf.availableToRead) :
    ∃ d mask', cyclicBufferRead maskBuf (some tmp) n = (mask', some d, n) ∧
      (cyclicBufferRecodeXor pl' buf (some d) n).2 = n ∧
      cyclicBufferRecodeXorBuf pl buf maskBuf =
        ((cyclicBufferRecodeXor pl' buf (some d) n).1, mask', n) := by
  have hav : buf.availableToRecode = U.length := h.available_recode
  have havm : maskBuf.availableToRead = Rm.length := hm.available_read
  obtain ⟨d, hread, hd⟩ := hm.read_cells (show n ≤ Rm.length by omega) tmp
  refine ⟨d, _, hread, (h.recodeXor_cells pl' d (by omega)).1, ?_⟩
  by_cases h0 : n = 0
  · subst h0
    rw [h.recodeXor_zero, hm.advance_zero, cyclicBufferRecodeXorBuf]
    split_ifs with hr hmr
    · rfl
    · rfl
    · omega
  · by_cases hw : maskBuf.totalSize < maskBuf.idx .read + n
    · exact h.recodeXorBuf_wraps hm pl pl' hn h0 hd hw
    · exact h.recodeXorBuf_straight hm pl pl' hn h0 hd hw

end Represents

end Cryptochan
