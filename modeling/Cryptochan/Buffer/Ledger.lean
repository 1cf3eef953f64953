import Cryptochan.Buffer.Model
import Cryptochan.Lib.Circular
import Cryptochan.Lib.CreditRing

/-!
# Cryptochan.Buffer.Ledger — the invariant of a shared buffer

The three stages of a buffer pass credit round a ring (`CreditRing`): the counters are the credits,
the indices are positions modulo `total_size`.  `Balanced` is the ledger of that ring for a buffer,
with the phases `ph`, the positions `pos` and the leaks of the stages as ghost state; it yields the
range of every counter and the order of the positions.  `Piped` adds what the cells hold: the
streams `W` of all bytes written and `R` of all bytes recoded so far (`Circular.Staged`).

Nothing here mentions threads: each lemma is about one primitive access by one stage.
-/

namespace Cryptochan

open Circular CreditRing

/-- The cells in front of each stage of an empty buffer. -/
def stageCap (n : ℕ) : Stage → ℕ
  | .write => n
  | _ => 0

/-- A buffer seen as a ring of credits. -/
def CyclicBuffer.ring (buf : CyclicBuffer) (ph : Stage → Phase) (pos leak : Stage → ℕ) :
    CreditRing.State Stage := ⟨buf.available, buf.idx, ph, pos, leak⟩

/-- The counters and indices are exact up to what the calls in progress account for.  Only the
recoder may leak. -/
structure Balanced (buf : CyclicBuffer) (ph : Stage → Phase) (pos leak : Stage → ℕ) : Prop where
  sized : buf.Sized
  ledger : (buf.ring ph pos leak).Ledger Stage.prev (stageCap buf.totalSize) buf.totalSize
  small : ∀ st, (ph st).size ≤ buf.totalSize
  leak_write : leak .write = 0
  leak_read : leak .read = 0

namespace Balanced

variable {buf : CyclicBuffer} {ph : Stage → Phase} {pos leak : Stage → ℕ}

theorem init {buf : CyclicBuffer} (h : buf.Sized) (hi : ∀ st, buf.idx st = 0)
    (hr : buf.available .read = 0) (hc : buf.available .recode = 0)
    (hw : buf.available .write = buf.totalSize) :
    Balanced buf (fun _ => .idle) (fun _ => 0) (fun _ => 0) := by
  refine ⟨h, ⟨?_, ?_, ?_⟩, ?_, rfl, rfl⟩
  · intro st
    cases st <;> simp [CyclicBuffer.ring, stageCap, *]
  · intro st
    cases st <;> simp [CyclicBuffer.ring, stageCap]
  · intro st
    simp [CyclicBuffer.ring, hi]
  · intro st
    simp

/-! ### Consequences -/

section Facts

variable (h : Balanced buf ph pos leak)
include h

theorem credit_write : buf.available .write + pos .write =
    pos .read + buf.totalSize + (ph .write).owed := by
  have := h.ledger.credit .write
  simpa [CyclicBuffer.ring, stageCap, Stage.prev, h.leak_write] using this

theorem credit_recode : buf.available .recode + pos .recode + leak .recode =
    pos .write + (ph .recode).owed := by
  have := h.ledger.credit .recode
  simpa [CyclicBuffer.ring, stageCap, Stage.prev] using this

theorem credit_read : buf.available .read + pos .read = pos .recode + (ph .read).owed := by
  have := h.ledger.credit .read
  simpa [CyclicBuffer.ring, stageCap, Stage.prev, h.leak_read] using this

/-- The cells a stage holds lie behind those of the stage it gets them from. -/
theorem held_write : pos .write + (ph .write).held ≤ pos .read + buf.totalSize := by
  have := h.ledger.held .write
  simpa [CyclicBuffer.ring, stageCap, Stage.prev, h.leak_write] using this

theorem held_recode : pos .recode + (ph .recode).held + leak .recode ≤ pos .write := by
  have := h.ledger.held .recode
  simpa [CyclicBuffer.ring, stageCap, Stage.prev] using this

theorem held_read : pos .read + (ph .read).held ≤ pos .recode := by
  have := h.ledger.held .read
  simpa [CyclicBuffer.ring, stageCap, Stage.prev, h.leak_read] using this

theorem idx_eq (st : Stage) : buf.idx st = (pos st + (ph st).ahead) % buf.totalSize :=
  h.ledger.index st

theorem idx_lt (st : Stage) : buf.idx st < buf.totalSize := by
  rw [h.idx_eq st]
  exact Nat.mod_lt _ h.sized.pos

/-- No counter exceeds the size by more than what its stage has passed on and not yet subtracted. -/
theorem available_le (st : Stage) : buf.available st ≤ buf.totalSize + (ph st).owed := by
  have h1 := h.held_write
  have h2 := h.held_recode
  have h3 := h.held_read
  cases st with
  | write => have := h.credit_write; omega
  | recode => have := h.credit_recode; omega
  | read => have := h.credit_read; omega

theorem available_le_of_idle {st : Stage} (hi : ph st = .idle) :
    buf.available st ≤ buf.totalSize := by
  have := h.available_le st
  rw [hi] at this
  exact this

theorem available_lt (st : Stage) : buf.available st < 2 ^ 32 := by
  have h1 := h.available_le st
  have h2 := (ph st).owed_le_size
  have h3 := h.small st
  have h4 := h.sized.lt_uint32
  omega

/-- The addition to the next counter does not wrap. -/
theorem fetchAdd_lt (st : Stage) : buf.available st.next + (ph st).size < 2 ^ 32 := by
  have h1 := h.available_le st.next
  have h2 := (ph st.next).owed_le_size
  have h3 := h.small st.next
  have h4 := h.small st
  have h5 := h.sized.le
  unfold cyclicBufferMaxSize at h5
  omega

/-- Nor does the addition to an index. -/
theorem idx_add_lt (st : Stage) {n : ℕ} (hn : n ≤ buf.totalSize) : buf.idx st + n < 2 ^ 32 := by
  have h1 := h.idx_lt st
  have h4 := h.sized.lt_uint32
  omega

theorem split_next {st : Stage} {n : ℕ} (hn : n ≤ buf.totalSize) :
    (buf.split st n).next = (buf.idx st + n) % buf.totalSize :=
  CyclicBuffer.split_next h.sized (h.idx_lt st) hn

/-- Byte `k` of a claim of stage `st` lies in the cell of the absolute position `pos st + k`. -/
theorem byteOffset_eq {st : Stage} {n k : ℕ} (hph : ph st = .claim n) (hk : k < n) :
    buf.byteOffset st n k = (pos st + k) % buf.totalSize := by
  have hn := h.small st
  have hi := h.idx_eq st
  rw [hph] at hn hi
  rw [Phase.size_claim] at hn
  rw [CyclicBuffer.byteOffset_eq h.sized (h.idx_lt st) hn hk, hi, Nat.mod_add_mod]
  rfl

/-- Claims of different stages never meet in a cell. -/
theorem claims_disjoint {t u : Stage} (htu : t ≠ u) {n m j k : ℕ} (ht : ph t = .claim n)
    (hu : ph u = .claim m) (hj : j < n) (hk : k < m) :
    buf.byteOffset t n j ≠ buf.byteOffset u m k := by
  have h1 := h.held_write
  have h2 := h.held_recode
  have h3 := h.held_read
  have e1 : (ph t).held = n := by rw [ht]; rfl
  have e2 : (ph u).held = m := by rw [hu]; rfl
  rw [h.byteOffset_eq ht hj, h.byteOffset_eq hu hk]
  -- all positions lie in the one turn from `pos .read` on
  cases t <;> cases u <;>
    first
    | exact absurd rfl htu
    | exact slot_ne (by omega) (by omega) (by omega)

end Facts

/-! ### The primitive accesses -/

section Steps

variable (h : Balanced buf ph pos leak) {st : Stage} {n : ℕ}
include h

theorem claim (hi : ph st = .idle) (hn : n ≤ buf.available st) :
    Balanced buf (Function.update ph st (.claim n)) pos leak := by
  refine ⟨h.sized, h.ledger.claim hi hn, ?_, h.leak_write, h.leak_read⟩
  intro k
  by_cases hk : k = st
  · subst hk
    rw [Function.update_self]
    exact hn.trans (h.available_le_of_idle hi)
  · rw [Function.update_of_ne hk]
    exact h.small k

theorem move (hi : ph st = .claim n) :
    Balanced (buf.setIdx st ((buf.idx st + n) % buf.totalSize)) (Function.update ph st (.moved n))
      pos leak := by
  have e : (buf.setIdx st ((buf.idx st + n) % buf.totalSize)).ring
      (Function.update ph st (.moved n)) pos leak = (buf.ring ph pos leak).move buf.totalSize st n := by
    simp [CyclicBuffer.ring, State.move]
  refine ⟨⟨?_, ?_⟩, ?_, ?_, h.leak_write, h.leak_read⟩
  · simpa using h.sized.pos
  · simpa using h.sized.le
  · rw [e, CyclicBuffer.totalSize_setIdx]
    exact h.ledger.move hi
  · intro k
    have := h.small k
    by_cases hk : k = st
    · subst hk; simpa [hi] using this
    · simpa [hk] using this

theorem pass (hi : ph st = .moved n) :
    Balanced (buf.fetchAdd st.next n) (Function.update ph st (.passed n))
      (Function.update pos st (pos st + n)) leak := by
  have hadd := h.fetchAdd_lt st
  rw [hi, Phase.size_moved] at hadd
  have e : (buf.fetchAdd st.next n).ring (Function.update ph st (.passed n))
      (Function.update pos st (pos st + n)) leak = (buf.ring ph pos leak).pass st st.next n := by
    simp [CyclicBuffer.ring, State.pass, u32Add_eq hadd]
  refine ⟨⟨?_, ?_⟩, ?_, ?_, h.leak_write, h.leak_read⟩
  · simpa using h.sized.pos
  · simpa using h.sized.le
  · rw [e, CyclicBuffer.totalSize_fetchAdd]
    exact h.ledger.pass hi (fun k => Stage.prev_eq_iff st k) st.next_ne
  · intro k
    have := h.small k
    by_cases hk : k = st
    · subst hk; simpa [hi] using this
    · simpa [hk] using this

theorem release (hi : ph st = .passed n) :
    Balanced (buf.fetchSub st n) (Function.update ph st .idle) pos leak := by
  have hsub : n ≤ buf.available st := by
    have : ((buf.ring ph pos leak).phase st).owed ≤ (buf.ring ph pos leak).credit st :=
      h.ledger.owed_le st
    simpa [CyclicBuffer.ring, hi] using this
  have e : (buf.fetchSub st n).ring (Function.update ph st .idle) pos leak =
      (buf.ring ph pos leak).release st n := by
    simp [CyclicBuffer.ring, State.release, u32Sub_eq (h.available_lt st) hsub]
  refine ⟨⟨?_, ?_⟩, ?_, ?_, h.leak_write, h.leak_read⟩
  · simpa using h.sized.pos
  · simpa using h.sized.le
  · rw [e, CyclicBuffer.totalSize_fetchSub]
    exact h.ledger.release hi
  · intro k
    have := h.small k
    by_cases hk : k = st
    · subst hk; simp
    · simpa [hk] using this

/-- The plain store of `0` leaks what was written since the counter was loaded. -/
theorem forget (hi : ph .recode = .passed n) :
    Balanced (buf.setAvailable .recode 0) (Function.update ph .recode .idle) pos
      (Function.update leak .recode (leak .recode + (buf.available .recode - n))) := by
  have e : (buf.setAvailable .recode 0).ring (Function.update ph .recode .idle) pos
      (Function.update leak .recode (leak .recode + (buf.available .recode - n))) =
      (buf.ring ph pos leak).forget .recode n := by
    simp [CyclicBuffer.ring, State.forget]
  refine ⟨⟨?_, ?_⟩, ?_, ?_, ?_, ?_⟩
  · simpa using h.sized.pos
  · simpa using h.sized.le
  · rw [e, CyclicBuffer.totalSize_setAvailable]
    exact h.ledger.forget hi
  · intro k
    have := h.small k
    by_cases hk : k = Stage.recode
    · subst hk; simp
    · simpa [hk] using this
  · rw [Function.update_of_ne (by simp)]; exact h.leak_write
  · rw [Function.update_of_ne (by simp)]; exact h.leak_read

/-- Writing cells changes no counter. -/
theorem setData (d : Region) : Balanced (buf.setData d) ph pos leak :=
  ⟨⟨h.sized.pos, h.sized.le⟩, by
    have e : (buf.setData d).ring ph pos leak = buf.ring ph pos leak := by
      simp [CyclicBuffer.ring]
    rw [e]; exact h.ledger, h.small, h.leak_write, h.leak_read⟩

end Steps

end Balanced

/-- `Balanced`, and the cells hold the streams: `W` all bytes written so far, `R` all bytes recoded
so far; `dn st` bytes of the claim of `st` are done. -/
structure Piped (buf : CyclicBuffer) (ph : Stage → Phase) (dn pos leak : Stage → ℕ)
    (R W : List UInt8) : Prop where
  balanced : Balanced buf ph pos leak
  written : W.length = pos .write + dn .write
  recoded : R.length = pos .recode + dn .recode
  staged : Staged buf.dataPtr buf.totalSize (pos .read) R W

namespace Piped

variable {buf : CyclicBuffer} {ph : Stage → Phase} {dn pos leak : Stage → ℕ} {R W : List UInt8}
  (h : Piped buf ph dn pos leak R W) {st : Stage} {n k : ℕ}
include h

theorem claim (hi : ph st = .idle) (hn : n ≤ buf.available st) :
    Piped buf (Function.update ph st (.claim n)) dn pos leak R W :=
  ⟨h.balanced.claim hi hn, h.written, h.recoded, h.staged⟩

theorem move (hi : ph st = .claim n) :
    Piped (buf.setIdx st ((buf.idx st + n) % buf.totalSize)) (Function.update ph st (.moved n)) dn
      pos leak R W :=
  ⟨h.balanced.move hi, h.written, h.recoded, by simpa using h.staged⟩

/-- Passing on a claim whose bytes are all done. -/
theorem pass (hi : ph st = .moved n) (hd : dn st = n) :
    Piped (buf.fetchAdd st.next n) (Function.update ph st (.passed n)) (Function.update dn st 0)
      (Function.update pos st (pos st + n)) leak R W := by
  have h3 := h.balanced.held_read
  have hr := h.recoded
  have hst := h.staged
  refine ⟨h.balanced.pass hi, ?_, ?_, ?_⟩
  · have := h.written
    by_cases hw : Stage.write = st
    · subst hw; simp; omega
    · simp [hw, this]
  · by_cases hw : Stage.recode = st
    · subst hw; simp; omega
    · simp [hw, hr]
  · rw [CyclicBuffer.dataPtr_fetchAdd, CyclicBuffer.totalSize_fetchAdd]
    by_cases hw : Stage.read = st
    · subst hw
      rw [hi, Phase.held_moved] at h3
      rw [Function.update_self]
      exact hst.release (by omega)
    · rw [Function.update_of_ne hw]
      exact hst

theorem release (hi : ph st = .passed n) :
    Piped (buf.fetchSub st n) (Function.update ph st .idle) dn pos leak R W :=
  ⟨h.balanced.release hi, h.written, h.recoded, by simpa using h.staged⟩

theorem forget (hi : ph .recode = .passed n) :
    Piped (buf.setAvailable .recode 0) (Function.update ph .recode .idle) dn pos
      (Function.update leak .recode (leak .recode + (buf.available .recode - n))) R W :=
  ⟨h.balanced.forget hi, h.written, h.recoded, by simpa using h.staged⟩

/-- Byte `k` of a write. -/
theorem put (hi : ph .write = .claim n) (hd : dn .write = k) (hk : k < n) (a : UInt8) :
    Piped (buf.setData (Function.update buf.dataPtr (buf.byteOffset .write n k) a)) ph
      (Function.update dn .write (k + 1)) pos leak R (W ++ [a]) := by
  have hw := h.written
  have hheld := h.balanced.held_write
  rw [hi, Phase.held_claim] at hheld
  refine ⟨h.balanced.setData _, ?_, ?_, ?_⟩
  · simp; omega
  · simpa using h.recoded
  · rw [h.balanced.byteOffset_eq hi hk, ← hd, ← hw]
    exact h.staged.put (by omega) a

/-- Byte `k` of a recode: the cell holds the next written byte. -/
theorem convert (hi : ph .recode = .claim n) (hd : dn .recode = k) (hk : k < n) :
    ∃ hlt : R.length < W.length, buf.dataPtr (buf.byteOffset .recode n k) = W[R.length] ∧
      ∀ a, Piped (buf.setData (Function.update buf.dataPtr (buf.byteOffset .recode n k) a)) ph
        (Function.update dn .recode (k + 1)) pos leak (R ++ [a]) W := by
  have hw := h.written
  have hr := h.recoded
  have hheld := h.balanced.held_recode
  rw [hi, Phase.held_claim] at hheld
  have hlt : R.length < W.length := by omega
  rw [h.balanced.byteOffset_eq hi hk, ← hd, ← hr]
  refine ⟨hlt, h.staged.raw _ hlt le_rfl, fun a => ⟨h.balanced.setData _, ?_, ?_, ?_⟩⟩
  · simpa using hw
  · simp; omega
  · exact h.staged.convert hlt a

/-- Byte `k` of a read. -/
theorem get (hi : ph .read = .claim n) (hk : k < n) :
    ∃ hlt : pos .read + k < R.length,
      buf.dataPtr (buf.byteOffset .read n k) = R[pos .read + k] := by
  have hr := h.recoded
  have hheld := h.balanced.held_read
  rw [hi, Phase.held_claim] at hheld
  have hlt : pos .read + k < R.length := by omega
  rw [h.balanced.byteOffset_eq hi hk]
  exact ⟨hlt, h.staged.ready _ hlt (by omega)⟩

/-- A write without a source takes the cells as they are. -/
theorem adopt (hi : ph .write = .claim n) (hd : dn .write = 0) :
    Piped buf ph (Function.update dn .write n) pos leak R
      (W ++ (List.range n).map fun k => buf.dataPtr (buf.byteOffset .write n k)) := by
  have hw := h.written
  have hheld := h.balanced.held_write
  rw [hi, Phase.held_claim] at hheld
  have hmap : ((List.range n).map fun k => buf.dataPtr (buf.byteOffset .write n k)) =
      (List.range n).map fun k => buf.dataPtr ((W.length + k) % buf.totalSize) := by
    apply List.map_congr_left
    intro k hk
    rw [h.balanced.byteOffset_eq hi (List.mem_range.mp hk), hw, hd, Nat.add_zero]
  refine ⟨h.balanced, ?_, ?_, ?_⟩
  · simp; omega
  · simpa using h.recoded
  · rw [hmap]
    exact h.staged.adopt (by omega)

/-- A recode without a mask keeps the bytes. -/
theorem keep (hi : ph .recode = .claim n) (hd : dn .recode = 0) :
    Piped buf ph (Function.update dn .recode n) pos leak (R ++ (W.drop R.length).take n) W := by
  have hw := h.written
  have hr := h.recoded
  have hheld := h.balanced.held_recode
  rw [hi, Phase.held_claim] at hheld
  refine ⟨h.balanced, ?_, ?_, h.staged.keep (by omega)⟩
  · simpa using hw
  · simp; omega

end Piped

end Cryptochan
