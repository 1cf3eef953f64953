import Cryptochan.Buffer.RoundTrip

/-!
# Cryptochan.Buffer.Wired — where the threads of the test can be

The counters of the loops and the program points of the calls belong together: a runner is before
the last byte until it leaves its loop, every call has bytes to move, `stage` says how far the test
is, and when the recoder comes to `cyclic_buffer_recode_xor_buf` it has a mask byte that was not
used yet.  `ThreadTest.Wired` is that part of the invariant; `Buffer.Progress` needs it.
-/

namespace Cryptochan

open CreditRing

/-! ### A step of a call -/

/-- The steps that a call has still to do, the next one included. -/
def CallPc.rank : CallPc → ℕ
  | .load max => max + 4
  | .copy size _ k => size - k + 3
  | .storeIdx _ _ => 3
  | .fetchAdd _ => 2
  | .fetchSub _ => 1

def NonePc.rank : NonePc → ℕ
  | .load => 4
  | .storeIdx _ => 3
  | .fetchAdd _ => 2
  | .storeZero _ => 1

theorem rank_copyFrom_le (arg : Option Region) (size nextIdx k : ℕ) :
    (copyFrom arg size nextIdx k).rank ≤ size - k + 3 := by
  unfold copyFrom
  split_ifs
  · exact Nat.le_refl _
  · exact Nat.le_add_left _ _

/-- What a step of a call comes to: it goes on, with bytes if it had some; it returns what it moved;
or it found nothing to do. -/
inductive CallMoves (buf : CyclicBuffer) (st : Stage) : CallPc → Cont CallPc → Prop
  | goto {pc pc' : CallPc} (hrank : pc'.rank < pc.rank) (hpos : 0 < pc.size → 0 < pc'.size)
      (hlast : ∀ n, pc' = .fetchSub n → pc = .fetchAdd n) : CallMoves buf st pc (.goto pc')
  | ret (size : ℕ) : CallMoves buf st (.fetchSub size) (.ret size)
  | empty {max : ℕ} (h : buf.available st = 0) : CallMoves buf st (.load max) (.ret 0)

theorem copyFrom_ne (arg : Option Region) (size nextIdx k n : ℕ) :
    copyFrom arg size nextIdx k ≠ .fetchSub n := by
  unfold copyFrom
  split_ifs <;> simp

theorem callStep_moves {buf : CyclicBuffer} {st : Stage} {arg : Option Region} {pc : CallPc}
    (hok : pc.Ok buf st arg) : CallMoves buf st pc (callStep st buf arg pc).2.2 := by
  cases pc with
  | load max =>
    by_cases hz : buf.available st = 0
    · simp only [callStep, if_pos hz]
      exact .empty hz
    · simp only [callStep, if_neg hz]
      have hrank := rank_copyFrom_le arg (min (buf.available st) max)
        (buf.split st (min (buf.available st) max)).next 0
      refine .goto ?_ ?_ fun n hn => absurd hn (copyFrom_ne _ _ _ _ n)
      · refine hrank.trans_lt (?_ : _ < max + 4)
        omega
      · intro hmax
        rw [size_copyFrom]
        have hmax' : 0 < max := hmax
        omega
  | copy size nextIdx k =>
    obtain ⟨-, hk, hsome⟩ := hok
    obtain ⟨r, rfl⟩ := Option.isSome_iff_exists.mp hsome
    have hrank := rank_copyFrom_le (some r) size nextIdx (k + 1)
    have hsize := size_copyFrom (some r) size nextIdx (k + 1)
    show CallMoves buf st _ (.goto (copyFrom (some r) size nextIdx (k + 1)))
    refine .goto (hrank.trans_lt (?_ : _ < size - k + 3)) (fun _ => ?_)
      fun n hn => absurd hn (copyFrom_ne _ _ _ _ n)
    · omega
    · omega
  | storeIdx size nextIdx => exact .goto (by simp [CallPc.rank]) id (by simp)
  | fetchAdd size =>
    refine .goto (by simp [CallPc.rank]) id ?_
    rintro n ⟨⟩
    rfl
  | fetchSub size => exact .ret size

section Moves

variable {s s' : Sys} {t : Stage}

theorem calls_step_of_ne {u : Stage} (hu : u ≠ t) (hs : s.step (.step t) = some s') :
    s'.calls u = s.calls u := by
  rw [Sys.step] at hs
  split at hs
  · exact absurd hs (by simp)
  · obtain rfl := Option.some.inj hs
    rw [calls_afterCall, Function.update_of_ne hu]
  · obtain rfl := Option.some.inj hs
    rw [calls_afterNone, Function.update_of_ne hu]

/-- The call of `t` goes on, or returns. -/
theorem step_moves {arg : Option Region} {pc : CallPc} (hwf : s.WellFormed)
    (ht : s.calls t = some (.call arg pc)) (hs : s.step (.step t) = some s') :
    (s.returns t = none ∧ ∃ arg' pc', s'.calls t = some (.call arg' pc') ∧
      CallMoves s.buf t pc (.goto pc')) ∨
    ∃ n arg', s.returns t = some (n, arg') ∧ s'.calls t = none ∧
      CallMoves s.buf t pc (.ret n) := by
  have hmoves := callStep_moves (hwf.ok _ _ _ ht)
  rw [Sys.step, ht] at hs
  obtain rfl := Option.some.inj hs
  have hcalls := calls_afterCall (s := s) (t := t) (callStep t s.buf arg pc)
  obtain ⟨m, arg', c, hm⟩ : ∃ m arg' c, callStep t s.buf arg pc = (m, arg', c) := ⟨_, _, _, rfl⟩
  rw [hm] at hmoves hcalls ⊢
  rw [hcalls, Function.update_self]
  cases c with
  | goto pc' => exact Or.inl ⟨by simp only [Sys.returns, ht, hm], _, _, rfl, hmoves⟩
  | ret n => exact Or.inr ⟨n, arg', by simp only [Sys.returns, ht, hm], rfl, hmoves⟩

/-- The `recode_none` goes on, or returns. -/
theorem step_moves_none {pc : NonePc} (ht : s.calls .recode = some (.recodeNone pc))
    (hs : s.step (.step .recode) = some s') :
    (s.returns .recode = none ∧ ∃ pc', s'.calls .recode = some (.recodeNone pc') ∧
      pc'.rank < pc.rank) ∨
    ∃ n, s.returns .recode = some (n, none) ∧ s'.calls .recode = none := by
  rw [Sys.step, ht] at hs
  obtain rfl := Option.some.inj hs
  rw [calls_afterNone, Function.update_self]
  cases pc with
  | storeZero size => exact Or.inr ⟨size, by simp only [Sys.returns, ht, noneStep], rfl⟩
  | load | storeIdx | fetchAdd =>
    exact Or.inl ⟨by simp only [Sys.returns, ht, noneStep], _, rfl, by simp [NonePc.rank]⟩

end Moves

/-! ### The runners -/

theorem Draw.sizes_pos (d : Draw) : 0 < d.writeSize ∧ 0 < d.recodeSize ∧ 0 < d.readSize := by
  have hdiv : ∀ k, k < 4 → 0 < cyclicBufferChunkSize / (1 + k) := fun k hk =>
    Nat.div_pos (by unfold cyclicBufferChunkSize; omega) (by omega)
  refine ⟨?_, ?_, ?_⟩
  · unfold Draw.writeSize
    split_ifs
    · exact hdiv _ (Nat.mod_lt _ (by omega))
    · omega
  · unfold Draw.recodeSize
    split_ifs
    · exact hdiv _ ((Nat.mod_lt d.part (by omega : 0 < 2)).trans (by omega))
    · omega
  · unfold Draw.readSize
    split_ifs
    · exact hdiv _ ((Nat.mod_lt d.part (by omega : 0 < 3)).trans (by omega))
    · omega

/-- Where a runner can be; `op` is its call. -/
def Runner.Wired (T : TestData) (op : Option Op) (r : Runner) : Prop :=
  match r.pc with
  | .test => op = none
  | .stage | .call => op = none ∧ r.bIdx < T.dataSize
  | .calling => r.bIdx < T.dataSize ∧ ∃ arg pc, op = some (.call arg pc) ∧ 0 < pc.size
  | .done => op = none ∧ T.dataSize ≤ r.bIdx

namespace Runner.Wired

variable {T : TestData} {r : Runner} {s s' : Sys} {t : Stage}

theorem head {op : Option Op} (h : r.Wired T op) (hpc : r.pc = .test ∨ r.pc = .stage)
    (stage : ℕ) : (r.head T.dataSize stage).Wired T op := by
  unfold Runner.Wired at h
  rcases hpc with hpc | hpc
  · simp only [Runner.head, hpc] at h ⊢
    by_cases hlt : r.bIdx < T.dataSize
    · simp only [Runner.Wired, if_pos hlt]
      exact ⟨h, hlt⟩
    · simp only [Runner.Wired, if_neg hlt]
      exact ⟨h, Nat.not_lt.mp hlt⟩
  · simp only [Runner.head, hpc] at h ⊢
    by_cases hlt : stage < 1
    · simp only [Runner.Wired, if_pos hlt]
      exact h.1
    · simp only [Runner.Wired, if_neg hlt]
      exact h

theorem invoke (h : r.Wired T (s.calls t)) (hpc : r.pc = .call) {arg : Option Region} {size : ℕ}
    (hsize : 0 < size)
    (hs : s.invoke t (.call arg (.load (min size (T.dataSize - r.bIdx)))) = some s') :
    Runner.Wired T (s'.calls t) { r with pc := .calling } := by
  simp only [Runner.Wired, hpc] at h
  rw [calls_invoke hs, Function.update_self]
  refine ⟨h.2, _, _, rfl, ?_⟩
  have : 0 < T.dataSize - r.bIdx := Nat.sub_pos_of_lt h.2
  exact Nat.lt_min.mpr ⟨hsize, this⟩

theorem step (h : r.Wired T (s.calls t)) (hpc : r.pc = .calling) (hwf : s.WellFormed)
    (hs : s.step (.step t) = some s') : (r.after (s.returns t)).Wired T (s'.calls t) := by
  simp only [Runner.Wired, hpc] at h
  obtain ⟨hlt, arg, pc, hop, hpos⟩ := h
  rcases step_moves hwf hop hs with ⟨hret, arg', pc', hc, hm⟩ | ⟨n, arg', hret, hc, -⟩
  · obtain ⟨-, hpos', -⟩ := hm
    rw [hret, hc]
    simp only [Runner.after, Runner.Wired, hpc]
    exact ⟨hlt, arg', pc', rfl, hpos' hpos⟩
  · rw [hret, hc]
    rfl

end Runner.Wired

/-! ### The recoder -/

/-- Not every byte written to `mask_buf` was drained. -/
def Sys.Unread (mask : Sys) (drained : ℕ) : Prop := drained < (mask.stream .write).length

/-- Every byte written to `mask_buf` is recoded. -/
def Sys.Caught (mask : Sys) : Prop := (mask.stream .recode).length = (mask.stream .write).length

def XorBufPc.Wired (mask : Sys) (drained : ℕ) : XorBufPc → Prop
  | .loadRecode => mask.Unread drained ∧ mask.Caught
  | .loadMask availableToRecode => 0 < availableToRecode ∧ mask.Unread drained ∧ mask.Caught
  | .xor _ _ _ second pc => 0 < pc.size ∧ ∀ n, second = some n → 0 < n
  | .storeIdx _ _ | .fetchAdd _ | .fetchSub _ => True

/-- Where the recoder can be; `xpc` is its call of `cyclic_buffer_recode_xor_buf`. -/
def Recoder.Wired (mask : Sys) (drained : ℕ) (xpc : Option XorBufPc) (r : Recoder) : Prop :=
  match r.pc with
  | .test | .stage | .write | .advance | .done => xpc = none
  | .writing => xpc = none ∧ ∃ src pc, mask.calls .write = some (.call src pc) ∧ 0 < pc.size ∧
      drained + pc.got ≤ (mask.stream .write).length
  | .none => xpc = none ∧ mask.Unread drained
  | .passing => xpc = none ∧ mask.Unread drained ∧
      ∃ pc, mask.calls .recode = some (.recodeNone pc) ∧ (pc ≠ .load → mask.Caught)
  | .xor => xpc = none ∧ mask.Unread drained ∧ mask.Caught
  | .xoring => ∃ pc, xpc = some pc ∧ pc.Wired mask drained

section MaskBuf

variable {s : XorSys} {pos posm : Stage → ℕ} {M : List UInt8}

theorem XorSys.Inv.drained_le (h : s.Inv pos posm M) :
    s.history.drained ≤ posm .write ∧ posm .write ≤ (s.mask.stream .write).length := by
  have hb := h.mask.streams.piped.balanced
  have h1 := hb.held_read
  have h2 := hb.held_recode
  have h3 := h.mask.streams.piped.written
  have h4 := h.drained
  omega

/-- A full `xor_buf` has bytes that were not drained. -/
theorem XorSys.Inv.unread_of_full (h : s.Inv pos posm M) {src : Option Region} {max : ℕ}
    (hop : s.mask.calls .write = some (.call src (.load max)))
    (hfull : s.mask.buf.available .write = 0) : s.mask.Unread s.history.drained := by
  have hb := h.mask.streams.piped.balanced
  have hcredit := hb.credit_write
  rw [Function.update_of_ne (by simp), Sys.phase, hop, hfull] at hcredit
  have hcredit' : 0 + posm .write = posm .read + s.mask.buf.totalSize + 0 := hcredit
  have hle := h.drained_le
  have hpos := hb.sized.pos
  have hdrained := h.drained
  unfold Sys.Unread
  omega

/-- Once `available_to_recode` is loaded, `recode_none` takes every byte there is. -/
theorem XorSys.Inv.caught_of_load (h : s.Inv pos posm M) (hw : s.mask.calls .write = none)
    (hop : s.mask.calls .recode = some (.recodeNone .load)) :
    (s.mask.stream .recode).length + s.mask.buf.available .recode =
      (s.mask.stream .write).length := by
  have hcredit := h.mask.streams.piped.balanced.credit_recode
  have hwritten := h.mask.streams.piped.written
  have hmasked := h.mask.streams.length_masked
  rw [Function.update_of_ne (by simp), Sys.phase, hop] at hcredit
  rw [Function.update_of_ne (by simp), Sys.done, hw] at hwritten
  rw [Function.update_of_ne (by simp), Sys.done, hop] at hmasked
  have hcredit' : s.mask.buf.available .recode + posm .recode + 0 = posm .write + 0 := hcredit
  have hwritten' : (s.mask.stream .write).length = posm .write + 0 := hwritten
  have hmasked' : (s.mask.stream .recode).length = posm .recode + 0 := hmasked
  omega

/-- With every byte recoded and one not drained there is a mask byte to read. -/
theorem XorSys.Inv.readable (h : s.Inv pos posm M) (hw : s.mask.calls .write = none)
    (hr : s.mask.calls .recode = none) (hphase : s.pc.maskPc.phase = .idle)
    (hunread : s.mask.Unread s.history.drained) (hcaught : s.mask.Caught) :
    s.mask.buf.available .read ≠ 0 := by
  have hcredit := h.mask.streams.piped.balanced.credit_read
  have hwritten := h.mask.streams.piped.written
  have hmasked := h.mask.streams.length_masked
  rw [Function.update_self, hphase] at hcredit
  rw [Function.update_of_ne (by simp), Sys.done, hw] at hwritten
  rw [Function.update_of_ne (by simp), Sys.done, hr] at hmasked
  have hcredit' : s.mask.buf.available .read + posm .read = posm .recode + 0 := hcredit
  have hwritten' : (s.mask.stream .write).length = posm .write + 0 := hwritten
  have hmasked' : (s.mask.stream .recode).length = posm .recode + 0 := hmasked
  have hdrained := h.drained
  unfold Sys.Unread at hunread
  unfold Sys.Caught at hcaught
  omega

/-- Both runs of a wrapped size have bytes. -/
theorem XorSys.Inv.split_wrap (h : s.Inv pos posm M) (hphase : s.pc.maskPc.phase = .idle) {size : ℕ}
    (hle : size ≤ s.mask.buf.available .read)
    (hwrap : s.mask.buf.totalSize < u32Add (s.mask.buf.idx .read) size) :
    0 < (s.mask.buf.split .read size).first ∧ 0 < (s.mask.buf.split .read size).second ∧
      (s.mask.buf.split .read size).first + (s.mask.buf.split .read size).second = size := by
  have hb := h.mask.streams.piped.balanced
  have hle' := hb.available_le_of_idle ((Function.update_self ..).trans hphase)
  have hlt := hb.idx_lt .read
  have hsize : size ≤ s.mask.buf.totalSize := hle.trans hle'
  rw [u32Add_eq (hb.idx_add_lt .read hsize)] at hwrap
  rw [CyclicBuffer.split_eq hb.sized hlt hsize, if_pos hwrap]
  refine ⟨Nat.sub_pos_of_lt hlt, Nat.sub_pos_of_lt hwrap, ?_⟩
  dsimp only
  omega

end MaskBuf

/-- A step of `cyclic_buffer_recode_xor_buf`. -/
theorem XorSys.Inv.wired_recoderStep {s : XorSys} {pos posm : Stage → ℕ} {M : List UInt8}
    (h : s.Inv pos posm M) {pc pc' : XorBufPc} (hpc : s.recoder = some pc)
    (hw : pc.Wired s.mask s.history.drained) (hnext : (s.recoderStep pc).recoder = some pc') :
    pc'.Wired (s.recoderStep pc).mask (s.recoderStep pc).history.drained := by
  have hs : s.pc = pc := by rw [XorSys.pc, hpc]; rfl
  rw [h.recoderStep_eq hs] at hnext ⊢
  cases pc with
  | loadRecode =>
    by_cases hz : s.data.buf.available .recode = 0
    · simp [XorSys.recoderStep, xorBufStep, hz] at hnext
    · simp only [XorSys.recoderStep, xorBufStep, if_neg hz, Option.some.injEq] at hnext ⊢
      obtain rfl := hnext
      exact ⟨Nat.pos_of_ne_zero hz, hw⟩
  | loadMask a =>
    by_cases hz : s.mask.buf.available .read = 0
    · simp [XorSys.recoderStep, xorBufStep, hz] at hnext
    · have hphase : s.pc.maskPc.phase = .idle := by rw [hs]; rfl
      have hpos : 0 < min a (s.mask.buf.available .read) :=
        Nat.lt_min.mpr ⟨hw.1, Nat.pos_of_ne_zero hz⟩
      simp only [XorSys.recoderStep, xorBufStep, if_neg hz] at hnext ⊢
      split_ifs at hnext with hwrap
      · obtain ⟨h1, h2, -⟩ := h.split_wrap hphase (Nat.min_le_right _ _) hwrap
        obtain rfl := Option.some.inj hnext
        exact ⟨h1, fun n hn => Option.some.inj hn ▸ h2⟩
      · obtain rfl := Option.some.inj hnext
        exact ⟨hpos, fun n hn => absurd hn (by simp)⟩
  | xor size nextIdx off second pc =>
    have hinner := h.inner
    rw [hs] at hinner
    have hmoves := callStep_moves (hinner fun k => s.mask.buf.dataPtr (off + k))
    obtain rfl := Option.some.inj hnext
    change (afterXor size nextIdx off second (callStep .recode s.data.buf
      (s.mask.buf.maskAt off) pc).2.2).Wired _ _
    unfold CyclicBuffer.maskAt
    generalize (callStep .recode s.data.buf (some fun k => s.mask.buf.dataPtr (off + k)) pc).2.2 = c
      at hmoves ⊢
    cases c with
    | goto pc' =>
      obtain ⟨-, hpos, -⟩ := hmoves
      exact ⟨hpos hw.1, hw.2⟩
    | ret n =>
      cases second with
      | none => exact trivial
      | some n' => exact ⟨hw.2 n' rfl, fun m hm => absurd hm (by simp)⟩
  | storeIdx size nextIdx =>
    obtain rfl := Option.some.inj hnext
    exact trivial
  | fetchAdd size =>
    obtain rfl := Option.some.inj hnext
    exact trivial
  | fetchSub size => exact absurd hnext (by simp [XorSys.recoderStep, xorBufStep])

/-- A step of the write that fills `xor_buf`. -/
theorem wired_writing {s : XorSys} {pos posm : Stage → ℕ} {M : List UInt8} (hi : s.Inv pos posm M)
    {K : Region} {B room : ℕ} (hfeeds : s.mask.Feeds K B room) {r : Recoder} {mask : Sys}
    (hpc : r.pc = .writing) (hw : r.Wired s.mask s.history.drained s.recoder)
    (hs : s.mask.step (.step .write) = some mask) :
    (r.afterFill (s.mask.returns .write)).Wired mask s.history.drained s.recoder := by
  simp only [Recoder.Wired, hpc] at hw
  obtain ⟨hnone, src, pc, hop, hpos, hgot⟩ := hw
  have hstream := hfeeds.stream
  rw [hop] at hstream
  have hB : s.history.drained ≤ B := by
    have hlen := congrArg List.length hstream
    rw [length_bytes] at hlen
    have hlen' : (s.mask.stream .write).length = B + pc.got := hlen
    omega
  have hmoves := step_moves hi.mask.toWellFormed hop hs
  rcases hfeeds.step hi.mask.toWellFormed hs with ⟨hret, hf⟩ | ⟨n, arg, hret, -, hc, hf⟩
  · rcases hmoves with ⟨-, arg', pc', hc, hm⟩ | ⟨n, arg', hret', -, -⟩
    · obtain ⟨-, hpos', -⟩ := hm
      have hst := hf.stream
      rw [hc] at hst
      rw [hret]
      simp only [Recoder.afterFill, Recoder.Wired, hpc]
      refine ⟨hnone, arg', pc', hc, hpos' hpos, ?_⟩
      rw [hst, length_bytes]
      exact Nat.add_le_add_right hB _
    · rw [hret] at hret'
      exact absurd hret' (by simp)
  · rw [hret]
    simp only [Recoder.afterFill, Recoder.Wired, hpc]
    refine ⟨hnone, ?_⟩
    have hst := (hf 0).stream
    rw [hc] at hst
    have hlen : (mask.stream .write).length = B + n := by
      rw [hst, length_bytes]
      rfl
    unfold Sys.Unread
    rcases hmoves with ⟨hret', -⟩ | ⟨n', arg', hret', -, hm⟩
    · rw [hret] at hret'
      exact absurd hret' (by simp)
    · obtain ⟨rfl, -⟩ := Prod.mk.inj (Option.some.inj (hret.symm.trans hret'))
      cases hm with
      | ret n =>
        have hpos' : 0 < n := hpos
        omega
      | empty hfull =>
        -- nothing was written, so nothing fits
        have hunread := hi.unread_of_full hop hfull
        have hlen' := congrArg List.length hstream
        rw [length_bytes] at hlen'
        have hlen'' : (s.mask.stream .write).length = B + 0 := hlen'
        unfold Sys.Unread at hunread
        omega

/-- A step of its `recode_none`. -/
theorem wired_passing {s : XorSys} {pos posm : Stage → ℕ} {M : List UInt8} (hi : s.Inv pos posm M)
    {r : Recoder} {mask : Sys} (hpc : r.pc = .passing) (hidle : s.mask.calls .write = none)
    (hw : r.Wired s.mask s.history.drained s.recoder)
    (hs : s.mask.step (.step .recode) = some mask) :
    (r.afterFill (s.mask.returns .recode)).Wired mask s.history.drained s.recoder := by
  simp only [Recoder.Wired, hpc] at hw
  obtain ⟨hnone, hunread, pc, hop, hcaught⟩ := hw
  rw [Sys.step, hop] at hs
  obtain rfl := Option.some.inj hs
  obtain ⟨hst, hmasked⟩ := stream_afterNone hop
  have hunread' : (s.mask.afterNone .recode (noneStep s.mask.buf pc)).Unread s.history.drained := by
    unfold Sys.Unread
    rw [hst]
    exact hunread
  have hcaught' : (s.mask.afterNone .recode (noneStep s.mask.buf pc)).Caught := by
    unfold Sys.Caught
    rw [hst, hmasked, List.length_append]
    cases pc with
    | load =>
      rw [noneBytes, List.length_replicate]
      exact hi.caught_of_load hidle hop
    | storeIdx | fetchAdd | storeZero => exact hcaught (by simp)
  have hcalls := calls_afterNone (s := s.mask) (t := .recode) (noneStep s.mask.buf pc)
  obtain ⟨m, c, hm⟩ : ∃ m c, noneStep s.mask.buf pc = (m, c) := ⟨_, _, rfl⟩
  rw [hm] at hcalls hunread' hcaught' ⊢
  cases c with
  | goto pc' =>
    have hret : s.mask.returns .recode = none := by simp only [Sys.returns, hop, hm]
    rw [hret]
    simp only [Recoder.afterFill, Recoder.Wired, hpc]
    refine ⟨hnone, hunread', pc', ?_, fun _ => hcaught'⟩
    rw [hcalls, Function.update_self]
  | ret n =>
    have hret : s.mask.returns .recode = some (n, none) := by simp only [Sys.returns, hop, hm]
    rw [hret]
    simp only [Recoder.afterFill, Recoder.Wired, hpc]
    exact ⟨hnone, hunread', hcaught'⟩

/-! ### The invariant -/

/-- `stage`: 0 before the start, 2 once the reader is done. -/
def ThreadTest.Stages (s : ThreadTest) : Prop :=
  if s.started then s.stage = if s.reader.pc = .done then 2 else 1
  else s.stage = 0 ∧ s.reader.bIdx = 0 ∧ (s.reader.pc = .test ∨ s.reader.pc = .stage)

namespace ThreadTest.Stages

variable {s : ThreadTest}

theorem running (h : s.Stages) (hst : s.started) (hpc : s.reader.pc ≠ .done) : s.stage = 1 := by
  unfold ThreadTest.Stages at h
  rwa [if_pos hst, if_neg hpc] at h

theorem one_le (h : s.Stages) (hst : s.started) : 1 ≤ s.stage := by
  unfold ThreadTest.Stages at h
  rw [if_pos hst] at h
  split_ifs at h <;> omega

theorem waiting (h : s.Stages) (hst : ¬ s.started) :
    s.stage = 0 ∧ s.reader.bIdx = 0 ∧ (s.reader.pc = .test ∨ s.reader.pc = .stage) := by
  unfold ThreadTest.Stages at h
  rwa [if_neg hst] at h

end ThreadTest.Stages

structure ThreadTest.Wired (T : TestData) (s : ThreadTest) : Prop where
  writer : s.writer.Wired T (s.sys.data.calls .write)
  reader : s.reader.Wired T (s.sys.data.calls .read)
  recoder : s.recoder.Wired s.sys.mask s.sys.history.drained s.sys.recoder
  stages : s.Stages
  last : s.recoder.pc = .done → s.reader.pc = .done

namespace ThreadTest.Wired

variable {T : TestData} {s s' : ThreadTest} {d : Draw}

theorem writerStep (h : s.Wired T) (hinv : s.Inv T) (hs : s.writerStep T d = some s') :
    s'.Wired T := by
  have hpos := d.sizes_pos
  unfold ThreadTest.writerStep at hs
  split at hs
  · next hpc =>
    obtain rfl := Option.some.inj hs
    exact ⟨h.writer.head (Or.inl hpc) _, h.reader, h.recoder, h.stages, h.last⟩
  · next hpc =>
    obtain rfl := Option.some.inj hs
    exact ⟨h.writer.head (Or.inr hpc) _, h.reader, h.recoder, h.stages, h.last⟩
  · next hpc =>
    obtain ⟨sys, hsys, rfl⟩ := Option.map_eq_some_iff.mp hs
    obtain ⟨data, hd, rfl⟩ := Option.map_eq_some_iff.mp hsys
    refine ⟨h.writer.invoke hpc hpos.1 hd, ?_, h.recoder, h.stages, h.last⟩
    have hr : data.calls .read = s.sys.data.calls .read := by
      rw [calls_invoke hd, Function.update_of_ne (by simp)]
    simp only [hr]
    exact h.reader
  · next hpc =>
    obtain ⟨sys, hsys, rfl⟩ := Option.map_eq_some_iff.mp hs
    obtain ⟨data, hd, rfl⟩ := Option.map_eq_some_iff.mp hsys
    obtain ⟨pos, posm, M, hi, -⟩ := hinv.sys
    refine ⟨h.writer.step hpc hi.data.toWellFormed hd, ?_, h.recoder, h.stages, h.last⟩
    simp only [calls_step_of_ne (show Stage.read ≠ .write by simp) hd]
    exact h.reader
  · exact absurd hs (by simp)

/-- The reader goes on in its loop. -/
theorem stages_running (h : s.Wired T) (hpc : s.reader.pc = .call ∨ s.reader.pc = .calling)
    {sys : XorSys} {dbuf : Region} {reader : Runner} (hreader : reader.pc ≠ .done) :
    ({ s with sys, dbuf, reader } : ThreadTest).Stages := by
  have hst : s.started := by
    by_contra hst
    obtain ⟨-, -, ht⟩ := h.stages.waiting hst
    rcases hpc with hpc | hpc <;> rw [hpc] at ht <;> simp at ht
  have hrun := h.stages.running hst (by rcases hpc with hpc | hpc <;> simp [hpc])
  unfold ThreadTest.Stages
  rw [if_pos hst, if_neg hreader]
  exact hrun

theorem readerStep (h : s.Wired T) (hinv : s.Inv T) (hdata : 0 < T.dataSize)
    (hs : s.readerStep T d = some s') : s'.Wired T := by
  have hpos := d.sizes_pos
  have hlast : s.reader.pc ≠ .done → ∀ {P : Prop}, s.recoder.pc = .done → P :=
    fun hne _ hdone => absurd (h.last hdone) hne
  unfold ThreadTest.readerStep at hs
  split at hs
  · next hpc =>
    obtain rfl := Option.some.inj hs
    refine ⟨h.writer, h.reader.head (Or.inl hpc) _, h.recoder, ?_, hlast (by simp [hpc])⟩
    by_cases hst : s.started
    · have hrun := h.stages.running hst (by simp [hpc])
      by_cases hlt : s.reader.bIdx < T.dataSize <;>
        simp [ThreadTest.Stages, Runner.head, hpc, hst, hlt, hrun]
    · obtain ⟨h0, hb, -⟩ := h.stages.waiting hst
      simp [ThreadTest.Stages, Runner.head, hpc, hst, hb, hdata, h0]
  · next hpc =>
    obtain rfl := Option.some.inj hs
    refine ⟨h.writer, h.reader.head (Or.inr hpc) _, h.recoder, ?_, hlast (by simp [hpc])⟩
    by_cases hst : s.started
    · have hrun := h.stages.running hst (by simp [hpc])
      simp [ThreadTest.Stages, Runner.head, hpc, hst, hrun]
    · obtain ⟨h0, hb, -⟩ := h.stages.waiting hst
      simp [ThreadTest.Stages, Runner.head, hpc, hst, hb, h0]
  · next hpc =>
    obtain ⟨sys, hsys, rfl⟩ := Option.map_eq_some_iff.mp hs
    obtain ⟨data, hd, rfl⟩ := Option.map_eq_some_iff.mp hsys
    refine ⟨?_, h.reader.invoke hpc hpos.2.2 hd, h.recoder, h.stages_running (Or.inl hpc) (by simp),
      hlast (by simp [hpc])⟩
    have hw : data.calls .write = s.sys.data.calls .write := by
      rw [calls_invoke hd, Function.update_of_ne (by simp)]
    simp only [hw]
    exact h.writer
  · next hpc =>
    obtain ⟨sys, hsys, rfl⟩ := Option.map_eq_some_iff.mp hs
    obtain ⟨data, hd, rfl⟩ := Option.map_eq_some_iff.mp hsys
    obtain ⟨pos, posm, M, hi, -⟩ := hinv.sys
    refine ⟨?_, h.reader.step hpc hi.data.toWellFormed hd, h.recoder,
      h.stages_running (Or.inr hpc) ?_, hlast (by simp [hpc])⟩
    · simp only [calls_step_of_ne (show Stage.write ≠ .read by simp) hd]
      exact h.writer
    · unfold Runner.after
      split
      · simp [hpc]
      · simp
  · exact absurd hs (by simp)

/-! ### The program points of the recoder -/

/-- The recoder leaves its loop only when the reader is done. -/
theorem recoder_test (h : s.Wired T) (hpc : s.recoder.pc = .test)
    (hs : s.recoderStep T d = some s') : s'.Wired T := by
  have hr := h.recoder
  simp only [Recoder.Wired, hpc] at hr
  simp only [ThreadTest.recoderStep, hpc] at hs
  obtain rfl := Option.some.inj hs
  by_cases hlt : s.stage < 2
  · refine ⟨h.writer, h.reader, ?_, h.stages, by simp [hlt]⟩
    simp only [Recoder.Wired, if_pos hlt]
    exact hr
  · refine ⟨h.writer, h.reader, ?_, h.stages, fun _ => ?_⟩
    · simp only [Recoder.Wired, if_neg hlt]
      exact hr
    · by_contra hdone
      by_cases hst : s.started
      · have := h.stages.running hst hdone
        omega
      · have := (h.stages.waiting hst).1
        omega

theorem recoder_stage (h : s.Wired T) (hpc : s.recoder.pc = .stage)
    (hs : s.recoderStep T d = some s') : s'.Wired T := by
  have hr := h.recoder
  simp only [Recoder.Wired, hpc] at hr
  simp only [ThreadTest.recoderStep, hpc] at hs
  obtain rfl := Option.some.inj hs
  refine ⟨h.writer, h.reader, ?_, h.stages, ?_⟩
  · by_cases hlt : s.stage < 1 <;> simp only [Recoder.Wired, hlt, if_true, if_false] <;> exact hr
  · by_cases hlt : s.stage < 1 <;> simp [hlt]

/-- The write to the mask is of at least one byte. -/
theorem recoder_write (h : s.Wired T) (hinv : s.Inv T) (hpc : s.recoder.pc = .write)
    (hs : s.recoderStep T d = some s') : s'.Wired T := by
  have hpos := d.sizes_pos
  have hr := h.recoder
  obtain ⟨pos, posm, M, hi, -⟩ := hinv.sys
  obtain ⟨B, hfeeds, hplace, -⟩ := hinv.keying.feeds
  simp only [Recoder.Wired, hpc] at hr
  simp only [ThreadTest.recoderStep, hpc] at hs
  obtain ⟨sys, hsys, rfl⟩ := Option.map_eq_some_iff.mp hs
  simp only [XorSys.step] at hsys
  split_ifs at hsys
  obtain ⟨mask, hm, rfl⟩ := Option.map_eq_some_iff.mp hsys
  have hcall := (congrFun (calls_invoke hm) .write).trans (Function.update_self ..)
  refine ⟨h.writer, h.reader, ⟨hr, _, _, hcall, ?_, ?_⟩, h.stages, by simp⟩
  · exact Nat.lt_min.mpr ⟨hpos.2.1, Nat.sub_pos_of_lt hplace⟩
  · rw [stream_invoke rfl hm]
    exact hi.drained_le.1.trans hi.drained_le.2

theorem recoder_writing (h : s.Wired T) (hinv : s.Inv T) (hpc : s.recoder.pc = .writing)
    (hs : s.recoderStep T d = some s') : s'.Wired T := by
  have hr := h.recoder
  obtain ⟨pos, posm, M, hi, -⟩ := hinv.sys
  obtain ⟨B, hfeeds, -⟩ := hinv.keying.feeds
  simp only [ThreadTest.recoderStep, hpc] at hs
  obtain ⟨sys, hsys, rfl⟩ := Option.map_eq_some_iff.mp hs
  obtain ⟨mask, hm, rfl⟩ := Option.map_eq_some_iff.mp hsys
  obtain ⟨src, pc, hop, -⟩ : ∃ src pc, s.sys.mask.calls .write = some (.call src pc) ∧ _ := by
    have hr' := hr
    simp only [Recoder.Wired, hpc] at hr'
    exact hr'.2
  have hst : s.sys.fillerStage = .write := by simp [XorSys.fillerStage, hop]
  rw [hst] at hm ⊢
  refine ⟨h.writer, h.reader, wired_writing hi hfeeds hpc hr hm, h.stages, ?_⟩
  unfold Recoder.afterFill
  split <;> simp [hpc]

/-- What the write left unread is there for the `recode_none`. -/
theorem recoder_none (h : s.Wired T) (hpc : s.recoder.pc = .none)
    (hs : s.recoderStep T d = some s') : s'.Wired T := by
  have hr := h.recoder
  simp only [Recoder.Wired, hpc] at hr
  simp only [ThreadTest.recoderStep, hpc] at hs
  obtain ⟨sys, hsys, rfl⟩ := Option.map_eq_some_iff.mp hs
  simp only [XorSys.step] at hsys
  split_ifs at hsys
  obtain ⟨mask, hm, rfl⟩ := Option.map_eq_some_iff.mp hsys
  have hcall := (congrFun (calls_invoke hm) .recode).trans (Function.update_self ..)
  refine ⟨h.writer, h.reader, ⟨hr.1, ?_, .load, hcall, fun hne => absurd rfl hne⟩, h.stages,
    by simp⟩
  unfold Sys.Unread
  rw [stream_invoke rfl hm]
  exact hr.2

theorem recoder_passing (h : s.Wired T) (hinv : s.Inv T) (hpc : s.recoder.pc = .passing)
    (hs : s.recoderStep T d = some s') : s'.Wired T := by
  have hr := h.recoder
  have hfills := hinv.keying.fills
  obtain ⟨pos, posm, M, hi, -⟩ := hinv.sys
  simp only [ThreadTest.recoderStep, hpc] at hs
  obtain ⟨sys, hsys, rfl⟩ := Option.map_eq_some_iff.mp hs
  obtain ⟨mask, hm, rfl⟩ := Option.map_eq_some_iff.mp hsys
  simp only [Recoder.Fills, hpc] at hfills
  have hst : s.sys.fillerStage = .recode := by simp [XorSys.fillerStage, hfills.1]
  rw [hst] at hm ⊢
  refine ⟨h.writer, h.reader, wired_passing hi hpc hfills.1 hr hm, h.stages, ?_⟩
  unfold Recoder.afterFill
  split <;> simp [hpc]

theorem recoder_xor (h : s.Wired T) (hpc : s.recoder.pc = .xor)
    (hs : s.recoderStep T d = some s') : s'.Wired T := by
  have hr := h.recoder
  simp only [Recoder.Wired, hpc] at hr
  simp only [ThreadTest.recoderStep, hpc] at hs
  obtain ⟨sys, hsys, rfl⟩ := Option.map_eq_some_iff.mp hs
  simp only [XorSys.step] at hsys
  split_ifs at hsys
  obtain rfl := Option.some.inj hsys
  exact ⟨h.writer, h.reader, ⟨.loadRecode, rfl, hr.2⟩, h.stages, by simp⟩

/-- A step of `recode_xor_buf`, the last one included. -/
theorem recoder_xoring (h : s.Wired T) (hinv : s.Inv T) (hpc : s.recoder.pc = .xoring)
    (hs : s.recoderStep T d = some s') : s'.Wired T := by
  have hr := h.recoder
  obtain ⟨pos, posm, M, hi, -⟩ := hinv.sys
  simp only [Recoder.Wired, hpc] at hr
  simp only [ThreadTest.recoderStep, hpc] at hs
  obtain ⟨sys, hsys, rfl⟩ := Option.map_eq_some_iff.mp hs
  obtain ⟨pc, hop, hw⟩ := hr
  rw [XorSys.step, hop] at hsys
  obtain rfl := Option.some.inj hsys
  have hnext : ∀ pc', (s.sys.recoderStep pc).recoder = some pc' → _ :=
    fun pc' => hi.wired_recoderStep hop hw
  refine ⟨h.writer, h.reader, ?_, h.stages, ?_⟩
  · cases hrec : (s.sys.recoderStep pc).recoder with
    | none =>
      simp only [Recoder.Wired, Option.isNone_none, if_true]
    | some pc' =>
      simp only [Recoder.Wired, Option.isNone_some, Bool.false_eq_true, if_false]
      exact ⟨pc', rfl, hnext pc' hrec⟩
  · split_ifs <;> simp

theorem recoder_advance (h : s.Wired T) (hpc : s.recoder.pc = .advance)
    (hs : s.recoderStep T d = some s') : s'.Wired T := by
  have hr := h.recoder
  simp only [Recoder.Wired, hpc] at hr
  simp only [ThreadTest.recoderStep, hpc] at hs
  obtain rfl := Option.some.inj hs
  exact ⟨h.writer, h.reader, hr, h.stages, by simp⟩

theorem recoderStep (h : s.Wired T) (hinv : s.Inv T) (hs : s.recoderStep T d = some s') :
    s'.Wired T := by
  cases hpc : s.recoder.pc with
  | test => exact h.recoder_test hpc hs
  | stage => exact h.recoder_stage hpc hs
  | write => exact h.recoder_write hinv hpc hs
  | writing => exact h.recoder_writing hinv hpc hs
  | none => exact h.recoder_none hpc hs
  | passing => exact h.recoder_passing hinv hpc hs
  | xor => exact h.recoder_xor hpc hs
  | xoring => exact h.recoder_xoring hinv hpc hs
  | advance => exact h.recoder_advance hpc hs
  | done => simp [ThreadTest.recoderStep, hpc] at hs

/-! ### Every step -/

/-- **Step lemma.** -/
theorem step (h : s.Wired T) (hinv : s.Inv T) (hdata : 0 < T.dataSize) {e : ThreadEvent}
    (hs : s.step T e = some s') : s'.Wired T := by
  cases e with
  | go =>
    simp only [ThreadTest.step] at hs
    split_ifs at hs with hst
    obtain rfl := Option.some.inj hs
    obtain ⟨-, -, hpc⟩ := h.stages.waiting hst
    refine ⟨h.writer, h.reader, h.recoder, ?_, h.last⟩
    rcases hpc with hpc | hpc <;> simp [ThreadTest.Stages, hpc]
  | writer d => exact h.writerStep hinv hs
  | reader d => exact h.readerStep hinv hdata hs
  | recoder d => exact h.recoderStep hinv hs

end ThreadTest.Wired

theorem ThreadTest.Wired.start (T : TestData) (buf xorBuf : CyclicBuffer) (dbuf : Region) :
    (ThreadTest.start buf xorBuf dbuf).Wired T :=
  ⟨rfl, rfl, rfl, ⟨rfl, rfl, Or.inl rfl⟩, fun h => absurd h (by simp [ThreadTest.start])⟩

end Cryptochan
