import Cryptochan.Buffer.Interleaved
import Cryptochan.Buffer.Keystream

/-!
# Cryptochan.Buffer.Received — what the reader of an enciphered buffer gets

`Buffer.Keystream` follows the bytes up to the moment they become readable in `buf`.  Here the reader
is added: the bytes it was given, those of a read in progress included, are the beginning of the bytes
made readable (`XorSys.Delivers`), so the whole way from the writer to the reader, past a recoder that
draws on `mask_buf`, delivers the plain stream XOR the key stream, whatever the interleaving of the
four threads (`recodeXorBuf_delivers`).
-/

namespace Cryptochan

open Circular CreditRing

/-- The reads so far have delivered the beginning of the bytes made readable. -/
structure XorSys.Delivers (s : XorSys) (pos : Stage → ℕ) : Prop where
  copies : ∀ arg pc, s.data.calls .read = some (.call arg pc) → arg.isSome
  beginning : s.data.delivering <+: s.history.recoded
  length : s.data.delivering.length = pos .read + s.data.done .read

/-- Every read has a destination. -/
def XorEvent.ReadsInto : XorEvent → Prop
  | .read dest _ => dest.isSome
  | _ => True

namespace XorSys.Delivers

variable {s s' : XorSys} {pos pos' posm : Stage → ℕ} {M : List UInt8}

/-- The reader starts a call, or the writer: nothing is delivered. -/
theorem invoke (h : s.Delivers pos) {t : Stage} {arg : Option Region} {max : ℕ} {data : Sys}
    (ha : t = .read → arg.isSome) (hs : s.data.invoke t (.call arg (.load max)) = some data) :
    ({ s with data } : XorSys).Delivers pos := by
  unfold Sys.invoke at hs
  split_ifs at hs with hc
  obtain rfl := Option.some.inj hs
  rw [Option.isNone_iff_eq_none] at hc
  have hd : ({ s.data with calls := Function.update s.data.calls t (some (.call arg (.load max))) } :
      Sys).delivering = s.data.delivering := by
    rcases eq_or_ne t .read with rfl | hne
    · cases arg <;> simp [Sys.delivering, hc, CallPc.got]
    · simp [Sys.delivering, hne.symm]
  refine ⟨?_, ?_, ?_⟩
  · intro arg' pc' hu
    rcases eq_or_ne t .read with rfl | hne
    · simp only [Function.update_self, Option.some.injEq, Op.call.injEq] at hu
      exact hu.1 ▸ ha rfl
    · exact h.copies arg' pc' ((Function.update_of_ne hne.symm _ _).symm.trans hu)
  · rw [hd]
    exact h.beginning
  · rw [hd, done_invoke hc rfl]
    exact h.length

/-- A step of the writer. -/
theorem writer (h : s.Delivers pos) {arg : Option Region} {pc : CallPc} :
    ({ s with data := s.data.afterCall .write (callStep .write s.data.buf arg pc) } :
      XorSys).Delivers (pc.advance .write pos) := by
  refine ⟨?_, ?_, ?_⟩
  · intro arg' pc' hu
    rw [calls_afterCall, Function.update_of_ne (by simp)] at hu
    exact h.copies _ _ hu
  · rw [Sys.delivering_afterCall_of_ne (by simp)]
    exact h.beginning
  · rw [Sys.delivering_afterCall_of_ne (by simp), done_afterCall, Function.update_of_ne (by simp),
      pc.advance_of_ne (by simp)]
    exact h.length

/-- A step of the reader: the byte it copies is the next one made readable. -/
theorem reader (h : s.Delivers pos) (hi : s.Inv pos posm M) {arg : Option Region} {pc : CallPc}
    (ht : s.data.calls .read = some (.call arg pc)) :
    ({ s with data := s.data.afterCall .read (callStep .read s.data.buf arg pc) } :
      XorSys).Delivers (pc.advance .read pos) := by
  obtain ⟨r, rfl⟩ := Option.isSome_iff_exists.mp (h.copies _ _ ht)
  have hok := hi.data.ok _ _ _ ht
  obtain ⟨r', hr', hgot⟩ := callStep_read hok
  have hD : s.data.delivering = s.data.history.delivered ++ bytes r pc.got := by
    rw [Sys.delivering, ht]
  have hD' : (s.data.afterCall .read (callStep .read s.data.buf (some r) pc)).delivering =
      s.data.delivering ++ readBytes s.data.buf pc := by
    have e : callStep .read s.data.buf (some r) pc = ((callStep .read s.data.buf (some r) pc).1,
        some r', (callStep .read s.data.buf (some r) pc).2.2) := Prod.ext rfl (Prod.ext hr' rfl)
    rw [e, Sys.delivering_afterCall_read, hgot, hD, List.append_assoc]
  have hat := hi.data.callAt ht
  have hdone : s.data.done .read = pc.done := by
    have := hat.done
    rwa [Function.update_of_ne (by simp)] at this
  have hlen := h.length
  rw [hdone] at hlen
  refine ⟨?_, ?_, ?_⟩
  · intro arg' pc' hu
    rw [calls_afterCall, Function.update_self] at hu
    split at hu
    · obtain ⟨rfl, rfl⟩ := Op.call.inj (Option.some.inj hu)
      rw [hr']
      rfl
    · exact absurd hu (by simp)
  · rw [hD']
    cases pc with
    | copy size nextIdx k =>
      obtain ⟨hlt, hcell⟩ := hi.data.streams.piped.get hat.phase hok.2.1
      have hheld := hi.data.streams.piped.balanced.held_read
      rw [hat.phase] at hheld
      have hk : pos .read + k = s.data.delivering.length := hlen.symm
      have hsize : pos .read + size ≤ pos .recode := hheld
      have hltR : s.data.delivering.length < s.history.recoded.length := by
        rw [hi.recoded, List.length_take]
        have := hok.2.1
        omega
      have hR : s.history.recoded[s.data.delivering.length] =
          (xorStream (s.data.stream .write) M)[pos .read + k] := by
        simp only [hi.recoded, List.getElem_take, hk]
      simp only [readBytes, hcell, ← hR]
      exact prefix_snoc h.beginning hltR
    | load | storeIdx | fetchAdd | fetchSub => simpa [readBytes] using h.beginning
  · rw [hD', List.length_append, hlen, done_afterCall, Function.update_self]
    cases pc with
    | load max =>
      by_cases hz : s.data.buf.available .read = 0
      · simp [callStep, hz, readBytes, CallPc.advance, Cont.done, CallPc.done]
      · simp only [callStep, if_neg hz, Cont.done, done_copyFrom (Nat.zero_le _)]
        rfl
    | copy size nextIdx k =>
      simp only [callStep, Cont.done, done_copyFrom hok.2.1]
      rfl
    | storeIdx size nextIdx => rfl
    | fetchAdd size => simp [callStep, CallPc.advance, Cont.done, CallPc.done, readBytes]
    | fetchSub size => rfl

/-- A step that leaves the calls on `buf` alone. -/
theorem frame (h : s.Delivers pos) (hcalls : s'.data.calls = s.data.calls)
    (hhist : s'.data.history = s.data.history) (hrec : s.history.recoded <+: s'.history.recoded)
    (hpos : pos' .read = pos .read) : s'.Delivers pos' := by
  have hd : s'.data.delivering = s.data.delivering := by
    unfold Sys.delivering
    rw [hcalls, hhist]
  have hdone : s'.data.done = s.data.done := by
    unfold Sys.done
    rw [hcalls]
  refine ⟨?_, ?_, ?_⟩
  · rw [hcalls]
    exact h.copies
  · rw [hd]
    exact h.beginning.trans hrec
  · rw [hd, hdone, hpos]
    exact h.length

end XorSys.Delivers

/-! ### Steps -/

section Step

variable {s s' : XorSys} {pos posm : Stage → ℕ} {M : List UInt8}

/-- A step of the recoder reads nothing. -/
theorem XorSys.Inv.recoderStep_read (h : s.Inv pos posm M) {pc : XorBufPc}
    (hpc : s.recoder = some pc) :
    ∃ pos' posm' M', (s.recoderStep pc).Inv pos' posm' M' ∧ pos' .read = pos .read := by
  cases pc with
  | loadRecode => exact ⟨_, _, _, h.loadRecode hpc, rfl⟩
  | loadMask a => exact ⟨_, _, _, h.loadMask hpc, rfl⟩
  | xor size nextIdx off second pc => exact ⟨_, _, _, h.xor hpc, pc.advance_of_ne (by simp)⟩
  | storeIdx size nextIdx => exact ⟨_, _, _, h.advanceMask hpc (Or.inl ⟨_, _, rfl⟩), rfl⟩
  | fetchAdd size => exact ⟨_, _, _, h.advanceMask hpc (Or.inr (Or.inl ⟨_, rfl⟩)), rfl⟩
  | fetchSub size => exact ⟨_, _, _, h.advanceMask hpc (Or.inr (Or.inr ⟨_, rfl⟩)), rfl⟩

theorem recoded_recoderStep (s : XorSys) (pc : XorBufPc) :
    s.history.recoded <+: (s.recoderStep pc).history.recoded := List.prefix_append _ _

/-- The invariant, with what was delivered. -/
def XorSys.Holds (s : XorSys) : Prop := ∃ pos posm M, s.Inv pos posm M ∧ s.Delivers pos

namespace XorSys.Delivers

/-- The start of a call on `buf`. -/
theorem dataInvoke (h : s.Delivers pos) (hi : s.Inv pos posm M) {t : Stage} {arg : Option Region}
    {max : ℕ} {e : Event} {data : Sys} (ht : t ≠ .recode) (he : e.UsesXor)
    (harg : t = .read → arg.isSome) (hs : s.data.step e = some data)
    (hd : s.data.invoke t (.call arg (.load max)) = some data) :
    ({ s with data } : XorSys).Holds :=
  ⟨_, _, _, hi.dataInvoke ht (hi.xorOnly.step he hs) hd, h.invoke harg hd⟩

/-- A step of a call on `buf`, by cases on whose it is. -/
theorem dataStep (h : s.Delivers pos) (hi : s.Inv pos posm M) {t : Stage} {data : Sys}
    (htr : t ≠ .recode) (hd : s.data.step (.step t) = some data) :
    ({ s with data } : XorSys).Holds := by
  have hx := hi.xorOnly.step (show Event.UsesXor (.step t) from trivial) hd
  rw [Sys.step] at hd
  split at hd
  · exact absurd hd (by simp)
  · next arg pc ht =>
    obtain rfl := Option.some.inj hd
    refine ⟨_, _, _, hi.dataStep htr ht hx, ?_⟩
    cases t with
    | write => exact h.writer
    | recode => exact absurd rfl htr
    | read => exact h.reader hi ht
  · next pc ht => exact absurd ht (hi.xorOnly t pc)

/-- A step that `buf` does not see. -/
theorem ofMask (h : s.Delivers pos) {s1 : XorSys} (hd : s1.data = s.data)
    (hr : s1.history.recoded = s.history.recoded) (h1 : s1.Inv pos posm M) : s1.Holds :=
  ⟨_, _, _, h1, h.frame (by rw [hd]) (by rw [hd]) (hr ▸ List.prefix_refl _) rfl⟩

/-- The start of a call on the mask. -/
theorem fill (h : s.Delivers pos) (hi : s.Inv pos posm M) {c : FillCall}
    (hs : s.step (.fill c) = some s') : s'.Holds := by
  simp only [XorSys.step] at hs
  split_ifs at hs with hidle
  obtain ⟨mask, hm, rfl⟩ := Option.map_eq_some_iff.mp hs
  refine h.ofMask rfl rfl (?_ : XorSys.Inv { s with mask } pos posm M)
  cases c with
  | write src max | recodeXor src max =>
    refine hi.fillInvoke hidle (by simp) rfl rfl ?_ ?_ ?_ hm
    · cases src <;> rfl
    · rintro _ _ ⟨⟩
      exact trivial
    · rintro _ ⟨⟩
  | recodeNone =>
    refine hi.fillInvoke hidle (by simp) rfl rfl rfl ?_ ?_ hm
    · rintro _ _ ⟨⟩
    · rintro _ ⟨⟩
      exact ⟨rfl, rfl⟩

/-- The start of `recode_xor_buf`. -/
theorem recodeXorBuf (h : s.Delivers pos) (hi : s.Inv pos posm M)
    (hs : s.step .recodeXorBuf = some s') : s'.Holds := by
  simp only [XorSys.step] at hs
  split_ifs at hs with hnone
  obtain rfl := Option.some.inj hs
  refine h.ofMask rfl rfl (?_ : XorSys.Inv { s with recoder := some .loadRecode } pos posm M)
  have hpc : s.pc = .loadRecode := by
    rw [XorSys.pc, Option.isNone_iff_eq_none.mp hnone]
    rfl
  have hd := hi.data
  have hm := hi.mask
  have hplace := hi.place
  have hret := hi.returned
  rw [hpc] at hd hm hplace hret
  exact ⟨hd, hi.xorOnly, trivial, hm, trivial, hi.alone, hi.calm, hi.key, hplace, hi.recoded,
    hi.keyed, hi.drained, hret⟩

/-- **Step lemma**: the invariant and what was delivered. -/
theorem step (h : s.Delivers pos) (hi : s.Inv pos posm M) {e : XorEvent} (he : e.ReadsInto)
    (hs : s.step e = some s') : s'.Holds := by
  cases e with
  | write src max =>
    obtain ⟨data, hd, rfl⟩ := Option.map_eq_some_iff.mp hs
    exact h.dataInvoke hi (by simp) (show Event.UsesXor (.write src max) from trivial)
      (fun ht => absurd ht (by simp)) hd hd
  | read dest max =>
    obtain ⟨data, hd, rfl⟩ := Option.map_eq_some_iff.mp hs
    exact h.dataInvoke hi (by simp) (show Event.UsesXor (.read dest max) from trivial)
      (fun _ => he) hd hd
  | fill c => exact h.fill hi hs
  | recodeXorBuf => exact h.recodeXorBuf hi hs
  | writerStep =>
    obtain ⟨data, hd, rfl⟩ := Option.map_eq_some_iff.mp hs
    exact h.dataStep hi (by simp) hd
  | readerStep =>
    obtain ⟨data, hd, rfl⟩ := Option.map_eq_some_iff.mp hs
    exact h.dataStep hi (by simp) hd
  | fillerStep =>
    obtain ⟨posm', h'⟩ := hi.fillerStep hs
    obtain ⟨mask, -, rfl⟩ := Option.map_eq_some_iff.mp hs
    exact h.ofMask rfl rfl h'
  | recoderStep =>
    obtain ⟨pc, hpc, rfl⟩ := Option.map_eq_some_iff.mp hs
    obtain ⟨pos', posm', M', h', hpos⟩ := hi.recoderStep_read hpc
    exact ⟨pos', posm', M', h', h.frame rfl rfl (recoded_recoderStep s pc) hpos⟩

end XorSys.Delivers

/-! ### What the reader gets -/

/-- The recoder is never further in `buf` than the mask bytes that became readable. -/
theorem XorSys.Inv.recode_le (h : s.Inv pos posm M) : pos .recode ≤ posm .recode := by
  have hplace := h.place
  have hheld := h.mask.streams.piped.balanced.held_read
  rw [Function.update_self] at hheld
  cases hpc : s.pc with
  | loadRecode =>
    rw [hpc] at hplace hheld
    have hp : pos .recode = posm .read := hplace
    have hh : posm .read + 0 ≤ posm .recode := hheld
    omega
  | loadMask a =>
    rw [hpc] at hplace hheld
    have hp : pos .recode = posm .read := hplace.1
    have hh : posm .read + 0 ≤ posm .recode := hheld
    omega
  | xor size nextIdx off second pc =>
    rw [hpc] at hplace hheld
    obtain ⟨-, d, hseg, hp⟩ := hplace
    have hh : posm .read + size ≤ posm .recode := hheld
    have hsplit := hseg.split
    have howed : pc.phase.owed ≤ pc.size := by cases pc <;> simp [CallPc.phase, CallPc.size]
    omega
  | storeIdx size nextIdx =>
    rw [hpc] at hplace hheld
    have hp : pos .recode = posm .read + size := hplace
    have hh : posm .read + size ≤ posm .recode := hheld
    omega
  | fetchAdd size =>
    rw [hpc] at hplace hheld
    have hp : pos .recode = posm .read + size := hplace
    have hh : posm .read + size ≤ posm .recode := hheld
    omega
  | fetchSub size =>
    rw [hpc] at hplace hheld
    have hp : pos .recode = posm .read := hplace
    have hh : posm .read + 0 ≤ posm .recode := hheld
    omega

/-- Byte `i` made readable in `buf` is byte `i` written to it XOR byte `i` made readable in
`mask_buf`, wherever the recoder is. -/
theorem XorSys.Inv.recoded_eq (h : s.Inv pos posm M) {i : ℕ} (hi : i < s.history.recoded.length) :
    ∃ (hw : i < s.data.history.written.length) (hk : i < s.history.keyed.length),
      s.history.recoded[i] = s.data.history.written[i] ^^^ s.history.keyed[i] := by
  have hd := h.data.streams.piped
  have hm := h.mask.streams.piped
  have hlen : i < pos .recode ∧ i < M.length := by
    rw [h.recoded, List.length_take, length_xorStream h.data.streams.le] at hi
    omega
  have hwritten : i < s.data.history.written.length := by
    have hw := hd.written
    have hle := hd.balanced.held_recode
    have hpend := s.data.length_pending_le .write
    rw [Function.update_of_ne (by simp), Sys.stream, List.length_append] at hw
    simp only [History.stream] at hw
    omega
  have hkeyed : i < s.history.keyed.length := by
    have hrl := hm.recoded
    have hle := h.recode_le
    rw [h.keyed, List.length_take]
    omega
  have hW : s.data.history.written <+: s.data.stream .write := List.prefix_append _ _
  have hK : s.history.keyed <+: xorStream (s.mask.stream .write) (s.mask.stream .recode) :=
    h.keyed ▸ List.take_prefix _ _
  refine ⟨hwritten, hkeyed, ?_⟩
  simp only [h.recoded, List.getElem_take, xorStream, List.getElem_zipWith]
  rw [hW.getElem hwritten, hK.getElem hkeyed, h.key.getElem hlen.2]

end Step

/-- **From the writer to the reader**: at every moment of every run, byte `i` that the reader was
given is byte `i` written to `buf` XOR byte `i` made readable in `mask_buf`; a read in progress
counts as far as it has copied. -/
theorem recodeXorBuf_delivers (malloc mallocMask : ℕ → Option Region) (chunks maskChunks : ℤ)
    (buf maskBuf : CyclicBuffer) (h1 : 1 ≤ chunks) (h2 : chunks ≤ 0x40000) (h3 : 1 ≤ maskChunks)
    (h4 : maskChunks ≤ 0x40000) (hinit : cyclicBufferInit malloc chunks = .ok buf)
    (hinitMask : cyclicBufferInit mallocMask maskChunks = .ok maskBuf) (es : List XorEvent)
    (hes : ∀ e ∈ es, e.ReadsInto) (s : XorSys)
    (hrun : Run.run XorSys.step (XorSys.start buf maskBuf) es = some s) :
    s.data.delivering <+: s.history.recoded ∧
    ∀ i (h : i < s.data.delivering.length),
      ∃ (hw : i < s.data.history.written.length) (hk : i < s.history.keyed.length),
        s.data.delivering[i] = s.data.history.written[i] ^^^ s.history.keyed[i] := by
  obtain ⟨pos, posm, M, hi, hd⟩ : ∃ pos posm M, s.Inv pos posm M ∧ s.Delivers pos := by
    refine Run.run_invariant XorEvent.ReadsInto (fun s => ∃ pos posm M, s.Inv pos posm M ∧
      s.Delivers pos) ?_ ?_ hes hrun
    · refine ⟨_, _, _, XorSys.Inv.start (start_inv h1 h2 hinit) (start_inv h3 h4 hinitMask), ?_⟩
      exact ⟨fun _ _ hc => absurd hc (by simp [XorSys.start, Sys.start]), List.nil_prefix, rfl⟩
    · rintro s e s' he ⟨pos, posm, M, hi, hd⟩ hs
      exact hd.step hi he hs
  refine ⟨hd.beginning, ?_⟩
  intro i h
  obtain ⟨hw, hk, e⟩ := hi.recoded_eq (h.trans_le hd.beginning.length_le)
  exact ⟨hw, hk, (hd.beginning.getElem h).trans e⟩

/-- The two bytes are read, one while the reader's call is still under way. -/
def readTwoKeyBytes : List XorEvent :=
  twoKeyBytes ++ .read (some fun _ => 0) 2 :: List.replicate 3 .readerStep

theorem recodeXorBuf_delivers_readTwoKeyBytes : ∃ s,
    Run.run XorSys.step (XorSys.start oneChunk oneChunk) readTwoKeyBytes = some s ∧
    s.data.delivering = [4, 4] ∧ s.data.delivering <+: s.history.recoded := by
  have h : (Run.run XorSys.step (XorSys.start oneChunk oneChunk) readTwoKeyBytes).map
      (fun s => s.data.delivering) = some [4, 4] := by decide +kernel
  obtain ⟨s, hs, he⟩ := Option.map_eq_some_iff.mp h
  exact ⟨s, hs, he, (recodeXorBuf_delivers (fun _ => some fun _ => 0) (fun _ => some fun _ => 0)
    1 1 oneChunk oneChunk (by decide) (by decide) (by decide) (by decide) oneChunk_init oneChunk_init
    readTwoKeyBytes (by simp [readTwoKeyBytes, twoKeyBytes, XorEvent.ReadsInto]) s hs).1⟩

end Cryptochan
