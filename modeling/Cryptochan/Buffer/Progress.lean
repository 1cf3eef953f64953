import Cryptochan.Buffer.Wired

/-!
# Cryptochan.Buffer.Progress — the threads of the test can always be brought to their ends

No call waits inside a function of the buffer; what a thread can wait for is a counter that is not
zero.  Three such waits at once contradict the ledger, so some thread can do a step that counts: the
measure is what is still to be written, recoded and read (`remaining`) and, below that, the steps of
the rounds in progress (`rank`).
-/

namespace Cryptochan

open CreditRing

/-! ### The measure -/

def Op.rank : Op → ℕ
  | .call _ pc => pc.rank
  | .recodeNone pc => pc.rank

/-- The steps of a runner up to the return of its call; `len` bounds the size of the call. -/
def Runner.rank (len : ℕ) (op : Option Op) (r : Runner) : ℕ :=
  match r.pc with
  | .done => 0
  | .calling => op.elim 0 Op.rank
  | .call => len + 5
  | .stage => len + 6
  | .test => len + 7

/-- The steps of the recoder up to the return of `cyclic_buffer_recode_xor_buf`. -/
def XorBufPc.rank : XorBufPc → ℕ
  | .fetchSub _ => 3
  | .fetchAdd _ => 4
  | .storeIdx _ _ => 5
  | .xor _ _ _ second pc => second.elim 0 (· + 6) + pc.rank + 5
  | .loadMask availableToRecode => availableToRecode + 20
  | .loadRecode => cyclicBufferMaxSize + 21

/-- And up to the end of its round. -/
def Recoder.rank (len : ℕ) (mask : Sys) (xpc : Option XorBufPc) (r : Recoder) : ℕ :=
  match r.pc with
  | .done => 0
  | .test => 1
  | .advance => 2
  | .xoring => xpc.elim 0 XorBufPc.rank
  | .xor => cyclicBufferMaxSize + 22
  | .passing => (mask.calls .recode).elim 0 Op.rank + cyclicBufferMaxSize + 22
  | .none => cyclicBufferMaxSize + 27
  | .writing => (mask.calls .write).elim 0 Op.rank + cyclicBufferMaxSize + 27
  | .write => len + cyclicBufferMaxSize + 32
  | .stage => len + cyclicBufferMaxSize + 33

/-- The bytes of the nested call are passed on. -/
def XorBufPc.cleared : XorBufPc → ℕ
  | .xor _ _ _ _ (.fetchSub _) | .storeIdx _ _ | .fetchAdd _ | .fetchSub _ => 1
  | _ => 0

/-- From there on to the end of the round the recoder has nothing more to move. -/
def Recoder.cleared (xpc : Option XorBufPc) (r : Recoder) : ℕ :=
  match r.pc with
  | .test | .advance => 1
  | .xoring => xpc.elim 0 XorBufPc.cleared
  | _ => 0

theorem XorBufPc.cleared_le (pc : XorBufPc) : pc.cleared ≤ 1 := by
  unfold XorBufPc.cleared
  split <;> simp

theorem XorBufPc.three_le_rank (pc : XorBufPc) : 3 ≤ pc.rank := by
  cases pc <;> simp only [XorBufPc.rank] <;> omega

theorem XorBufPc.cleared_nested {size nextIdx off : ℕ} {second : Option ℕ} {pc : CallPc}
    (h : ∀ n, pc ≠ .fetchSub n) : (XorBufPc.xor size nextIdx off second pc).cleared = 0 := by
  cases pc with
  | fetchSub n => exact absurd rfl (h n)
  | load | copy | storeIdx | fetchAdd => rfl

theorem Recoder.cleared_le (xpc : Option XorBufPc) (r : Recoder) : r.cleared xpc ≤ 1 := by
  unfold Recoder.cleared
  split
  · exact Nat.le_refl _
  · exact Nat.le_refl _
  · cases xpc with
    | none => exact Nat.zero_le _
    | some pc => exact pc.cleared_le
  · exact Nat.zero_le _

namespace ThreadTest

variable (T : TestData) (s : ThreadTest)

/-- What is still to be written, recoded and read.  A byte counts twice for the recoder: it may
start a round for each, as long as the reader is not done. -/
def remaining : ℕ :=
  (T.dataSize - s.writer.bIdx) + (T.dataSize - s.reader.bIdx) +
    2 * (T.dataSize - s.sys.history.recoded.length) +
    if s.reader.pc = .done then 0 else s.recoder.cleared s.sys.recoder

def rank : ℕ :=
  (if s.started then 0 else 1) + s.writer.rank T.dataSize (s.sys.data.calls .write) +
    s.reader.rank T.dataSize (s.sys.data.calls .read) +
    s.recoder.rank T.maskSize s.sys.mask s.sys.recoder

/-- `s'` is nearer to the end. -/
def Lower (s' : ThreadTest) : Prop :=
  s'.remaining T < s.remaining T ∨ (s'.remaining T ≤ s.remaining T ∧ s'.rank T < s.rank T)

end ThreadTest

/-! ### The runners -/

/-- The call of `t` is about to find that there is nothing for it. -/
def Sys.Waits (s : Sys) (t : Stage) : Prop :=
  (∃ arg max, s.calls t = some (.call arg (.load max))) ∧ s.buf.available t = 0

namespace Runner

variable {T : TestData} {r : Runner} {s s' : Sys} {t : Stage} {op : Option Op}

theorem rank_head {stage : ℕ} (hpc : r.pc = .test ∨ r.pc = .stage ∧ 1 ≤ stage) :
    (r.head T.dataSize stage).rank T.dataSize op < r.rank T.dataSize op := by
  rcases hpc with hpc | ⟨hpc, hstage⟩
  · by_cases hlt : r.bIdx < T.dataSize <;> simp [Runner.rank, Runner.head, hpc, hlt]
  · simp [Runner.rank, Runner.head, hpc, Nat.not_lt.mpr hstage]

theorem rank_invoke (hpc : r.pc = .call) {arg : Option Region} {size : ℕ}
    (hs : s.invoke t (.call arg (.load (min size (T.dataSize - r.bIdx)))) = some s') :
    Runner.rank T.dataSize (s'.calls t) { r with pc := .calling } < r.rank T.dataSize op := by
  rw [calls_invoke hs, Function.update_self]
  simp only [Runner.rank, hpc, Option.elim_some, Op.rank, CallPc.rank]
  omega

/-- A step of a call that does not wait: it comes nearer to its return, or returns with bytes. -/
theorem rank_step (h : r.Wired T (s.calls t)) (hpc : r.pc = .calling) (hwf : s.WellFormed)
    (hwait : ¬ s.Waits t) (hs : s.step (.step t) = some s') :
    ((r.after (s.returns t)).bIdx = r.bIdx ∧ (r.after (s.returns t)).pc = .calling ∧
      (r.after (s.returns t)).rank T.dataSize (s'.calls t) < r.rank T.dataSize (s.calls t)) ∨
    (r.bIdx < (r.after (s.returns t)).bIdx ∧ r.bIdx < T.dataSize ∧
      (r.after (s.returns t)).pc = .test) := by
  simp only [Runner.Wired, hpc] at h
  obtain ⟨hlt, arg, pc, hop, hpos⟩ := h
  rcases step_moves hwf hop hs with ⟨hret, arg', pc', hc, hm⟩ | ⟨n, arg', hret, hc, hm⟩
  · obtain ⟨hrank, -, -⟩ := hm
    rw [hret]
    refine Or.inl ⟨rfl, hpc, ?_⟩
    rw [hc, hop]
    simp only [Runner.after, Runner.rank, hpc]
    exact hrank
  · rw [hret]
    refine Or.inr ⟨?_, hlt, rfl⟩
    cases hm with
    | ret n => exact Nat.lt_add_of_pos_right hpos
    | empty hz => exact absurd ⟨⟨_, _, hop⟩, hz⟩ hwait

end Runner

namespace ThreadTest

variable {T : TestData} {s s' : ThreadTest}

theorem invoke_of_idle {sys : Sys} {t : Stage} (hc : sys.calls t = none) (op : Op) :
    ∃ sys', sys.invoke t op = some sys' := ⟨_, if_pos (by rw [hc]; rfl)⟩

/-- A step of the writer that comes nearer to the end. -/
theorem writer_lowers (h : s.Inv T) (hw : s.Wired T) (hst : s.started) (hpc : s.writer.pc ≠ .done)
    (hwait : ¬ s.sys.data.Waits .write) (d : Draw) :
    ∃ s', s.writerStep T d = some s' ∧ s.Lower T s' := by
  obtain ⟨pos, posm, M, hi, -⟩ := h.sys
  have hwired := hw.writer
  have hstage : 1 ≤ s.stage := hw.stages.one_le hst
  have hnear : ∀ {writer : Runner} {data : Sys}, data.calls .read = s.sys.data.calls .read →
      writer.bIdx = s.writer.bIdx → writer.rank T.dataSize (data.calls .write) <
        s.writer.rank T.dataSize (s.sys.data.calls .write) →
      s.Lower T { s with sys := { s.sys with data }, writer } := by
    intro writer data hr hb hlt
    refine Or.inr ⟨?_, ?_⟩
    · simp only [remaining, hb]
      exact Nat.le_refl _
    · simp only [rank, hr]
      omega
  cases hpc' : s.writer.pc with
  | done => exact absurd hpc' hpc
  | test =>
    refine ⟨_, by rw [writerStep, hpc'], ?_⟩
    exact hnear rfl (Runner.head_bIdx ..) (Runner.rank_head (Or.inl hpc'))
  | stage =>
    refine ⟨_, by rw [writerStep, hpc'], ?_⟩
    exact hnear rfl (Runner.head_bIdx ..) (Runner.rank_head (Or.inr ⟨hpc', hstage⟩))
  | call =>
    simp only [Runner.Wired, hpc'] at hwired
    obtain ⟨data, hd⟩ := invoke_of_idle hwired.1 (.call (some (T.sbuf.from s.writer.bIdx))
      (.load (min d.writeSize (T.dataSize - s.writer.bIdx))))
    have hs : s.sys.step (.write (some (T.sbuf.from s.writer.bIdx))
        (min d.writeSize (T.dataSize - s.writer.bIdx))) = some { s.sys with data } :=
      Option.map_eq_some_iff.mpr ⟨data, hd, rfl⟩
    refine ⟨_, by rw [writerStep, hpc']; exact Option.map_eq_some_iff.mpr ⟨_, hs, rfl⟩, ?_⟩
    refine hnear ?_ rfl (Runner.rank_invoke hpc' hd)
    rw [calls_invoke hd, Function.update_of_ne (by simp)]
  | calling =>
    simp only [Runner.Wired, hpc'] at hwired
    obtain ⟨-, arg, pc, hop, -⟩ := hwired
    obtain ⟨data, hd⟩ : ∃ data, s.sys.data.step (.step .write) = some data :=
      ⟨_, by rw [Sys.step, hop]⟩
    have hs : s.sys.step .writerStep = some { s.sys with data } :=
      Option.map_eq_some_iff.mpr ⟨data, hd, rfl⟩
    refine ⟨_, by rw [writerStep, hpc']; exact Option.map_eq_some_iff.mpr ⟨_, hs, rfl⟩, ?_⟩
    have hr := calls_step_of_ne (show Stage.read ≠ .write by simp) hd
    rcases Runner.rank_step hw.writer hpc' hi.data.toWellFormed hwait hd with
      ⟨hb, -, hlt⟩ | ⟨hb, hlt, -⟩
    · exact hnear hr hb hlt
    · refine Or.inl ?_
      simp only [remaining]
      omega

/-- A step of the reader that comes nearer to the end. -/
theorem reader_lowers (h : s.Inv T) (hw : s.Wired T) (hst : s.started) (hpc : s.reader.pc ≠ .done)
    (hwait : ¬ s.sys.data.Waits .read) (d : Draw) :
    ∃ s', s.readerStep T d = some s' ∧ s.Lower T s' := by
  obtain ⟨pos, posm, M, hi, -⟩ := h.sys
  have hwired := hw.reader
  have hstage : 1 ≤ s.stage := hw.stages.one_le hst
  have hnear : ∀ {reader : Runner} {data : Sys} {stage : ℕ} {dbuf : Region},
      data.calls .write = s.sys.data.calls .write → reader.bIdx = s.reader.bIdx →
      reader.rank T.dataSize (data.calls .read) <
        s.reader.rank T.dataSize (s.sys.data.calls .read) →
      s.Lower T { s with sys := { s.sys with data }, stage, dbuf, reader } := by
    intro reader data stage dbuf hr hb hlt
    refine Or.inr ⟨?_, ?_⟩
    · simp only [remaining, hb, if_neg hpc]
      split_ifs <;> omega
    · simp only [rank, hr]
      omega
  cases hpc' : s.reader.pc with
  | done => exact absurd hpc' hpc
  | test =>
    refine ⟨_, by rw [readerStep, hpc'], ?_⟩
    exact hnear rfl (Runner.head_bIdx ..) (Runner.rank_head (Or.inl hpc'))
  | stage =>
    refine ⟨_, by rw [readerStep, hpc'], ?_⟩
    exact hnear rfl (Runner.head_bIdx ..) (Runner.rank_head (Or.inr ⟨hpc', hstage⟩))
  | call =>
    simp only [Runner.Wired, hpc'] at hwired
    obtain ⟨data, hd⟩ := invoke_of_idle hwired.1 (.call (some (s.dbuf.from s.reader.bIdx))
      (.load (min d.readSize (T.dataSize - s.reader.bIdx))))
    have hs : s.sys.step (.read (some (s.dbuf.from s.reader.bIdx))
        (min d.readSize (T.dataSize - s.reader.bIdx))) = some { s.sys with data } :=
      Option.map_eq_some_iff.mpr ⟨data, hd, rfl⟩
    refine ⟨_, by rw [readerStep, hpc']; exact Option.map_eq_some_iff.mpr ⟨_, hs, rfl⟩, ?_⟩
    refine hnear ?_ rfl (Runner.rank_invoke hpc' hd)
    rw [calls_invoke hd, Function.update_of_ne (by simp)]
  | calling =>
    simp only [Runner.Wired, hpc'] at hwired
    obtain ⟨-, arg, pc, hop, -⟩ := hwired
    obtain ⟨data, hd⟩ : ∃ data, s.sys.data.step (.step .read) = some data :=
      ⟨_, by rw [Sys.step, hop]⟩
    have hs : s.sys.step .readerStep = some { s.sys with data } :=
      Option.map_eq_some_iff.mpr ⟨data, hd, rfl⟩
    refine ⟨_, by rw [readerStep, hpc']; exact Option.map_eq_some_iff.mpr ⟨_, hs, rfl⟩, ?_⟩
    have hr := calls_step_of_ne (show Stage.write ≠ .read by simp) hd
    rcases Runner.rank_step hw.reader hpc' hi.data.toWellFormed hwait hd with
      ⟨hb, -, hlt⟩ | ⟨hb, hlt, hpc''⟩
    · exact hnear hr hb hlt
    · refine Or.inl ?_
      simp only [remaining, hpc'', hpc']
      simp only [reduceCtorEq, if_false]
      omega

end ThreadTest

/-! ### The recoder -/

section XorBuf

variable {s : XorSys} {pos posm : Stage → ℕ} {M : List UInt8}

/-- A nested call finds its bytes. -/
theorem XorSys.Inv.available_of_nested (h : s.Inv pos posm M) {size nextIdx off max : ℕ}
    {second : Option ℕ} (hpc : s.recoder = some (.xor size nextIdx off second (.load max)))
    (hmax : 0 < max) : s.data.buf.available .recode ≠ 0 := by
  have hs : s.pc = .xor size nextIdx off second (.load max) := by rw [XorSys.pc, hpc]; rfl
  have hplace := h.place
  have hcredit := h.data.streams.piped.balanced.credit_recode
  rw [hs] at hplace hcredit
  rw [Function.update_self] at hcredit
  obtain ⟨hle, d, hseg, hpos⟩ := hplace
  have hsplit := hseg.split
  have hcredit' : s.data.buf.available .recode + pos .recode + 0 = pos .write + 0 := hcredit
  have hpos' : pos .recode = posm .read + d + 0 := hpos
  have hsplit' : d + max + second.getD 0 = size := hsplit
  omega

/-- A step of `cyclic_buffer_recode_xor_buf` returns, comes nearer to the end of the round, or passes
bytes on. -/
def XorSys.Lowers (s : XorSys) (pc : XorBufPc) : Prop :=
  ((s.recoderStep pc).recoder = none ∧ (s.recoderStep pc).history.recoded = s.history.recoded ∧
      (pc.cleared = 1 ∨ pc = .loadRecode ∧ s.data.buf.available .recode = 0)) ∨
    ∃ pc', (s.recoderStep pc).recoder = some pc' ∧
      (((s.recoderStep pc).history.recoded = s.history.recoded ∧ pc'.cleared ≤ pc.cleared ∧
        pc'.rank < pc.rank) ∨
      s.history.recoded.length < (s.recoderStep pc).history.recoded.length)

/-- The counter that was loaded bounds the rest of the round. -/
theorem XorSys.Inv.lowers_loadRecode (h : s.Inv pos posm M) (hs : s.pc = .loadRecode) :
    s.Lowers .loadRecode := by
  rw [XorSys.Lowers, h.recoderStep_eq hs]
  by_cases hz : s.data.buf.available .recode = 0
  · refine Or.inl ⟨?_, rfl, Or.inr ⟨rfl, hz⟩⟩
    simp only [XorSys.recoderStep, xorBufStep, if_pos hz]
  · have hb := h.data.streams.piped.balanced
    have hphase : s.pc.dataPhase = .idle := by rw [hs]; rfl
    have hle := hb.available_le_of_idle ((Function.update_self ..).trans hphase)
    have hmax := hb.sized.le
    refine Or.inr ⟨.loadMask (s.data.buf.available .recode), ?_, Or.inl ⟨rfl, Nat.zero_le _, ?_⟩⟩
    · simp only [XorSys.recoderStep, xorBufStep, if_neg hz]
    · simp only [XorBufPc.rank]
      omega

/-- There is something to read in the mask. -/
theorem XorSys.Inv.lowers_loadMask (h : s.Inv pos posm M) {a : ℕ} (hs : s.pc = .loadMask a)
    (hw : (XorBufPc.loadMask a).Wired s.mask s.history.drained)
    (hmask : s.mask.calls .write = none ∧ s.mask.calls .recode = none) :
    s.Lowers (.loadMask a) := by
  rw [XorSys.Lowers, h.recoderStep_eq hs]
  have hphase : s.pc.maskPc.phase = .idle := by rw [hs]; rfl
  have hz := h.readable hmask.1 hmask.2 hphase hw.2.1 hw.2.2
  have hsize : min a (s.mask.buf.available .read) ≤ a := Nat.min_le_left _ _
  simp only [XorSys.recoderStep, xorBufStep, if_neg hz]
  split_ifs with hwrap
  · obtain ⟨-, -, hsum⟩ := h.split_wrap hphase (Nat.min_le_right _ _) hwrap
    refine Or.inr ⟨_, rfl, Or.inl ⟨rfl, Nat.zero_le _, ?_⟩⟩
    simp only [XorBufPc.rank, CallPc.rank, Option.elim_some]
    omega
  · refine Or.inr ⟨_, rfl, Or.inl ⟨rfl, Nat.zero_le _, ?_⟩⟩
    simp only [XorBufPc.rank, CallPc.rank, Option.elim_none]
    omega

/-- A step of a nested call, which is never one on an empty buffer; its `fetch_add` passes bytes on. -/
theorem XorSys.Inv.lowers_xor (h : s.Inv pos posm M) {size nextIdx off : ℕ} {second : Option ℕ}
    {pc : CallPc} (hpc : s.recoder = some (.xor size nextIdx off second pc))
    (hw : (XorBufPc.xor size nextIdx off second pc).Wired s.mask s.history.drained) :
    s.Lowers (.xor size nextIdx off second pc) := by
  have hs : s.pc = .xor size nextIdx off second pc := by rw [XorSys.pc, hpc]; rfl
  rw [XorSys.Lowers, h.recoderStep_eq hs]
  have hinner := h.inner
  rw [hs] at hinner
  have hmoves := callStep_moves (hinner fun k => s.mask.buf.dataPtr (off + k))
  refine Or.inr ⟨_, rfl, ?_⟩
  simp only [XorSys.recoderHistory, CyclicBuffer.maskAt]
  generalize (callStep .recode s.data.buf (some fun k => s.mask.buf.dataPtr (off + k)) pc).2.2 = c
    at hmoves ⊢
  cases hmoves with
  | goto hrank hpos hlast =>
    by_cases hadd : ∃ n, pc = .fetchAdd n
    · obtain ⟨n, rfl⟩ := hadd
      have hn : 0 < n := hw.1
      refine Or.inr ?_
      simpa [passing, CyclicBuffer.behind] using hn
    · have hpass :
          passing s.data.buf (.call (some fun k => s.mask.buf.dataPtr (off + k)) pc) = [] := by
        cases pc with
        | fetchAdd n => exact absurd ⟨n, rfl⟩ hadd
        | load | copy | storeIdx | fetchSub => rfl
      refine Or.inl ⟨by rw [hpass, List.append_nil], ?_, ?_⟩
      · refine (Eq.le ?_).trans (Nat.zero_le _)
        exact XorBufPc.cleared_nested fun n hn => hadd ⟨n, hlast n hn⟩
      · simp only [afterXor, XorBufPc.rank]
        omega
  | ret n =>
    refine Or.inl ⟨List.append_nil _, XorBufPc.cleared_le _, ?_⟩
    cases second with
    | none => simp [afterXor, XorBufPc.rank, CallPc.rank]
    | some n' =>
      simp only [afterXor, XorBufPc.rank, CallPc.rank, Option.elim_some, Option.elim_none]
      omega
  | empty hz => exact absurd hz (h.available_of_nested hpc hw.1)

theorem XorSys.Inv.recoderStep_lowers (h : s.Inv pos posm M) {pc : XorBufPc}
    (hpc : s.recoder = some pc) (hw : pc.Wired s.mask s.history.drained)
    (hmask : s.mask.calls .write = none ∧ s.mask.calls .recode = none) : s.Lowers pc := by
  have hs : s.pc = pc := by rw [XorSys.pc, hpc]; rfl
  cases pc with
  | loadRecode => exact h.lowers_loadRecode hs
  | loadMask a => exact h.lowers_loadMask hs hw hmask
  | xor size nextIdx off second pc => exact h.lowers_xor hpc hw
  | storeIdx size nextIdx =>
    rw [XorSys.Lowers, h.recoderStep_eq hs]
    exact Or.inr ⟨.fetchAdd size, rfl, Or.inl ⟨rfl, Nat.le_refl _, by simp [XorBufPc.rank]⟩⟩
  | fetchAdd size =>
    rw [XorSys.Lowers, h.recoderStep_eq hs]
    exact Or.inr ⟨.fetchSub size, rfl, Or.inl ⟨rfl, Nat.le_refl _, by simp [XorBufPc.rank]⟩⟩
  | fetchSub size =>
    rw [XorSys.Lowers, h.recoderStep_eq hs]
    exact Or.inl ⟨rfl, rfl, Or.inl rfl⟩

end XorBuf

/-- No call has more bytes than it was given. -/
theorem CallPc.got_le {buf : CyclicBuffer} {st : Stage} {arg : Option Region} {pc : CallPc}
    (hok : pc.Ok buf st arg) : pc.got ≤ pc.size := by
  cases pc with
  | load max => exact Nat.zero_le _
  | copy size nextIdx k => exact hok.2.1.le
  | storeIdx | fetchAdd | fetchSub => exact Nat.le_refl _

namespace ThreadTest

variable {T : TestData} {s s' : ThreadTest}

/-- The recoder is about to find that there is nothing to recode, the reader still wants bytes. -/
def RecoderWaits (s : ThreadTest) : Prop :=
  s.reader.pc ≠ .done ∧ s.recoder.pc = .xoring ∧ s.sys.recoder = some .loadRecode ∧
    s.sys.data.buf.available .recode = 0

theorem length_recoded {sys : XorSys} {pos posm : Stage → ℕ} {M : List UInt8}
    (h : sys.Inv pos posm M) : sys.history.recoded.length = pos .recode := by
  have hr := h.data.streams.piped.recoded
  rw [h.recoded, List.length_take]
  omega

/-- The bytes written, those of a write in progress included. -/
theorem Inv.length_written (h : s.Inv T) : (s.sys.data.stream .write).length =
    s.writer.bIdx + (s.sys.data.calls .write).elim 0 Op.got := by
  rw [h.writing.feeds.stream, length_bytes]

/-- A byte that is recoded was written. -/
theorem Inv.recoded_le (h : s.Inv T) : s.sys.history.recoded.length ≤ T.dataSize := by
  obtain ⟨pos, posm, M, hi, -⟩ := h.sys
  have hw := h.length_written
  have hle := h.writing.le
  have hb := hi.data.streams.piped.balanced.held_recode
  have hl := hi.data.streams.piped.written
  have hgot : (s.sys.data.calls .write).elim 0 Op.got ≤ T.dataSize - s.writer.bIdx := by
    cases hop : s.sys.data.calls .write with
    | none => exact Nat.zero_le _
    | some op =>
      obtain ⟨r, pc, rfl, hsize, -⟩ := h.writing.feeds.slice op hop
      exact (CallPc.got_le (hi.data.ok _ _ _ hop)).trans hsize
  rw [length_recoded hi]
  omega

/-- A step inside the round of the recoder, which the other threads do not see. -/
theorem lower_of_round {sys : XorSys} {recoder : Recoder}
    (hcalls : sys.data.calls = s.sys.data.calls)
    (hrec : sys.history.recoded = s.sys.history.recoded)
    (hc : s.reader.pc ≠ .done → recoder.cleared sys.recoder ≤ s.recoder.cleared s.sys.recoder)
    (hlt : recoder.rank T.maskSize sys.mask sys.recoder <
      s.recoder.rank T.maskSize s.sys.mask s.sys.recoder) : s.Lower T { s with sys, recoder } := by
  refine Or.inr ⟨?_, ?_⟩
  · simp only [remaining, hrec]
    split_ifs with hdone
    · exact Nat.le_refl _
    · exact Nat.add_le_add_left (hc hdone) _
  · simp only [rank, hcalls]
    omega

/-- A new round is started only as long as the reader is not done, and counts less than the last. -/
theorem test_lowers (hw : s.Wired T) (hst : s.started) (hpc : s.recoder.pc = .test) (d : Draw) :
    ∃ s', s.recoderStep T d = some s' ∧ s.Lower T s' := by
  refine ⟨_, by rw [recoderStep, hpc], ?_⟩
  by_cases hlt : s.stage < 2
  · have hreader : s.reader.pc ≠ .done := fun hdone => by
      have hs := hw.stages
      simp only [ThreadTest.Stages, hst, hdone, if_true] at hs
      omega
    refine Or.inl ?_
    simp [remaining, hreader, Recoder.cleared, hpc, hlt]
  · refine lower_of_round rfl rfl (fun _ => ?_) ?_
    · simp [Recoder.cleared, hpc, hlt]
    · simp [Recoder.rank, hpc, hlt]

theorem stage_lowers (hw : s.Wired T) (hst : s.started) (hpc : s.recoder.pc = .stage) (d : Draw) :
    ∃ s', s.recoderStep T d = some s' ∧ s.Lower T s' := by
  have hstage : 1 ≤ s.stage := hw.stages.one_le hst
  refine ⟨_, by rw [recoderStep, hpc], lower_of_round rfl rfl (fun _ => ?_) ?_⟩
  · simp [Recoder.cleared, hpc, Nat.not_lt.mpr hstage]
  · simp [Recoder.rank, hpc, Nat.not_lt.mpr hstage]

/-- The write to the mask starts; its thread is idle. -/
theorem write_lowers (h : s.Inv T) (hpc : s.recoder.pc = .write) (d : Draw) :
    ∃ s', s.recoderStep T d = some s' ∧ s.Lower T s' := by
  have hfills := h.keying.fills
  simp only [Recoder.Fills, hpc] at hfills
  have hidle : s.sys.fillerIdle := by simp [XorSys.fillerIdle, hfills]
  obtain ⟨mask, hm⟩ := invoke_of_idle hfills.1 (.call (some (T.xbuf.from s.recoder.bIdx))
    (.load (min d.recodeSize (T.maskSize - s.recoder.bIdx))))
  have hs : s.sys.step (.fill (.write (some (T.xbuf.from s.recoder.bIdx))
      (min d.recodeSize (T.maskSize - s.recoder.bIdx)))) = some { s.sys with mask } := by
    rw [XorSys.step, if_pos hidle]
    exact Option.map_eq_some_iff.mpr ⟨mask, hm, rfl⟩
  refine ⟨_, by rw [recoderStep, hpc]; exact Option.map_eq_some_iff.mpr ⟨_, hs, rfl⟩, ?_⟩
  refine lower_of_round rfl rfl (fun _ => by simp [Recoder.cleared]) ?_
  simp only [Recoder.rank, hpc, calls_invoke hm, Function.update_self, Option.elim_some, Op.rank,
    CallPc.rank]
  omega

/-- A step of the call on the mask that is in progress. -/
theorem fillerStep_of {sys : XorSys} {mask : Sys} {st : Stage} (hst : sys.fillerStage = st)
    (hm : sys.mask.step (.step st) = some mask) : sys.step .fillerStep = some { sys with
      mask
      history :=
        { sys.history with keyed := sys.history.keyed ++ sys.mask.buf.passed mask.buf .recode } } := by
  rw [XorSys.step, XorSys.fillerStep, hst]
  exact Option.map_eq_some_iff.mpr ⟨mask, hm, rfl⟩

/-- A step of the write to the mask, the last one included. -/
theorem writing_lowers (h : s.Inv T) (hw : s.Wired T) (hpc : s.recoder.pc = .writing) (d : Draw) :
    ∃ s', s.recoderStep T d = some s' ∧ s.Lower T s' := by
  obtain ⟨pos, posm, M, hi, -⟩ := h.sys
  have hwired := hw.recoder
  simp only [Recoder.Wired, hpc] at hwired
  obtain ⟨-, src, pc, hop, -, -⟩ := hwired
  obtain ⟨mask, hm⟩ : ∃ mask, s.sys.mask.step (.step .write) = some mask :=
    ⟨_, by rw [Sys.step, hop]⟩
  have hst : s.sys.fillerStage = .write := by simp [XorSys.fillerStage, hop]
  have hs := fillerStep_of hst hm
  refine ⟨_, by rw [recoderStep, hpc]; exact Option.map_eq_some_iff.mpr ⟨_, hs, rfl⟩, ?_⟩
  rw [hst]
  rcases step_moves hi.mask.toWellFormed hop hm with
    ⟨hret, arg', pc', hc, hmv⟩ | ⟨n, arg', hret, hc, -⟩
  · obtain ⟨hrank, -, -⟩ := hmv
    rw [hret]
    refine lower_of_round rfl rfl (fun _ => Nat.le_refl _) ?_
    simp only [Recoder.afterFill, Recoder.rank, hpc, hc, hop, Option.elim_some, Op.rank]
    omega
  · rw [hret]
    simp only [Recoder.afterFill, hpc]
    refine lower_of_round rfl rfl (fun _ => by simp [Recoder.cleared]) ?_
    have hpos : 0 < pc.rank := by cases pc <;> simp [CallPc.rank]
    simp only [Recoder.rank, hpc, hop, Option.elim_some, Op.rank]
    omega

/-- The `recode_none` of the mask starts. -/
theorem none_lowers (h : s.Inv T) (hpc : s.recoder.pc = .none) (d : Draw) :
    ∃ s', s.recoderStep T d = some s' ∧ s.Lower T s' := by
  have hfills := h.keying.fills
  simp only [Recoder.Fills, hpc] at hfills
  have hidle : s.sys.fillerIdle := by simp [XorSys.fillerIdle, hfills]
  obtain ⟨mask, hm⟩ := invoke_of_idle hfills.2 (.recodeNone .load)
  have hs : s.sys.step (.fill .recodeNone) = some { s.sys with mask } := by
    rw [XorSys.step, if_pos hidle]
    exact Option.map_eq_some_iff.mpr ⟨mask, hm, rfl⟩
  refine ⟨_, by rw [recoderStep, hpc]; exact Option.map_eq_some_iff.mpr ⟨_, hs, rfl⟩, ?_⟩
  refine lower_of_round rfl rfl (fun _ => by simp [Recoder.cleared]) ?_
  simp only [Recoder.rank, hpc, calls_invoke hm, Function.update_self, Option.elim_some, Op.rank,
    NonePc.rank]
  omega

/-- A step of the `recode_none` of the mask, the last one included. -/
theorem passing_lowers (h : s.Inv T) (hw : s.Wired T) (hpc : s.recoder.pc = .passing) (d : Draw) :
    ∃ s', s.recoderStep T d = some s' ∧ s.Lower T s' := by
  have hwired := hw.recoder
  have hfills := h.keying.fills
  simp only [Recoder.Wired, hpc] at hwired
  simp only [Recoder.Fills, hpc] at hfills
  obtain ⟨-, -, pc, hop, -⟩ := hwired
  obtain ⟨mask, hm⟩ : ∃ mask, s.sys.mask.step (.step .recode) = some mask :=
    ⟨_, by rw [Sys.step, hop]⟩
  have hst : s.sys.fillerStage = .recode := by simp [XorSys.fillerStage, hfills.1]
  have hs := fillerStep_of hst hm
  refine ⟨_, by rw [recoderStep, hpc]; exact Option.map_eq_some_iff.mpr ⟨_, hs, rfl⟩, ?_⟩
  rw [hst]
  rcases step_moves_none hop hm with ⟨hret, pc', hc, hlt⟩ | ⟨n, hret, hc⟩
  · rw [hret]
    refine lower_of_round rfl rfl (fun _ => Nat.le_refl _) ?_
    simp only [Recoder.afterFill, Recoder.rank, hpc, hc, hop, Option.elim_some, Op.rank]
    omega
  · rw [hret]
    simp only [Recoder.afterFill, hpc]
    refine lower_of_round rfl rfl (fun _ => by simp [Recoder.cleared]) ?_
    have hpos : 0 < pc.rank := by cases pc <;> simp [NonePc.rank]
    simp only [Recoder.rank, hpc, hop, Option.elim_some, Op.rank]
    omega

/-- The call of `recode_xor_buf` starts. -/
theorem xor_lowers (hw : s.Wired T) (hpc : s.recoder.pc = .xor) (d : Draw) :
    ∃ s', s.recoderStep T d = some s' ∧ s.Lower T s' := by
  have hwired := hw.recoder
  simp only [Recoder.Wired, hpc] at hwired
  have hs : s.sys.step .recodeXorBuf = some { s.sys with recoder := some .loadRecode } := by
    rw [XorSys.step, if_pos (by rw [hwired.1]; rfl)]
  refine ⟨_, by rw [recoderStep, hpc]; exact Option.map_eq_some_iff.mpr ⟨_, hs, rfl⟩, ?_⟩
  refine lower_of_round rfl rfl (fun _ => by simp [Recoder.cleared, XorBufPc.cleared]) ?_
  simp [Recoder.rank, hpc, XorBufPc.rank]

/-- Bytes that are passed on count more than the rest of the round. -/
theorem remaining_of_recoded (h : s.Inv T) {d : Draw} {sys : XorSys} {recoder recoder' : Recoder}
    (hs : s.recoderStep T d = some { s with sys, recoder := recoder' })
    (hgrow : s.sys.history.recoded.length < sys.history.recoded.length) :
    ThreadTest.remaining T { s with sys, recoder } < s.remaining T := by
  have hle := (h.step (show s.step T (.recoder d) = _ from hs)).recoded_le
  have hone := recoder.cleared_le sys.recoder
  have hdata : T.dataSize - sys.history.recoded.length <
      T.dataSize - s.sys.history.recoded.length := Nat.sub_lt_sub_left (hgrow.trans_le hle) hgrow
  simp only [remaining]
  split_ifs <;> omega

/-- A step of `recode_xor_buf`: it returns, goes on, or passes bytes on. -/
theorem xoring_lowers (h : s.Inv T) (hw : s.Wired T) (hpc : s.recoder.pc = .xoring)
    (hwait : ¬ s.RecoderWaits) (d : Draw) :
    ∃ s', s.recoderStep T d = some s' ∧ s.Lower T s' := by
  obtain ⟨pos, posm, M, hi, -⟩ := h.sys
  have hwired := hw.recoder
  have hfills := h.keying.fills
  simp only [Recoder.Wired, hpc] at hwired
  simp only [Recoder.Fills, hpc] at hfills
  obtain ⟨pc, hop, hpcw⟩ := hwired
  have hs : s.sys.step .recoderStep = some (s.sys.recoderStep pc) := by
    rw [XorSys.step, hop, Option.map_some]
  have hs' : s.recoderStep T d = some { s with
      sys := s.sys.recoderStep pc
      recoder := { s.recoder with
        pc := if (s.sys.recoderStep pc).recoder.isNone then .advance else .xoring } } := by
    rw [recoderStep, hpc]
    exact Option.map_eq_some_iff.mpr ⟨_, hs, rfl⟩
  refine ⟨_, hs', ?_⟩
  have hcleared : s.recoder.cleared s.sys.recoder = pc.cleared := by
    simp only [Recoder.cleared, hpc, hop, Option.elim_some]
  have hrank : s.recoder.rank T.maskSize s.sys.mask s.sys.recoder = pc.rank := by
    simp only [Recoder.rank, hpc, hop, Option.elim_some]
  rcases hi.recoderStep_lowers hop hpcw hfills with
    ⟨hnone, hrec, hend⟩ | ⟨pc', hsome, ⟨hrec, hc, hlt⟩ | hgrow⟩
  · have hpos := pc.three_le_rank
    refine lower_of_round rfl hrec (fun hreader => ?_) ?_
    · rw [hnone, hcleared]
      rcases hend with hend | ⟨rfl, hz⟩
      · rw [hend]
        exact Nat.le_refl _
      · exact absurd ⟨hreader, hpc, hop, hz⟩ hwait
    · rw [hnone, hrank]
      exact (by omega : 2 < pc.rank)
  · refine lower_of_round rfl hrec (fun _ => ?_) ?_
    · rw [hsome, hcleared]
      exact hc
    · rw [hsome, hrank]
      exact hlt
  · exact Or.inl (remaining_of_recoded h hs' hgrow)

theorem advance_lowers (hpc : s.recoder.pc = .advance) (d : Draw) :
    ∃ s', s.recoderStep T d = some s' ∧ s.Lower T s' := by
  refine ⟨_, by rw [recoderStep, hpc], lower_of_round rfl rfl (fun _ => ?_) ?_⟩
  · simp [Recoder.cleared, hpc]
  · simp [Recoder.rank, hpc]

/-- A step of the recoder that comes nearer to the end. -/
theorem recoder_lowers (h : s.Inv T) (hw : s.Wired T) (hst : s.started)
    (hpc : s.recoder.pc ≠ .done) (hwait : ¬ s.RecoderWaits) (d : Draw) :
    ∃ s', s.recoderStep T d = some s' ∧ s.Lower T s' := by
  cases hpc' : s.recoder.pc with
  | done => exact absurd hpc' hpc
  | test => exact test_lowers hw hst hpc' d
  | stage => exact stage_lowers hw hst hpc' d
  | write => exact write_lowers h hpc' d
  | writing => exact writing_lowers h hw hpc' d
  | none => exact none_lowers h hpc' d
  | passing => exact passing_lowers h hw hpc' d
  | xor => exact xor_lowers hw hpc' d
  | xoring => exact xoring_lowers h hw hpc' hwait d
  | advance => exact advance_lowers hpc' d

end ThreadTest

/-! ### Some thread can go on -/

/-- No byte of a call of `t` is on its way. -/
def Sys.AtRest (s : Sys) (t : Stage) : Prop :=
  s.calls t = none ∨ ∃ arg max, s.calls t = some (.call arg (.load max))

namespace Sys.AtRest

variable {s : Sys} {t : Stage}

theorem phase (h : s.AtRest t) : s.phase t = .idle := by
  rcases h with h | ⟨arg, max, h⟩ <;> rw [Sys.phase, h] <;> rfl

theorem done (h : s.AtRest t) : s.done t = 0 := by
  rcases h with h | ⟨arg, max, h⟩ <;> rw [Sys.done, h] <;> rfl

theorem got (h : s.AtRest t) : (s.calls t).elim 0 Op.got = 0 := by
  rcases h with h | ⟨arg, max, h⟩ <;> rw [h] <;> rfl

theorem delivering (h : s.AtRest .read) : s.delivering = s.history.delivered := by
  rcases h with h | ⟨arg, max, h⟩
  · simp [Sys.delivering, h]
  · cases arg <;> simp [Sys.delivering, h, CallPc.got, bytes]

end Sys.AtRest

theorem Runner.Wired.lt {T : TestData} {op : Option Op} {r : Runner} (h : r.Wired T op)
    (hop : op ≠ none) : r.bIdx < T.dataSize := by
  unfold Runner.Wired at h
  split at h
  · exact absurd h hop
  · exact h.2
  · exact h.2
  · exact h.1
  · exact absurd h.1 hop

theorem Runner.Wired.le_of_done {T : TestData} {op : Option Op} {r : Runner} (h : r.Wired T op)
    (hpc : r.pc = .done) : op = none ∧ T.dataSize ≤ r.bIdx := by
  simp only [Runner.Wired, hpc] at h
  exact h

/-- Whose step it is; the draw is not the scheduler's. -/
inductive Turn
  | go | writer | reader | recoder

def Turn.event (d : Draw) : Turn → ThreadEvent
  | .go => .go
  | .writer => .writer d
  | .reader => .reader d
  | .recoder => .recoder d

namespace ThreadTest

variable {T : TestData} {s : ThreadTest}

/-- The three threads have returned, and `memcmp` finds no difference. -/
structure Finished (T : TestData) (s : ThreadTest) : Prop where
  writer : s.writer.pc = .done
  reader : s.reader.pc = .done
  recoder : s.recoder.pc = .done
  passes : T.Passes s.dbuf

/-- Where the streams are when the writer and the reader are between two calls. -/
theorem Inv.at_rest (h : s.Inv T) (hw : s.sys.data.AtRest .write)
    (hr : s.sys.data.AtRest .read) : ∃ pos posm M, s.sys.Inv pos posm M ∧
      pos .write = s.writer.bIdx ∧ pos .read = s.reader.bIdx := by
  obtain ⟨pos, posm, M, hi, hdel⟩ := h.sys
  refine ⟨pos, posm, M, hi, ?_, ?_⟩
  · have hwritten := hi.data.streams.piped.written
    rw [h.length_written, hw.got, Function.update_of_ne (by simp), hw.done] at hwritten
    exact hwritten.symm
  · have hlen := hdel.length
    rw [hr.delivering, h.reading.delivered, length_bytes, hr.done] at hlen
    exact hlen.symm

/-- The three threads do not all wait. -/
theorem not_all_wait (h : s.Inv T) (hw : s.Wired T)
    (hwriter : s.writer.pc = .done ∨ s.sys.data.Waits .write) (hreader : s.sys.data.Waits .read)
    (hrecoder : s.RecoderWaits) : False := by
  obtain ⟨-, -, hload, hrec⟩ := hrecoder
  obtain ⟨hrcall, hread⟩ := hreader
  have hwrest : s.sys.data.AtRest .write := hwriter.elim
    (fun hdone => Or.inl (hw.writer.le_of_done hdone).1) fun hwait => Or.inr hwait.1
  have hrrest : s.sys.data.AtRest .read := Or.inr hrcall
  obtain ⟨pos, posm, M, hi, hpw, hpr⟩ := h.at_rest hwrest hrrest
  have hb := hi.data.streams.piped.balanced
  have hcw := hb.credit_write
  have hcc := hb.credit_recode
  have hcr := hb.credit_read
  have hphase : s.sys.pc.dataPhase = .idle := by rw [XorSys.pc, hload]; rfl
  rw [Function.update_of_ne (by simp), hwrest.phase, Phase.owed_idle] at hcw
  rw [Function.update_self, hphase, Phase.owed_idle, hrec] at hcc
  rw [Function.update_of_ne (by simp), hrrest.phase, Phase.owed_idle, hread] at hcr
  have hlt : s.reader.bIdx < T.dataSize := hw.reader.lt <| by
    obtain ⟨arg, max, hop⟩ := hrcall
    simp [hop]
  rcases hwriter with hdone | ⟨-, hwrite⟩
  · -- everything is written, so everything is read
    have hle := (hw.writer.le_of_done hdone).2
    omega
  · -- the counters add up to the size
    have hpos := hb.sized.pos
    omega

/-- The reader is not done before the writer. -/
theorem not_reader_first (h : s.Inv T) (hw : s.Wired T) (hreader : s.reader.pc = .done)
    (hwriter : s.sys.data.Waits .write) : False := by
  have hrest := hw.reader.le_of_done hreader
  obtain ⟨pos, posm, M, hi, hpw, hpr⟩ := h.at_rest (Or.inr hwriter.1) (Or.inl hrest.1)
  have hb := hi.data.streams.piped.balanced
  have h1 := hb.held_read
  have h2 := hb.held_recode
  have hlt : s.writer.bIdx < T.dataSize := hw.writer.lt <| by
    obtain ⟨arg, max, hop⟩ := hwriter.1
    simp [hop]
  omega

/-- Until all is done some thread's next step comes nearer to the end, whatever it draws. -/
theorem exists_turn (h : s.Inv T) (hw : s.Wired T) (hmask : 0 < T.maskSize)
    (hnot : ¬ s.Finished T) :
    ∃ w : Turn, ∀ d, ∃ s', s.step T (w.event d) = some s' ∧ s.Lower T s' := by
  by_cases hst : s.started
  swap
  · refine ⟨.go, fun d => ⟨_, if_neg hst, Or.inr ⟨Nat.le_refl _, ?_⟩⟩⟩
    simp [rank, hst]
  by_cases hwriter : s.writer.pc ≠ .done ∧ ¬ s.sys.data.Waits .write
  · exact ⟨.writer, writer_lowers h hw hst hwriter.1 hwriter.2⟩
  by_cases hrecoder : s.recoder.pc ≠ .done ∧ ¬ s.RecoderWaits
  · exact ⟨.recoder, recoder_lowers h hw hst hrecoder.1 hrecoder.2⟩
  by_cases hreader : s.reader.pc ≠ .done ∧ ¬ s.sys.data.Waits .read
  · exact ⟨.reader, reader_lowers h hw hst hreader.1 hreader.2⟩
  exfalso
  have hwriter' : s.writer.pc = .done ∨ s.sys.data.Waits .write := by tauto
  have hrecoder' : s.recoder.pc = .done ∨ s.RecoderWaits := by tauto
  by_cases hdone : s.reader.pc = .done
  · rcases hwriter' with hwdone | hwait
    · rcases hrecoder' with hrdone | hrwait
      · exact hnot ⟨hwdone, hdone, hrdone, h.passes hmask hdone⟩
      · exact hrwait.1 hdone
    · exact not_reader_first h hw hdone hwait
  · have hrwait : s.sys.data.Waits .read := by tauto
    rcases hrecoder' with hrdone | hcwait
    · exact hdone (hw.last hrdone)
    · exact not_all_wait h hw hwriter' hrwait hcwait

end ThreadTest

/-- **The test can always be brought to its end**: after any run of the three threads, some choice
of whose turn it is leads, whatever sizes they draw on the way, to the state where all of them have
returned and `memcmp` finds no difference.  No deadlock can be run into. -/
theorem testCyclicBuffer_finishes (malloc mallocXor : ℕ → Option Region)
    (buf xorBuf : CyclicBuffer) (hinit : cyclicBufferInit malloc 1 = .ok buf)
    (hinitXor : cyclicBufferInit mallocXor 1 = .ok xorBuf) (T : TestData) (hdata : 0 < T.dataSize)
    (hmask : 0 < T.maskSize) (dbuf : Region) (es : List ThreadEvent) (s : ThreadTest)
    (hrun : Run.run (ThreadTest.step T) (ThreadTest.start buf xorBuf dbuf) es = some s) :
    Run.Forces (fun s w d => ThreadTest.step T s (Turn.event d w)) (ThreadTest.Finished T) s := by
  have hs : s.Inv T ∧ s.Wired T := Run.run_invariant (fun _ => True)
    (fun s => ThreadTest.Inv T s ∧ ThreadTest.Wired T s)
    ⟨ThreadTest.Inv.start hinit hinitXor hmask dbuf, ThreadTest.Wired.start T buf xorBuf dbuf⟩
    (fun s _ s' _ hi hs => ⟨hi.1.step hs, hi.2.step hi.1 hdata hs⟩) (fun _ _ => trivial) hrun
  refine Run.forces_of_descent (Prod.lex Nat.lt_wfRel Nat.lt_wfRel).wf
    (fun s => ThreadTest.Inv T s ∧ ThreadTest.Wired T s) (ThreadTest.Finished T)
    (fun s => (s.remaining T, s.rank T)) ?_ hs
  rintro s ⟨hi, hw⟩ hnot
  obtain ⟨w, hturn⟩ := ThreadTest.exists_turn hi hw hmask hnot
  refine ⟨w, fun d => ?_⟩
  obtain ⟨s', hs', hlower⟩ := hturn d
  refine ⟨s', hs', ⟨hi.step hs', hw.step hi hdata hs'⟩, ?_⟩
  rcases hlower with hlt | ⟨hle, hlt⟩
  · exact Prod.Lex.left _ _ hlt
  · rcases hle.lt_or_eq with hlt' | heq
    · exact Prod.Lex.left _ _ hlt'
    · rw [heq]
      exact Prod.Lex.right _ hlt

/-- The writer has written its two bytes, nobody has recoded or read them. -/
theorem testCyclicBuffer_finishes_written : ∃ s,
    Run.run (ThreadTest.step sevenNine) (ThreadTest.start oneChunk oneChunk fun _ => 0)
      (.go :: List.replicate 10 (.writer ⟨0, 1⟩)) = some s ∧
    Run.Forces (fun s w d => ThreadTest.step sevenNine s (Turn.event d w))
      (ThreadTest.Finished sevenNine) s := by
  have h : (Run.run (ThreadTest.step sevenNine) (ThreadTest.start oneChunk oneChunk fun _ => 0)
      (.go :: List.replicate 10 (.writer ⟨0, 1⟩))).isSome := by decide +kernel
  obtain ⟨s, hs⟩ := Option.isSome_iff_exists.mp h
  exact ⟨s, hs, testCyclicBuffer_finishes (fun _ => some fun _ => 0) (fun _ => some fun _ => 0)
    oneChunk oneChunk oneChunk_init oneChunk_init sevenNine (by decide) (by decide) (fun _ => 0) _ s
    hs⟩

end Cryptochan
