import Cryptochan.Buffer.Received

/-!
# Cryptochan.Buffer.Clients — the threads of `test_cyclic_buffer.c`

`run_writer`, `run_recoder` and `run_reader` over the system of `Buffer.XorBuf`: the recoder is also
the thread that fills `xor_buf`.  The loops have a counter of the bytes done; the slice that a call
works on starts there.  The sleeps and the yields are left out: they only delay a thread.

A thread that writes one slice after the other feeds a buffer with one stream (`Sys.Feeds`).
-/

namespace Cryptochan

/-! ### The threads -/

/-- What `rand` gives in one round: whether to take a part of a chunk, and which. -/
structure Draw where
  coin : ℕ
  part : ℕ

/-- The size of `run_writer`, before `MIN`. -/
def Draw.writeSize (d : Draw) : ℕ :=
  if d.coin % 2 ≠ 0 then cyclicBufferChunkSize / (1 + d.part % 4) else 1 + (d.part &&& 0x3F)

/-- The size of `run_recoder`. -/
def Draw.recodeSize (d : Draw) : ℕ :=
  if d.coin % 2 ≠ 0 then cyclicBufferChunkSize / (1 + d.part % 2) else 5 + (d.part &&& 0x3F)

/-- The size of `run_reader`. -/
def Draw.readSize (d : Draw) : ℕ :=
  if d.coin % 2 ≠ 0 then cyclicBufferChunkSize / (1 + d.part % 3) else 3 + (d.part &&& 0x7F)

/-- Where `run_writer` or `run_reader` is: the condition of its loop, `stage`, before and in its call,
or behind the loop. -/
inductive RunnerPc
  | test | stage | call | calling | done
  deriving DecidableEq, Repr

/-- `run_writer` or `run_reader` with its counter. -/
structure Runner where
  pc : RunnerPc
  bIdx : ℕ

/-- Where `run_recoder` is: the two loads of `stage`, before and in each of its three calls, before
it advances, or behind the loop. -/
inductive RecoderPc
  | test | stage | write | writing | none | passing | xor | xoring | advance | done
  deriving DecidableEq, Repr

/-- `run_recoder` with its locals. -/
structure Recoder where
  pc : RecoderPc
  bIdx : ℕ
  n : ℕ

/-- `sbuf`, `xbuf` and their lengths, `__DATA_SIZE` and `__MASK_SIZE`. -/
structure TestData where
  sbuf : Region
  xbuf : Region
  dataSize : ℕ
  maskSize : ℕ

/-- The three threads, what they share, and the destination; `started` says whether the main thread
has set `stage`. -/
structure ThreadTest where
  sys : XorSys
  started : Bool
  stage : ℕ
  dbuf : Region
  writer : Runner
  reader : Runner
  recoder : Recoder

/-- `run_thread_test` sets `stage`, or a thread does a step. -/
inductive ThreadEvent
  | go
  | writer (d : Draw)
  | reader (d : Draw)
  | recoder (d : Draw)

namespace Runner

/-- The loop of a runner up to its call. -/
def head (r : Runner) (len stage : ℕ) : Runner :=
  match r.pc with
  | .test => { r with pc := if r.bIdx < len then .stage else .done }
  | _ => { r with pc := if stage < 1 then .test else .call }

theorem head_bIdx (r : Runner) (len stage : ℕ) : (r.head len stage).bIdx = r.bIdx := by
  unfold head
  split <;> rfl

/-- After a step of the call: `b_idx += n`. -/
def after (r : Runner) : Option (ℕ × Option Region) → Runner
  | none => r
  | some (n, _) => ⟨.test, r.bIdx + n⟩

end Runner

/-- After a step of the recoder's first or second call: the first one sets `n`. -/
def Recoder.afterFill (r : Recoder) : Option (ℕ × Option Region) → Recoder
  | none => r
  | some (n, _) => match r.pc with
    | .writing => { r with pc := .none, n := n }
    | _ => { r with pc := .xor }

namespace ThreadTest

/-- Before the threads are started. -/
def start (buf xorBuf : CyclicBuffer) (dbuf : Region) : ThreadTest :=
  ⟨XorSys.start buf xorBuf, false, 0, dbuf, ⟨.test, 0⟩, ⟨.test, 0⟩, ⟨.test, 0, 0⟩⟩

/-- `run_writer`. -/
def writerStep (T : TestData) (s : ThreadTest) (d : Draw) : Option ThreadTest :=
  match s.writer.pc with
  | .test | .stage => some { s with writer := s.writer.head T.dataSize s.stage }
  | .call =>
    (s.sys.step (.write (some (T.sbuf.from s.writer.bIdx))
      (min d.writeSize (T.dataSize - s.writer.bIdx)))).map fun sys =>
        { s with sys, writer := { s.writer with pc := .calling } }
  | .calling =>
    (s.sys.step .writerStep).map fun sys =>
      { s with sys, writer := s.writer.after (s.sys.data.returns .write) }
  | .done => none

/-- The destination after a step of `cyclic_buffer_read`. -/
def received (s : ThreadTest) : Option (ℕ × Option Region) → Region
  | some (_, some r) => s.dbuf.splice s.reader.bIdx r
  | _ => s.dbuf

/-- `run_reader`; behind its loop it sets `stage`. -/
def readerStep (T : TestData) (s : ThreadTest) (d : Draw) : Option ThreadTest :=
  match s.reader.pc with
  | .test =>
    some { s with
      stage := if s.reader.bIdx < T.dataSize then s.stage else 2
      reader := s.reader.head T.dataSize s.stage }
  | .stage => some { s with reader := s.reader.head T.dataSize s.stage }
  | .call =>
    (s.sys.step (.read (some (s.dbuf.from s.reader.bIdx))
      (min d.readSize (T.dataSize - s.reader.bIdx)))).map fun sys =>
        { s with sys, reader := { s.reader with pc := .calling } }
  | .calling =>
    (s.sys.step .readerStep).map fun sys =>
      { s with
        sys
        dbuf := s.received (s.sys.data.returns .read)
        reader := s.reader.after (s.sys.data.returns .read) }
  | .done => none

/-- `run_recoder`. -/
def recoderStep (T : TestData) (s : ThreadTest) (d : Draw) : Option ThreadTest :=
  let r := s.recoder
  match r.pc with
  | .test => some { s with recoder := { r with pc := if s.stage < 2 then .stage else .done } }
  | .stage => some { s with recoder := { r with pc := if s.stage < 1 then .test else .write } }
  | .write =>
    (s.sys.step (.fill (.write (some (T.xbuf.from r.bIdx))
      (min d.recodeSize (T.maskSize - r.bIdx))))).map fun sys =>
        { s with sys, recoder := { r with pc := .writing } }
  | .none =>
    (s.sys.step (.fill .recodeNone)).map fun sys =>
      { s with sys, recoder := { r with pc := .passing } }
  | .writing | .passing =>
    (s.sys.step .fillerStep).map fun sys =>
      { s with sys, recoder := r.afterFill (s.sys.mask.returns s.sys.fillerStage) }
  | .xor =>
    (s.sys.step .recodeXorBuf).map fun sys => { s with sys, recoder := { r with pc := .xoring } }
  | .xoring =>
    (s.sys.step .recoderStep).map fun sys =>
      { s with sys, recoder := { r with pc := if sys.recoder.isNone then .advance else .xoring } }
  | .advance =>
    some { s with recoder :=
      { r with pc := .test, bIdx := if r.bIdx + r.n = T.maskSize then 0 else r.bIdx + r.n } }
  | .done => none

def step (T : TestData) (s : ThreadTest) : ThreadEvent → Option ThreadTest
  | .go => if s.started then none else some { s with started := true, stage := 1 }
  | .writer d => s.writerStep T d
  | .reader d => s.readerStep T d
  | .recoder d => s.recoderStep T d

end ThreadTest

/-- The `xor back` loop. -/
def TestData.xorBack (T : TestData) (dbuf : Region) (dIdx xIdx : ℕ) : Region :=
  if dIdx < T.dataSize then
    T.xorBack (Function.update dbuf dIdx (dbuf dIdx ^^^ T.xbuf xIdx)) (dIdx + 1)
      (if xIdx + 1 = T.maskSize then 0 else xIdx + 1)
  else dbuf
termination_by T.dataSize - dIdx

/-- Nothing was lost or garbled: `memcmp` finds no difference after `xor back`. -/
def TestData.Passes (T : TestData) (dbuf : Region) : Prop :=
  bytes (T.xorBack dbuf 0 0) T.dataSize = bytes T.sbuf T.dataSize

/-! ### A stream written in slices -/

/-- The bytes of a write that are taken already. -/
def Op.got : Op → ℕ
  | .call _ pc => pc.got
  | .recodeNone _ => 0

/-- The writes so far took the first bytes of `K`, `b` of them by the calls that returned; the call
in progress may take `room` more. -/
structure Sys.Feeds (s : Sys) (K : Region) (b room : ℕ) : Prop where
  stream : s.stream .write = bytes K (b + (s.calls .write).elim 0 Op.got)
  slice : ∀ op, s.calls .write = some op →
    ∃ r pc, op = .call (some r) pc ∧ pc.size ≤ room ∧ ∀ k < pc.size, r k = K (b + k)

theorem size_copyFrom (arg : Option Region) (size nextIdx k : ℕ) :
    (copyFrom arg size nextIdx k).size = size := by
  unfold copyFrom
  split_ifs <;> rfl

/-- A step of a write: it takes the next byte, or none, and goes on, or it returns what it took. -/
theorem callStep_write {buf : CyclicBuffer} {r : Region} {pc : CallPc}
    (hok : pc.Ok buf .write (some r)) :
    (callStep .write buf (some r) pc).2.1 = some r ∧
    ((∃ pc', (callStep .write buf (some r) pc).2.2 = .goto pc' ∧ pc'.size ≤ pc.size ∧
        ((pc'.got = pc.got ∧ stepBytes .write buf (some r) pc = []) ∨
          (pc'.got = pc.got + 1 ∧ pc.got < pc.size ∧
            stepBytes .write buf (some r) pc = [r pc.got]))) ∨
      ((callStep .write buf (some r) pc).2.2 = .ret pc.got ∧ pc.got ≤ pc.size ∧
        stepBytes .write buf (some r) pc = [])) := by
  refine ⟨callStep_arg (by simp) buf (some r) pc, ?_⟩
  cases pc with
  | load max =>
    by_cases hz : buf.available .write = 0
    · exact Or.inr ⟨by simp [callStep, hz, CallPc.got], Nat.zero_le _, rfl⟩
    · refine Or.inl ⟨copyFrom (some r) (min (buf.available .write) max)
        (buf.split .write (min (buf.available .write) max)).next 0, by simp [callStep, hz], ?_,
        Or.inl ⟨got_copyFrom (Nat.zero_le _), rfl⟩⟩
      rw [size_copyFrom]
      exact Nat.min_le_right _ _
  | copy size nextIdx k =>
    refine Or.inl ⟨copyFrom (some r) size nextIdx (k + 1), rfl, (size_copyFrom ..).le, Or.inr ?_⟩
    exact ⟨got_copyFrom hok.2.1, hok.2.1, rfl⟩
  | storeIdx size nextIdx => exact Or.inl ⟨_, rfl, Nat.le_refl _, Or.inl ⟨rfl, rfl⟩⟩
  | fetchAdd size => exact Or.inl ⟨_, rfl, Nat.le_refl _, Or.inl ⟨rfl, rfl⟩⟩
  | fetchSub size => exact Or.inr ⟨rfl, Nat.le_refl _, rfl⟩

namespace Sys.Feeds

variable {s s' : Sys} {K : Region} {b room : ℕ}

theorem frame (h : s.Feeds K b room) (hc : s'.calls .write = s.calls .write)
    (hst : s'.stream .write = s.stream .write) : s'.Feeds K b room := by
  refine ⟨?_, ?_⟩
  · rw [hst, hc]
    exact h.stream
  · rw [hc]
    exact h.slice

/-- Between two calls nothing more is claimed. -/
theorem idle (h : s.Feeds K b room) (hc : s.calls .write = none) (room' : ℕ) :
    s.Feeds K b room' :=
  ⟨h.stream, fun op hop => absurd (hc.symm.trans hop) (by simp)⟩

/-- The next slice. -/
theorem invoke (h : s.Feeds K b room) {r : Region} {max room' : ℕ} (hmax : max ≤ room')
    (hr : ∀ k < max, r k = K (b + k))
    (hs : s.invoke .write (.call (some r) (.load max)) = some s') : s'.Feeds K b room' := by
  have hst := stream_invoke (show (Op.call (some r) (.load max)).pending = [] from rfl) hs
  have hc := calls_invoke hs
  have hnone : s.calls .write = none := by
    unfold Sys.invoke at hs
    split_ifs at hs with hi
    exact Option.isNone_iff_eq_none.mp hi
  have hstream := h.stream
  rw [hnone] at hstream
  refine ⟨?_, ?_⟩
  · rw [hst, hc, Function.update_self]
    exact hstream
  · rintro op hop
    rw [hc, Function.update_self] at hop
    obtain rfl := Option.some.inj hop
    exact ⟨r, .load max, rfl, hmax, hr⟩

/-- A step of the write: when it returns, its slice is done. -/
theorem step (h : s.Feeds K b room) (hwf : s.WellFormed) (hs : s.step (.step .write) = some s') :
    (s.returns .write = none ∧ s'.Feeds K b room) ∨
    ∃ n arg, s.returns .write = some (n, arg) ∧ n ≤ room ∧ s'.calls .write = none ∧
      ∀ room', s'.Feeds K (b + n) room' := by
  cases hop : s.calls .write with
  | none =>
    rw [Sys.step, hop] at hs
    exact absurd hs (by simp)
  | some op =>
    obtain ⟨r, pc, rfl, hsize, hr⟩ := h.slice op hop
    rw [Sys.step, hop] at hs
    obtain rfl := Option.some.inj hs
    have hok := hwf.ok _ _ _ hop
    have hst := stream_afterCall_self (by simp) hop hok
    have hstream := h.stream
    rw [hop] at hstream
    rw [hstream] at hst
    obtain ⟨harg, hcont⟩ := callStep_write hok
    have hcalls := calls_afterCall (s := s) (t := .write) (callStep .write s.buf (some r) pc)
    obtain ⟨m, arg, c, hm⟩ : ∃ m arg c, callStep .write s.buf (some r) pc = (m, arg, c) :=
      ⟨_, _, _, rfl⟩
    rw [hm] at harg hcont hst hcalls ⊢
    obtain rfl : arg = some r := harg
    rcases hcont with ⟨pc', rfl, hle, hgot⟩ | ⟨rfl, hle, hnil⟩
    · refine Or.inl ⟨by simp only [Sys.returns, hop, hm], ?_, ?_⟩
      · rw [hst, hcalls, Function.update_self]
        rcases hgot with ⟨hg, hnil⟩ | ⟨hg, hlt, hone⟩
        · rw [hnil, List.append_nil]
          exact congrArg (fun n => bytes K (b + n)) hg.symm
        · rw [hone, hr _ hlt]
          exact (bytes_succ K (b + pc.got)).symm.trans
            (congrArg (fun n => bytes K (b + n)) hg.symm)
      · rintro op hop'
        rw [hcalls, Function.update_self] at hop'
        obtain rfl := Option.some.inj hop'
        exact ⟨r, pc', rfl, hle.trans hsize, fun k hk => hr k (hk.trans_le hle)⟩
    · refine Or.inr ⟨pc.got, some r, by simp only [Sys.returns, hop, hm], hle.trans hsize, ?_, ?_⟩
      · rw [hcalls, Function.update_self]
      · intro room'
        refine ⟨?_, ?_⟩
        · rw [hst, hcalls, Function.update_self, hnil, List.append_nil]
          rfl
        · rintro op hop'
          rw [hcalls, Function.update_self] at hop'
          exact absurd hop' (by simp)

end Sys.Feeds

end Cryptochan
