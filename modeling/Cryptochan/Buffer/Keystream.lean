import Cryptochan.Buffer.RecodeNone
import Cryptochan.Buffer.XorBuf

/-!
# Cryptochan.Buffer.Keystream — `recode_xor_buf` never loses its place

Each of the two buffers is a system of two threads whose third stage is worked from outside
(`Sys.Driven`): the recoding of `buf` by the nested calls, the reading of `mask_buf` by the outer
one.  On the mask side the outer call behaves like a read of `available_to_recode` bytes at most
without a destination.  `XorBufPc.At` says where the recoder is in both streams; with
`XorSys.Inv` it gives `recodeXorBuf_aligned`.
-/

namespace Cryptochan

open Circular CreditRing

/-! ### Cells that are passed on -/

/-- The bytes behind the recode index, when `fetch_add` is about to pass them on. -/
theorem Piped.behind_recode {buf : CyclicBuffer} {ph : Stage → Phase} {dn pos leak : Stage → ℕ}
    {R W : List UInt8} (h : Piped buf ph dn pos leak R W) {n : ℕ} (hi : ph .recode = .moved n)
    (hd : dn .recode = n) : buf.behind .recode n = (R.drop (pos .recode)).take n := by
  have hr := h.recoded
  have hn := h.balanced.small .recode
  have hrd := h.balanced.held_read
  have hidx := h.balanced.idx_eq .recode
  rw [hi] at hn hidx
  rw [Phase.size_moved] at hn
  rw [Phase.ahead_moved] at hidx
  rw [hd] at hr
  refine List.ext_getElem (by simp [CyclicBuffer.behind]; omega) ?_
  intro j h1 h2
  have hj : j < n := by simpa [CyclicBuffer.behind] using h1
  simp only [CyclicBuffer.behind, List.getElem_map, List.getElem_range, List.getElem_take,
    List.getElem_drop]
  have e : (buf.idx .recode + (buf.totalSize - n) + j) % buf.totalSize =
      (pos .recode + j) % buf.totalSize := by
    rw [hidx, Nat.add_assoc, Nat.mod_add_mod]
    have e' : pos .recode + n + (buf.totalSize - n + j) = pos .recode + j + buf.totalSize := by omega
    rw [e', Nat.add_mod_right]
  rw [e]
  exact h.staged.ready _ (by omega) (by omega)

/-- The bytes that a step of the recoder passes on, by the `size` of its call. -/
def passing (buf : CyclicBuffer) : Op → List UInt8
  | .call _ (.fetchAdd size) => buf.behind .recode size
  | .recodeNone (.fetchAdd size) => buf.behind .recode size
  | _ => []

/-- The counter of the reader moves by that `size`. -/
theorem Balanced.passed_call {buf : CyclicBuffer} {ph : Stage → Phase} {pos leak : Stage → ℕ}
    (h : Balanced buf ph pos leak) {arg : Option Region} {pc : CallPc} (hi : ph .recode = pc.phase) :
    buf.passed (callStep .recode buf arg pc).1 .recode = passing buf (.call arg pc) := by
  cases pc with
  | load max =>
    refine CyclicBuffer.passed_of_eq ?_
    unfold callStep
    split_ifs <;> rfl
  | copy size nextIdx k =>
    refine CyclicBuffer.passed_of_eq ?_
    cases arg <;> simp [callStep]
  | storeIdx size nextIdx => exact CyclicBuffer.passed_of_eq (by simp [callStep])
  | fetchAdd size =>
    have hlt := h.fetchAdd_lt .recode
    rw [hi] at hlt
    exact congrArg (buf.behind .recode) (CyclicBuffer.gained_fetchAdd hlt)
  | fetchSub size => exact CyclicBuffer.passed_of_eq (by simp [callStep, Stage.next])

theorem Balanced.passed_none {buf : CyclicBuffer} {ph : Stage → Phase} {pos leak : Stage → ℕ}
    (h : Balanced buf ph pos leak) {pc : NonePc} (hi : ph .recode = pc.phase) :
    buf.passed (noneStep buf pc).1 .recode = passing buf (.recodeNone pc) := by
  cases pc with
  | load => exact CyclicBuffer.passed_of_eq rfl
  | storeIdx size => exact CyclicBuffer.passed_of_eq (by simp [noneStep])
  | fetchAdd size =>
    have hlt := h.fetchAdd_lt .recode
    rw [hi] at hlt
    exact congrArg (buf.behind .recode) (CyclicBuffer.gained_fetchAdd hlt)
  | storeZero size => exact CyclicBuffer.passed_of_eq (by simp [noneStep, Stage.next])

/-- A writer passes nothing on to the reader. -/
theorem passed_write (buf : CyclicBuffer) (arg : Option Region) (pc : CallPc) :
    buf.passed (callStep .write buf arg pc).1 .recode = [] := by
  refine CyclicBuffer.passed_of_eq ?_
  cases pc with
  | load max => unfold callStep; split_ifs <;> rfl
  | copy size nextIdx k => cases arg <;> simp [callStep]
  | storeIdx | fetchAdd | fetchSub => simp [callStep, Stage.next]

/-- The positions after a step of the call `op` of `t`. -/
def Op.advance (t : Stage) (pos : Stage → ℕ) : Op → Stage → ℕ
  | .call _ pc => pc.advance t pos
  | .recodeNone pc => pc.advance pos

/-- What is readable after a step of the recoder: what was, and the bytes it passes on. -/
theorem Piped.take_passing {buf : CyclicBuffer} {ph : Stage → Phase} {dn pos leak : Stage → ℕ}
    {R W : List UInt8} (h : Piped buf ph dn pos leak R W) (op : Op) (hi : ph .recode = op.phase)
    (hd : dn .recode = op.done) {R' : List UInt8} (hR : R <+: R') :
    R.take (pos .recode) ++ passing buf op =
      R'.take (op.advance .recode pos .recode) := by
  have hr := h.recoded
  obtain ⟨ys, rfl⟩ := hR
  have hkeep : R.take (pos .recode) ++ [] = (R ++ ys).take (pos .recode) := by
    rw [List.append_nil, List.take_append_of_le_length (by omega)]
  have hpass : ∀ n, ph .recode = .moved n → dn .recode = n →
      R.take (pos .recode) ++ buf.behind .recode n = (R ++ ys).take (pos .recode + n) :=
    fun n hn hdn => by
      rw [h.behind_recode hn hdn, List.take_append_of_le_length (by omega), List.take_add]
  cases op with
  | call arg pc =>
    cases pc with
    | fetchAdd n =>
      rw [Op.advance, CallPc.advance, Function.update_self]
      exact hpass n hi hd
    | load | copy | storeIdx | fetchSub => exact hkeep
  | recodeNone pc =>
    cases pc with
    | fetchAdd n =>
      rw [Op.advance, NonePc.advance, Function.update_self]
      exact hpass n hi hd
    | load | storeIdx | storeZero => exact hkeep

/-! ### A buffer one of whose stages is worked from outside -/

/-- The stage `x` has no call of its own; the one that works it is in the phase `p` with `d` bytes
done. -/
structure Sys.Driven (s : Sys) (x : Stage) (p : Phase) (d : ℕ) (pos : Stage → ℕ)
    (W M : List UInt8) : Prop extends s.WellFormed where
  streams : Streams s.buf (Function.update s.phase x p) (Function.update s.done x d) pos
    (fun _ => 0) W M
  free : s.calls x = none

namespace Sys.Driven

variable {s s' : Sys} {x : Stage} {p : Phase} {d : ℕ} {pos : Stage → ℕ} {W M : List UInt8}

theorem ne_of_calls (h : s.Driven x p d pos W M) {t : Stage} {op : Op}
    (ht : s.calls t = some op) : t ≠ x := by
  rintro rfl
  rw [h.free] at ht
  exact absurd ht (by simp)

theorem callAt (h : s.Driven x p d pos W M) {t : Stage} {arg : Option Region} {pc : CallPc}
    (ht : s.calls t = some (.call arg pc)) :
    CallAt s.buf (Function.update s.phase x p) (Function.update s.done x d) t arg pc := by
  have htx := h.ne_of_calls ht
  refine ⟨?_, ?_, h.ok t arg pc ht⟩
  · rw [Function.update_of_ne htx, Sys.phase, ht]; rfl
  · rw [Function.update_of_ne htx, Sys.done, ht]; rfl

/-- Another thread starts a call. -/
theorem invoke (h : s.Driven x p d pos W M) {t : Stage} {op : Op} (htx : t ≠ x)
    (hp : op.phase = .idle) (hd : op.done = 0)
    (hok : ∀ arg pc, op = .call arg pc → pc.Ok s.buf t arg)
    (hn : ∀ pc, op = .recodeNone pc → t = .recode) (hs : s.invoke t op = some s') :
    s'.Driven x p d pos W M := by
  have hwf := h.toWellFormed.invoke hok hn hs
  unfold Sys.invoke at hs
  split_ifs at hs with hc
  obtain rfl := Option.some.inj hs
  rw [Option.isNone_iff_eq_none] at hc
  refine ⟨hwf, ?_, (Function.update_of_ne htx.symm _ _).trans h.free⟩
  rw [phase_invoke hc hp, done_invoke hc hd]
  exact h.streams

/-- A step of a call of another thread. -/
theorem call (h : s.Driven x p d pos W M) {t : Stage} {arg : Option Region} {pc : CallPc}
    (ht : s.calls t = some (.call arg pc)) :
    (s.afterCall t (callStep t s.buf arg pc)).Driven x p d (pc.advance t pos)
      (grow t .write W (stepBytes t s.buf arg pc)) (grow t .recode M (stepBytes t s.buf arg pc)) := by
  have htx := h.ne_of_calls ht
  obtain ⟨hst, hok⟩ := callStep_streams h.streams (h.callAt ht)
  refine ⟨h.toWellFormed.call hok, ?_, ?_⟩
  · rw [buf_afterCall, phase_afterCall, done_afterCall, Function.update_comm htx,
      Function.update_comm htx]
    exact hst
  · rw [calls_afterCall, Function.update_of_ne htx.symm]
    exact h.free

/-- A step of the stage worked from outside. -/
theorem drive {arg : Option Region} {pc : CallPc}
    (h : s.Driven x pc.phase pc.done pos W M) (hok : pc.Ok s.buf x arg) :
    ({ s with buf := (callStep x s.buf arg pc).1 } : Sys).Driven x
      ((callStep x s.buf arg pc).2.2.phase CallPc.phase)
      ((callStep x s.buf arg pc).2.2.done CallPc.done) (pc.advance x pos)
      (grow x .write W (stepBytes x s.buf arg pc)) (grow x .recode M (stepBytes x s.buf arg pc)) ∧
    (callStep x s.buf arg pc).2.2.Ok (callStep x s.buf arg pc).1 x
      (callStep x s.buf arg pc).2.1 := by
  have hat : CallAt s.buf (Function.update s.phase x pc.phase) (Function.update s.done x pc.done) x
      arg pc := ⟨Function.update_self .., Function.update_self .., hok⟩
  obtain ⟨hst, hok'⟩ := callStep_streams h.streams hat
  have hf := callStep_frame x s.buf arg pc
  rw [Function.update_idem, Function.update_idem] at hst
  refine ⟨⟨⟨?_, h.recoder⟩, hst, h.free⟩, hok'⟩
  intro t arg' pc' ht
  exact (h.ok t arg' pc' ht).frame hf (h.ne_of_calls ht)

/-- A step of `recode_none` while no other thread adds to the counter. -/
theorem recodeNone (h : s.Driven x p d pos W M) {pc : NonePc}
    (ht : s.calls .recode = some (.recodeNone pc)) (hcalm : s.excess = 0) :
    (s.afterNone .recode (noneStep s.buf pc)).Driven x p d (pc.advance pos) W
        (M ++ noneBytes s.buf pc) ∧
      (s.afterNone .recode (noneStep s.buf pc)).excess = 0 := by
  have htx := h.ne_of_calls ht
  have hex := Sys.Inv.excess_none (fun _ => 0) ht
  rw [hcalm] at hex
  have hleak : pc.leak s.buf (fun _ => 0) = fun _ => 0 := by
    have h0 : pc.leak s.buf (fun _ => 0) .recode = 0 := by omega
    cases pc with
    | storeZero size => exact Function.update_eq_self_iff.mpr (by simpa [NonePc.leak] using h0)
    | load | storeIdx | fetchAdd => rfl
  have hst := noneStep_streams h.streams pc
    (by rw [Function.update_of_ne htx, Sys.phase, ht]; rfl)
    (by rw [Function.update_of_ne htx, Sys.done, ht]; rfl)
  refine ⟨⟨h.toWellFormed.recodeNone pc, ?_, ?_⟩, by omega⟩
  · rw [hleak] at hst
    rw [buf_afterNone, phase_afterNone, done_afterNone, Function.update_comm htx,
      Function.update_comm htx]
    exact hst
  · rw [calls_afterNone, Function.update_of_ne htx.symm]
    exact h.free

end Sys.Driven

/-! ### Where the recoder is -/

/-- The bytes of a call. -/
def CallPc.size : CallPc → ℕ
  | .load max => max
  | .copy size _ _ | .storeIdx size _ | .fetchAdd size | .fetchSub size => size

/-- `d` bytes of the `size` bytes from position `p` of `mask_buf` on are done, the nested call takes
the next `n` from offset `off`; a second nested call starts at offset `0`. -/
structure Segment (N p size off : ℕ) (second : Option ℕ) (d n : ℕ) : Prop where
  split : d + n + second.getD 0 = size
  cells : ∀ j < n, off + j = (p + d + j) % N
  next : ∀ n', second = some n' → d = 0 ∧ ∀ j < n', j = (p + n + j) % N

namespace XorBufPc

/-- What `buf` sees of the recoder. -/
def dataPhase : XorBufPc → Phase
  | .xor _ _ _ _ pc => pc.phase
  | _ => .idle

def dataDone : XorBufPc → ℕ
  | .xor _ _ _ _ pc => pc.done
  | _ => 0

/-- What `mask_buf` sees of it: a read of at most `available_to_recode` bytes. -/
def maskPc : XorBufPc → CallPc
  | .loadRecode => .load 0
  | .loadMask availableToRecode => .load availableToRecode
  | .xor size nextIdx _ _ _ | .storeIdx size nextIdx => .storeIdx size nextIdx
  | .fetchAdd size => .fetchAdd size
  | .fetchSub size => .fetchSub size

def InnerOk (buf : CyclicBuffer) : XorBufPc → Prop
  | .xor _ _ _ _ pc => ∀ r, pc.Ok buf .recode (some r)
  | _ => True

theorem dataPhase_afterXor (size nextIdx off : ℕ) (second : Option ℕ) (c : Cont CallPc) :
    (afterXor size nextIdx off second c).dataPhase = c.phase CallPc.phase := by
  cases c <;> cases second <;> rfl

theorem dataDone_afterXor (size nextIdx off : ℕ) (second : Option ℕ) (c : Cont CallPc) :
    (afterXor size nextIdx off second c).dataDone = c.done CallPc.done := by
  cases c <;> cases second <;> rfl

theorem maskPc_afterXor (size nextIdx off : ℕ) (second : Option ℕ) (c : Cont CallPc) :
    (afterXor size nextIdx off second c).maskPc = .storeIdx size nextIdx := by
  cases c <;> cases second <;> rfl

theorem innerOk_afterXor {buf : CyclicBuffer} {arg : Option Region} {size nextIdx off : ℕ}
    {second : Option ℕ} {c : Cont CallPc} (h : c.Ok buf .recode arg) :
    (afterXor size nextIdx off second c).InnerOk buf := by
  cases c with
  | goto pc =>
    intro r
    cases pc with
    | copy n ni k => exact ⟨h.1, h.2.1, rfl⟩
    | storeIdx n ni => exact h
    | load | fetchAdd | fetchSub => exact trivial
  | ret n => cases second <;> first | exact trivial | exact fun _ => trivial

theorem InnerOk.frame {buf buf' : CyclicBuffer} {t : Stage} {pc : XorBufPc} (h : pc.InnerOk buf)
    (hf : Frame buf buf' t) (ht : t ≠ .recode) : pc.InnerOk buf' := by
  cases pc with
  | xor size nextIdx off second pc => exact fun r => (h r).frame hf ht.symm
  | loadRecode | loadMask | storeIdx | fetchAdd | fetchSub => exact trivial

/-- The positions in the two streams. -/
def At (N : ℕ) (pos posm : Stage → ℕ) : XorBufPc → Prop
  | .loadRecode | .fetchSub _ => pos .recode = posm .read
  | .loadMask availableToRecode =>
    pos .recode = posm .read ∧ pos .recode + availableToRecode ≤ pos .write
  | .xor size _ off second pc => posm .read + size ≤ pos .write ∧
    ∃ d, Segment N (posm .read) size off second d pc.size ∧
      pos .recode = posm .read + d + pc.phase.owed
  | .storeIdx size _ | .fetchAdd size => pos .recode = posm .read + size

/-- A nested call that goes on. -/
theorem At.goto {N : ℕ} {pos posm : Stage → ℕ} {size nextIdx off d n : ℕ} {second : Option ℕ}
    (hseg : Segment N (posm .read) size off second d n) (hw : posm .read + size ≤ pos .write)
    {pc : CallPc} (hn : pc.size = n) (hp : pos .recode = posm .read + d + pc.phase.owed) :
    (afterXor size nextIdx off second (.goto pc)).At N pos posm :=
  ⟨hw, d, hn ▸ hseg, hp⟩

/-- A nested call that returns: the second one starts, or all is done. -/
theorem At.ret {N : ℕ} {pos posm : Stage → ℕ} {size nextIdx off d n r : ℕ} {second : Option ℕ}
    (hseg : Segment N (posm .read) size off second d n) (hw : posm .read + size ≤ pos .write)
    (hp : pos .recode = posm .read + d + n) :
    (afterXor size nextIdx off second (.ret r)).At N pos posm := by
  have hsplit := hseg.split
  cases second with
  | none =>
    rw [Option.getD_none] at hsplit
    exact (by omega : pos .recode = posm .read + size)
  | some n' =>
    obtain ⟨rfl, hnext⟩ := hseg.next n' rfl
    rw [Option.getD_some] at hsplit
    refine ⟨hw, n, ⟨?_, ?_, by rintro _ ⟨⟩⟩, ?_⟩
    · exact (by omega : n + n' + 0 = size)
    · intro j hj
      rw [Nat.zero_add]
      exact hnext j hj
    · exact (by omega : pos .recode = posm .read + n + 0)

/-- The other threads only move the writer's position on. -/
theorem At.mono {N : ℕ} {pos pos' posm posm' : Stage → ℕ} {pc : XorBufPc} (h : pc.At N pos posm)
    (hw : pos .write ≤ pos' .write) (hr : pos' .recode = pos .recode)
    (hm : posm' .read = posm .read) : pc.At N pos' posm' := by
  cases pc with
  | loadRecode => exact hr.trans (Eq.trans h hm.symm)
  | fetchSub size => exact hr.trans (Eq.trans h hm.symm)
  | storeIdx size nextIdx =>
    have : pos .recode = posm .read + size := h
    exact (by omega : pos' .recode = posm' .read + size)
  | fetchAdd size =>
    have : pos .recode = posm .read + size := h
    exact (by omega : pos' .recode = posm' .read + size)
  | loadMask a =>
    obtain ⟨h1, h2⟩ := h
    exact ⟨by omega, by omega⟩
  | xor size nextIdx off second pc =>
    obtain ⟨h1, d, hseg, h2⟩ := h
    refine ⟨by omega, d, ?_, by omega⟩
    rw [hm]
    exact hseg

end XorBufPc

/-- The program point of the recoder; between calls it is about to start over. -/
def XorSys.pc (s : XorSys) : XorBufPc := s.recoder.getD .loadRecode

/-- The invariant: `M` are the mask bytes used so far. -/
structure XorSys.Inv (s : XorSys) (pos posm : Stage → ℕ) (M : List UInt8) : Prop where
  data : s.data.Driven .recode s.pc.dataPhase s.pc.dataDone pos (s.data.stream .write) M
  xorOnly : s.data.XorOnly
  inner : s.pc.InnerOk s.data.buf
  mask : s.mask.Driven .read s.pc.maskPc.phase s.pc.maskPc.done posm (s.mask.stream .write)
    (s.mask.stream .recode)
  outer : s.pc.maskPc.Ok s.mask.buf .read none
  alone : s.mask.calls .write = none ∨ s.mask.calls .recode = none
  calm : s.mask.excess = 0
  key : M <+: xorStream (s.mask.stream .write) (s.mask.stream .recode)
  place : s.pc.At s.mask.buf.totalSize pos posm
  recoded : s.history.recoded = (xorStream (s.data.stream .write) M).take (pos .recode)
  keyed : s.history.keyed =
    (xorStream (s.mask.stream .write) (s.mask.stream .recode)).take (posm .recode)
  drained : s.history.drained = posm .read
  returned : s.history.returned + s.pc.maskPc.phase.owed = posm .read

/-- The history after a step of the recoder, by the sizes it has computed. -/
def XorSys.recoderHistory (s : XorSys) : XorBufPc → XorHistory
  | .xor _ _ off _ pc =>
    { s.history with
      recoded := s.history.recoded ++ passing s.data.buf (.call (s.mask.buf.maskAt off) pc) }
  | .fetchAdd size => { s.history with drained := s.history.drained + size }
  | .fetchSub size => { s.history with returned := s.history.returned + size }
  | _ => s.history

namespace XorSys.Inv

variable {s s' : XorSys} {pos posm : Stage → ℕ} {M : List UInt8}

/-! ### The threads on `buf` -/

/-- The writer or the reader starts a call. -/
theorem dataInvoke (h : s.Inv pos posm M) {t : Stage} {arg : Option Region} {max : ℕ} {data : Sys}
    (ht : t ≠ .recode) (hx : data.XorOnly)
    (hs : s.data.invoke t (.call arg (.load max)) = some data) :
    ({ s with data } : XorSys).Inv pos posm M := by
  have hst := stream_invoke (by cases arg <;> rfl) hs
  have hb := buf_invoke hs
  have hd := h.data.invoke ht rfl rfl (by rintro _ _ ⟨⟩; exact trivial) (by rintro _ ⟨⟩) hs
  refine ⟨?_, hx, ?_, h.mask, h.outer, h.alone, h.calm, h.key, h.place, ?_, h.keyed, h.drained,
    h.returned⟩
  · rw [hst]
    exact hd
  · exact hb ▸ h.inner
  · rw [hst]
    exact h.recoded

/-- A step of the writer or of the reader. -/
theorem dataStep (h : s.Inv pos posm M) {t : Stage} {arg : Option Region} {pc : CallPc}
    (htr : t ≠ .recode) (ht : s.data.calls t = some (.call arg pc))
    (hx : (s.data.afterCall t (callStep t s.data.buf arg pc)).XorOnly) :
    ({ s with data := s.data.afterCall t (callStep t s.data.buf arg pc) } : XorSys).Inv
      (pc.advance t pos) posm M := by
  have hd := h.data.call ht
  have hw := stream_afterCall ht (h.data.ok _ _ _ ht) (u := .write) (by simp)
  have hM : grow t .recode M (stepBytes t s.data.buf arg pc) = M := if_neg htr
  have hadv : pc.advance t pos .recode = pos .recode := pc.advance_of_ne htr.symm
  have hf := callStep_frame t s.data.buf arg pc
  rw [hM, ← hw] at hd
  refine ⟨hd, hx, ?_, h.mask, h.outer, h.alone, h.calm, h.key,
    h.place.mono (pc.le_advance t .write) hadv rfl, ?_, h.keyed, h.drained, h.returned⟩
  · rw [buf_afterCall]
    exact h.inner.frame hf htr
  · have hgrow : xorStream (grow t .write (s.data.stream .write) (stepBytes t s.data.buf arg pc)) M =
        xorStream (s.data.stream .write) M := by
      unfold grow
      split_ifs
      · exact xorStream_append_left h.data.streams.le _
      · rfl
    rw [hw, hadv, hgrow]
    exact h.recoded

/-! ### The thread on `mask_buf` -/

theorem fillInvoke (h : s.Inv pos posm M) {t : Stage} {op : Op} {mask : Sys} (hidle : s.fillerIdle)
    (htr : t ≠ .read) (hp : op.phase = .idle) (hd : op.done = 0) (hb : op.pending = [])
    (hok : ∀ arg pc, op = .call arg pc → pc.Ok s.mask.buf t arg)
    (hn : ∀ pc, op = .recodeNone pc → t = .recode ∧ pc = .load)
    (hs : s.mask.invoke t op = some mask) : ({ s with mask } : XorSys).Inv pos posm M := by
  have hst := stream_invoke hb hs
  have hbuf := buf_invoke hs
  have hcalls := calls_invoke hs
  simp only [XorSys.fillerIdle, Bool.and_eq_true, Option.isNone_iff_eq_none] at hidle
  have hm := h.mask.invoke htr hp hd hok (fun pc hpc => (hn pc hpc).1) hs
  refine ⟨h.data, h.xorOnly, h.inner, ?_, ?_, ?_, ?_, ?_, ?_, h.recoded, ?_, h.drained, h.returned⟩
  · rw [hst]
    exact hm
  · rw [hbuf]
    exact h.outer
  · rw [hcalls]
    by_cases htw : t = .write
    · exact Or.inr ((Function.update_of_ne (by simp [htw]) _ _).trans hidle.2)
    · exact Or.inl ((Function.update_of_ne (Ne.symm htw) _ _).trans hidle.1)
  · rw [Sys.excess, hcalls]
    by_cases htc : t = .recode
    · subst htc
      rw [Function.update_self]
      cases op with
      | call arg pc => rfl
      | recodeNone pc =>
        rw [(hn pc rfl).2]
        rfl
    · rw [Function.update_of_ne (Ne.symm htc), hidle.2]
      rfl
  · rw [hst]
    exact h.key
  · rw [hbuf]
    exact h.place
  · rw [hst]
    exact h.keyed

/-- What is kept when only the mask side moves on. -/
theorem ofMask (h : s.Inv pos posm M) {mask : Sys} {posm' : Stage → ℕ} {keyed : List UInt8}
    (hm : mask.Driven .read s.pc.maskPc.phase s.pc.maskPc.done posm' (mask.stream .write)
      (mask.stream .recode)) {t : Stage} (hf : Frame s.mask.buf mask.buf t) (htr : t ≠ .read)
    (hpos : posm' .read = posm .read) (halone : mask.calls .write = none ∨ mask.calls .recode = none)
    (hcalm : mask.excess = 0)
    (hgrow : xorStream (s.mask.stream .write) (s.mask.stream .recode) <+:
      xorStream (mask.stream .write) (mask.stream .recode))
    (hkeyed : keyed = (xorStream (mask.stream .write) (mask.stream .recode)).take (posm' .recode)) :
    ({ s with mask, history := { s.history with keyed } } : XorSys).Inv pos posm' M := by
  refine ⟨h.data, h.xorOnly, h.inner, hm, h.outer.frame hf htr.symm, halone, hcalm,
    h.key.trans hgrow, ?_, h.recoded, hkeyed, h.drained.trans hpos.symm, h.returned.trans hpos.symm⟩
  have hN : mask.buf.totalSize = s.mask.buf.totalSize := hf.size
  have hp := h.place.mono (Nat.le_refl _) rfl hpos
  rw [← hN] at hp
  exact hp

/-- A step of a write or of a `recode_xor` on `mask_buf`. -/
theorem fillStep (h : s.Inv pos posm M) {t : Stage} {arg : Option Region} {pc : CallPc}
    (ht : s.mask.calls t = some (.call arg pc)) (hother : ∀ u, u ≠ t → u ≠ .read →
      s.mask.calls u = none) :
    ({ s with
        mask := s.mask.afterCall t (callStep t s.mask.buf arg pc)
        history := { s.history with
          keyed := s.history.keyed ++
            s.mask.buf.passed (s.mask.afterCall t (callStep t s.mask.buf arg pc)).buf .recode } } :
      XorSys).Inv pos (pc.advance t posm) M := by
  have hok := h.mask.ok _ _ _ ht
  have htr := h.mask.ne_of_calls ht
  have hm := h.mask.call ht
  have hw := stream_afterCall ht hok (u := .write) (by simp)
  have hc := stream_afterCall ht hok (u := .recode) (by simp)
  have hpiped := h.mask.streams.piped
  have hgrow : xorStream (s.mask.stream .write) (s.mask.stream .recode) <+:
      xorStream ((s.mask.afterCall t (callStep t s.mask.buf arg pc)).stream .write)
        ((s.mask.afterCall t (callStep t s.mask.buf arg pc)).stream .recode) := by
    rw [hw, hc]
    exact xorStream_mono (prefix_grow ..) (prefix_grow ..) h.mask.streams.le
  have hcalls : ∀ u, u ≠ t → u ≠ .read →
      (s.mask.afterCall t (callStep t s.mask.buf arg pc)).calls u = none := by
    intro u hu hur
    rw [calls_afterCall, Function.update_of_ne hu]
    exact hother u hu hur
  rw [← hw, ← hc] at hm
  refine h.ofMask hm (by rw [buf_afterCall]; exact callStep_frame ..) htr
    (pc.advance_of_ne htr.symm) ?_ ?_ hgrow ?_
  · cases t with
    | write => exact Or.inr (hcalls _ (by simp) (by simp))
    | recode => exact Or.inl (hcalls _ (by simp) (by simp))
    | read => exact absurd rfl htr
  · cases t with
    | write =>
      rw [Sys.excess, hcalls .recode (by simp) (by simp)]
      rfl
    | recode =>
      rw [Sys.excess, calls_afterCall, Function.update_self]
      cases (callStep .recode s.mask.buf arg pc).2.2 <;> rfl
    | read => exact absurd rfl htr
  · cases t with
    | write =>
      have hlen := hpiped.recoded
      obtain ⟨ys, hys⟩ := hgrow
      rw [buf_afterCall, passed_write, List.append_nil, pc.advance_of_ne (by simp), ← hys,
        List.take_append_of_le_length (by omega)]
      exact h.keyed
    | recode =>
      have hcat := h.mask.callAt ht
      rw [buf_afterCall, hpiped.balanced.passed_call hcat.phase, h.keyed]
      exact hpiped.take_passing (.call arg pc) hcat.phase hcat.done hgrow
    | read => exact absurd rfl htr

/-- A step of `recode_none` on `mask_buf`. -/
theorem fillNone (h : s.Inv pos posm M) {pc : NonePc}
    (ht : s.mask.calls .recode = some (.recodeNone pc)) (hother : s.mask.calls .write = none) :
    ({ s with
        mask := s.mask.afterNone .recode (noneStep s.mask.buf pc)
        history := { s.history with
          keyed := s.history.keyed ++
            s.mask.buf.passed (s.mask.afterNone .recode (noneStep s.mask.buf pc)).buf .recode } } :
      XorSys).Inv pos (pc.advance posm) M := by
  have hphase : Function.update s.mask.phase .read s.pc.maskPc.phase .recode = pc.phase := by
    rw [Function.update_of_ne (by simp), Sys.phase, ht]; rfl
  obtain ⟨hm, hcalm⟩ := h.mask.recodeNone ht h.calm
  obtain ⟨hw, hc⟩ := stream_afterNone ht
  have hgrow : xorStream (s.mask.stream .write) (s.mask.stream .recode) <+:
      xorStream ((s.mask.afterNone .recode (noneStep s.mask.buf pc)).stream .write)
        ((s.mask.afterNone .recode (noneStep s.mask.buf pc)).stream .recode) := by
    rw [hw, hc]
    exact xorStream_mono (List.prefix_refl _) (List.prefix_append _ _) h.mask.streams.le
  rw [← hw, ← hc] at hm
  refine h.ofMask hm (by rw [buf_afterNone]; exact noneStep_frame ..) (by simp) ?_ ?_ hcalm hgrow ?_
  · cases pc with
    | fetchAdd size => exact Function.update_of_ne (Stage.noConfusion : Stage.read ≠ .recode) _ _
    | load | storeIdx | storeZero => rfl
  · rw [calls_afterNone, Function.update_of_ne (by simp)]
    exact Or.inl hother
  · rw [buf_afterNone, h.mask.streams.piped.balanced.passed_none hphase, h.keyed]
    refine h.mask.streams.piped.take_passing (.recodeNone pc) hphase ?_ hgrow
    · rw [Function.update_of_ne (by simp), Sys.done, ht]; rfl

/-! ### The recoder, outside the nested calls -/

/-- The counters and the result of a step are what the sizes of the recoder say. -/
theorem recoderStep_eq (h : s.Inv pos posm M) {pc : XorBufPc} (hs : s.pc = pc) :
    s.recoderStep pc = { s.recoderStep pc with history := s.recoderHistory pc } := by
  have hd := h.data.streams.piped.balanced
  have hm := h.mask.streams.piped.balanced
  rw [hs] at hd hm
  have hhist : (s.recoderStep pc).history = s.recoderHistory pc := by
    cases pc with
    | loadRecode =>
      simp only [XorSys.recoderStep, xorBufStep]
      split_ifs <;> simp [XorSys.recoderHistory, Cont.value]
    | loadMask a =>
      simp only [XorSys.recoderStep, xorBufStep]
      split_ifs <;> simp [XorSys.recoderHistory, Cont.value]
    | xor size nextIdx off second pc =>
      have hpass : s.data.buf.passed
          (callStep .recode s.data.buf (s.mask.buf.maskAt off) pc).1 .recode =
            passing s.data.buf (.call (s.mask.buf.maskAt off) pc) :=
        hd.passed_call (Function.update_self ..)
      simp only [XorSys.recoderStep, xorBufStep, CyclicBuffer.gained_self, Cont.value, hpass,
        Nat.add_zero, XorSys.recoderHistory]
    | storeIdx size nextIdx =>
      have hgain : s.mask.buf.gained (s.mask.buf.setIdx .read nextIdx) .write = 0 :=
        CyclicBuffer.gained_of_eq (by simp)
      simp [XorSys.recoderStep, xorBufStep, XorSys.recoderHistory, Cont.value, hgain]
    | fetchAdd size =>
      have hlt := hm.fetchAdd_lt .read
      rw [Function.update_self] at hlt
      have hgain : s.mask.buf.gained (s.mask.buf.fetchAdd .write size) .write = size :=
        CyclicBuffer.gained_fetchAdd hlt
      simp [XorSys.recoderStep, xorBufStep, XorSys.recoderHistory, Cont.value, hgain]
    | fetchSub size =>
      have hgain : s.mask.buf.gained (s.mask.buf.fetchSub .read size) .write = 0 :=
        CyclicBuffer.gained_of_eq (by simp)
      simp [XorSys.recoderStep, xorBufStep, XorSys.recoderHistory, Cont.value, hgain]
  rw [← hhist]

/-- What is kept by a step on the mask side. -/
theorem ofOuter (h : s.Inv pos posm M) (next : Option XorBufPc) (posm' : Stage → ℕ)
    (drained returned : ℕ) (hpos : posm' = s.pc.maskPc.advance .read posm)
    (hphase : (callStep .read s.mask.buf none s.pc.maskPc).2.2.phase CallPc.phase =
      (next.getD .loadRecode).maskPc.phase)
    (hdone : (callStep .read s.mask.buf none s.pc.maskPc).2.2.done CallPc.done =
      (next.getD .loadRecode).maskPc.done)
    (hok : (next.getD .loadRecode).maskPc.Ok (callStep .read s.mask.buf none s.pc.maskPc).1 .read none)
    (hdata : (next.getD .loadRecode).dataPhase = s.pc.dataPhase)
    (hdataDone : (next.getD .loadRecode).dataDone = s.pc.dataDone)
    (hinner : (next.getD .loadRecode).InnerOk s.data.buf)
    (hplace : (next.getD .loadRecode).At s.mask.buf.totalSize pos posm')
    (hdrained : drained = posm' .read)
    (hreturned : returned + (next.getD .loadRecode).maskPc.phase.owed = posm' .read) :
    XorSys.Inv ⟨s.data, { s.mask with buf := (callStep .read s.mask.buf none s.pc.maskPc).1 }, next,
      { s.history with drained, returned }⟩ pos posm' M := by
  obtain ⟨hm, -⟩ := h.mask.drive h.outer
  have hf := callStep_frame .read s.mask.buf none s.pc.maskPc
  rw [hphase, hdone, ← hpos] at hm
  refine ⟨?_, h.xorOnly, hinner, hm, hok, h.alone, ?_, h.key, ?_, h.recoded, ?_, hdrained, hreturned⟩
  · have hd := h.data
    rw [← hdata, ← hdataDone] at hd
    exact hd
  · have he : ({ s.mask with buf := (callStep .read s.mask.buf none s.pc.maskPc).1 } : Sys).excess =
        s.mask.excess := Sys.excess_congr rfl (available_recode_read s.pc.maskPc)
    exact he.trans h.calm
  · have hN : (callStep .read s.mask.buf none s.pc.maskPc).1.totalSize = s.mask.buf.totalSize := hf.size
    rw [← hN] at hplace
    exact hplace
  · have hr : posm' .recode = posm .recode := by
      rw [hpos]
      exact CallPc.advance_of_ne (by simp) _
    rw [hr]
    exact h.keyed

/-- The load of `available_to_recode`. -/
theorem loadRecode (h : s.Inv pos posm M) (hpc : s.recoder = some .loadRecode) :
    (s.recoderStep .loadRecode).Inv pos posm M := by
  have hs : s.pc = .loadRecode := by rw [XorSys.pc, hpc]; rfl
  have hd := h.data
  have hm := h.mask
  have hplace := h.place
  have hret := h.returned
  have hcr := h.data.streams.piped.balanced.credit_recode
  rw [hs] at hd hm hplace hret hcr
  rw [Function.update_self] at hcr
  have hcr' : s.data.buf.available .recode + pos .recode + 0 = pos .write + 0 := hcr
  rw [h.recoderStep_eq hs]
  by_cases hz : s.data.buf.available .recode = 0
  · simp only [XorSys.recoderStep, xorBufStep, if_pos hz]
    exact ⟨hd, h.xorOnly, trivial, hm, trivial, h.alone, h.calm, h.key, hplace, h.recoded, h.keyed,
      h.drained, hret⟩
  · simp only [XorSys.recoderStep, xorBufStep, if_neg hz]
    exact ⟨hd, h.xorOnly, trivial, hm, trivial, h.alone, h.calm, h.key, ⟨hplace, by omega⟩,
      h.recoded, h.keyed, h.drained, hret⟩

/-- The segments of the mask from the read index on. -/
theorem segment_start {maskBuf : CyclicBuffer} (hsz : maskBuf.Sized) {p size : ℕ}
    (hidx : maskBuf.idx .read = p % maskBuf.totalSize) (hs : size ≤ maskBuf.totalSize) :
    if maskBuf.totalSize < u32Add (maskBuf.idx .read) size then
      Segment maskBuf.totalSize p size (maskBuf.idx .read) (some (maskBuf.split .read size).second) 0
        (maskBuf.split .read size).first
    else Segment maskBuf.totalSize p size (maskBuf.idx .read) none 0 size := by
  have hlt : maskBuf.idx .read < maskBuf.totalSize := hidx ▸ Nat.mod_lt _ hsz.pos
  have h32 := hsz.lt_uint32
  have hcell : ∀ j, (p + 0 + j) % maskBuf.totalSize =
      (maskBuf.idx .read + j) % maskBuf.totalSize := by
    intro j
    rw [hidx, Nat.mod_add_mod, Nat.add_zero]
  rw [u32Add_eq (by omega), CyclicBuffer.split_eq hsz hlt hs]
  split_ifs with hw
  · refine ⟨?_, ?_, ?_⟩
    · simp only [Option.getD_some]
      omega
    · intro j hj
      rw [hcell]
      exact (Nat.mod_eq_of_lt (by simp only at hj; omega)).symm
    · rintro n' ⟨⟩
      refine ⟨rfl, ?_⟩
      intro j hj
      simp only at hj
      have e := hcell (maskBuf.totalSize - maskBuf.idx .read + j)
      rw [Nat.add_zero, ← Nat.add_assoc] at e
      rw [e, show maskBuf.idx .read + (maskBuf.totalSize - maskBuf.idx .read + j) =
        j + maskBuf.totalSize by omega, Nat.add_mod_right, Nat.mod_eq_of_lt (by omega)]
  · refine ⟨?_, ?_, by rintro n' ⟨⟩⟩
    · simp
    · intro j hj
      rw [hcell]
      exact (Nat.mod_eq_of_lt (by omega)).symm

/-- The load of the mask's `available_to_read`, and the choice of the segments. -/
theorem loadMask (h : s.Inv pos posm M) {a : ℕ} (hpc : s.recoder = some (.loadMask a)) :
    (s.recoderStep (.loadMask a)).Inv pos posm M := by
  have hs : s.pc = .loadMask a := by rw [XorSys.pc, hpc]; rfl
  have hret := h.returned
  have hplace := h.place
  rw [hs] at hret hplace
  obtain ⟨hp1, hp2⟩ := hplace
  have hph : Function.update s.mask.phase .read s.pc.maskPc.phase .read = .idle := by
    rw [Function.update_self, hs]; rfl
  have hb := h.mask.streams.piped.balanced
  have hidx := hb.idx_eq .read
  rw [hph, Phase.ahead_idle, Nat.add_zero] at hidx
  have hle := hb.available_le_of_idle hph
  by_cases hz : s.mask.buf.available .read = 0
  · have hd := h.data
    have hm := h.mask
    rw [hs] at hd hm
    rw [h.recoderStep_eq hs]
    simp only [XorSys.recoderStep, xorBufStep, if_pos hz]
    exact ⟨hd, h.xorOnly, trivial, hm, trivial, h.alone, h.calm, h.key, hp1, h.recoded, h.keyed,
      h.drained, hret⟩
  · have hsize : min a (s.mask.buf.available .read) ≤ s.mask.buf.totalSize :=
      (Nat.min_le_right _ _).trans hle
    have hroom : posm .read + min a (s.mask.buf.available .read) ≤ pos .write := by
      have := Nat.min_le_left a (s.mask.buf.available .read)
      omega
    have hseg := segment_start hb.sized hidx hsize
    have e : callStep .read s.mask.buf none s.pc.maskPc = (s.mask.buf, none, .goto (.storeIdx
        (min a (s.mask.buf.available .read))
        (s.mask.buf.split .read (min a (s.mask.buf.available .read))).next)) := by
      rw [hs]
      simp [XorBufPc.maskPc, callStep, hz, copyFrom, Nat.min_comm]
    have hnext : (s.mask.buf.split .read (min a (s.mask.buf.available .read))).next = _ :=
      hb.split_next hsize
    -- both branches start a nested call; they differ in the segments
    have key : ∀ second n, Segment s.mask.buf.totalSize (posm .read)
        (min a (s.mask.buf.available .read)) (s.mask.buf.idx .read) second 0 n →
        XorSys.Inv ⟨s.data, s.mask, some (.xor (min a (s.mask.buf.available .read))
          (s.mask.buf.split .read (min a (s.mask.buf.available .read))).next (s.mask.buf.idx .read)
          second (.load n)), s.history⟩ pos posm M := by
      intro second n hsegn
      have hO := h.ofOuter (some (.xor (min a (s.mask.buf.available .read))
        (s.mask.buf.split .read (min a (s.mask.buf.available .read))).next (s.mask.buf.idx .read)
        second (.load n))) posm s.history.drained s.history.returned
      rw [e] at hO
      refine hO ?_ rfl rfl hnext ?_ ?_ (fun _ => trivial) ⟨hroom, 0, hsegn, ?_⟩ h.drained hret
      · rw [hs]; rfl
      · rw [hs]; rfl
      · rw [hs]; rfl
      · exact hp1
    rw [h.recoderStep_eq hs]
    simp only [XorSys.recoderStep, xorBufStep, if_neg hz]
    split_ifs with hw
    · rw [if_pos hw] at hseg
      exact key _ _ hseg
    · rw [if_neg hw] at hseg
      exact key _ _ hseg

/-- The `// advance mask buf` lines. -/
theorem advanceMask (h : s.Inv pos posm M) {pc : XorBufPc} (hpc : s.recoder = some pc)
    (hadv : (∃ size nextIdx, pc = .storeIdx size nextIdx) ∨ (∃ size, pc = .fetchAdd size) ∨
      ∃ size, pc = .fetchSub size) :
    (s.recoderStep pc).Inv pos (pc.maskPc.advance .read posm) M := by
  have hs : s.pc = pc := by rw [XorSys.pc, hpc]; rfl
  have hret := h.returned
  have hplace := h.place
  have hdr := h.drained
  rw [hs] at hret hplace
  have hO := h.ofOuter
  rw [hs] at hO
  rw [h.recoderStep_eq hs]
  rcases hadv with ⟨size, nextIdx, rfl⟩ | ⟨size, rfl⟩ | ⟨size, rfl⟩
  · exact hO (some (.fetchAdd size)) posm s.history.drained s.history.returned rfl rfl rfl trivial
      rfl rfl trivial hplace hdr hret
  · have hadd : Function.update posm .read (posm .read + size) .read = posm .read + size :=
      Function.update_self ..
    refine hO (some (.fetchSub size)) _ (s.history.drained + size) s.history.returned rfl rfl rfl
      trivial rfl rfl trivial ?_ ?_ ?_
    · exact Eq.trans hplace hadd.symm
    · exact (congrArg (· + size) hdr).trans hadd.symm
    · exact (congrArg (· + size) hret).trans hadd.symm
  · exact hO none posm s.history.drained (s.history.returned + size) rfl rfl rfl trivial rfl rfl
      trivial hplace hdr hret

/-! ### The nested calls -/

/-- The mask byte of an XOR is the next one of the key stream. -/
theorem next_key (h : s.Inv pos posm M) {size nextIdx off : ℕ} {second : Option ℕ} {n ni k : ℕ}
    (hs : s.pc = .xor size nextIdx off second (.copy n ni k)) (hk : k < n) :
    ∃ hlt : M.length < (xorStream (s.mask.stream .write) (s.mask.stream .recode)).length,
      s.mask.buf.dataPtr (off + k) =
        (xorStream (s.mask.stream .write) (s.mask.stream .recode))[M.length] := by
  have hplace := h.place
  have hlenM := h.data.streams.length_masked
  have hheld := h.mask.streams.piped.balanced.held_read
  have hlenR := h.mask.streams.piped.recoded
  rw [hs] at hplace hlenM hheld
  rw [Function.update_self] at hlenM hheld
  obtain ⟨-, d, hseg, hp⟩ := hplace
  have hsplit : d + n + second.getD 0 = size := hseg.split
  have hp' : pos .recode = posm .read + d + 0 := hp
  have hM : M.length = pos .recode + k := hlenM
  have hheld' : posm .read + size ≤ posm .recode := hheld
  have hlt : M.length < (xorStream (s.mask.stream .write) (s.mask.stream .recode)).length := by omega
  refine ⟨hlt, ?_⟩
  have hcell : off + k = M.length % s.mask.buf.totalSize := by
    rw [hseg.cells k hk]
    congr 1
    omega
  rw [hcell]
  exact h.mask.streams.piped.staged.ready _ hlt (by omega)

/-- Where a step of a nested call leads. -/
theorem place_xor (h : s.Inv pos posm M) {size nextIdx off : ℕ} {second : Option ℕ} {pc : CallPc}
    (hs : s.pc = .xor size nextIdx off second pc) :
    (afterXor size nextIdx off second
      (callStep .recode s.data.buf (s.mask.buf.maskAt off) pc).2.2).At s.mask.buf.totalSize
        (pc.advance .recode pos) posm := by
  have hplace := h.place
  have hcr := h.data.streams.piped.balanced.credit_recode
  rw [hs] at hplace hcr
  rw [Function.update_self] at hcr
  obtain ⟨hw, d, hseg, hp⟩ := hplace
  cases pc with
  | load max =>
    have hcr' : s.data.buf.available .recode + pos .recode + 0 = pos .write + 0 := hcr
    have hp' : pos .recode = posm .read + d + 0 := hp
    have hsplit : d + max + second.getD 0 = size := hseg.split
    -- the counter has at least what the outer call saw
    have hmax : max ≤ s.data.buf.available .recode := by omega
    by_cases hz : s.data.buf.available .recode = 0
    · simp only [callStep, if_pos hz]
      refine XorBufPc.At.ret hseg hw ?_
      have h0 : max = 0 := by omega
      exact (by omega : pos .recode = posm .read + d + max)
    · simp only [callStep, if_neg hz, Nat.min_eq_right hmax]
      refine XorBufPc.At.goto hseg hw ?_ ?_
      · unfold copyFrom
        split_ifs <;> rfl
      · rw [copyFrom_phase]
        exact hp
  | copy n ni k =>
    refine XorBufPc.At.goto hseg hw ?_ ?_
    · unfold copyFrom
      split_ifs <;> rfl
    · rw [copyFrom_phase]
      exact hp
  | storeIdx n ni => exact XorBufPc.At.goto hseg hw rfl hp
  | fetchAdd n =>
    have hadd : Function.update pos .recode (pos .recode + n) .recode = pos .recode + n :=
      Function.update_self ..
    refine XorBufPc.At.goto hseg ?_ rfl ?_
    · exact hw.trans (CallPc.le_advance (.fetchAdd n) .recode .write)
    · have hp' : pos .recode = posm .read + d + 0 := hp
      exact hadd.trans (by omega : pos .recode + n = posm .read + d + n)
  | fetchSub n => exact XorBufPc.At.ret hseg hw hp

/-- A step of a nested call. -/
theorem xor (h : s.Inv pos posm M) {size nextIdx off : ℕ} {second : Option ℕ} {pc : CallPc}
    (hpc : s.recoder = some (.xor size nextIdx off second pc)) :
    (s.recoderStep (.xor size nextIdx off second pc)).Inv (pc.advance .recode pos) posm
      (M ++ stepBytes .recode s.data.buf (s.mask.buf.maskAt off) pc) := by
  have hs : s.pc = .xor size nextIdx off second pc := by rw [XorSys.pc, hpc]; rfl
  have hd := h.data
  have hinner := h.inner
  have hm := h.mask
  have hout := h.outer
  have hret := h.returned
  have hplace := h.place_xor hs
  rw [hs] at hd hinner hm hout hret
  have hok : pc.Ok s.data.buf .recode (s.mask.buf.maskAt off) := hinner _
  obtain ⟨hd', hok'⟩ := Sys.Driven.drive hd hok
  have hmaskPc := XorBufPc.maskPc_afterXor size nextIdx off second
    (callStep .recode s.data.buf (s.mask.buf.maskAt off) pc).2.2
  have hW : grow .recode .write (s.data.stream .write)
      (stepBytes .recode s.data.buf (s.mask.buf.maskAt off) pc) = s.data.stream .write := rfl
  have hM : grow .recode .recode M (stepBytes .recode s.data.buf (s.mask.buf.maskAt off) pc) =
      M ++ stepBytes .recode s.data.buf (s.mask.buf.maskAt off) pc := rfl
  rw [hW, hM] at hd'
  rw [h.recoderStep_eq hs]
  simp only [XorSys.recoderStep, xorBufStep]
  refine ⟨?_, h.xorOnly, XorBufPc.innerOk_afterXor hok', ?_, ?_, h.alone, h.calm, ?_, hplace, ?_,
    h.keyed, h.drained, ?_⟩
  · rw [← XorBufPc.dataPhase_afterXor size nextIdx off second,
      ← XorBufPc.dataDone_afterXor size nextIdx off second] at hd'
    exact hd'
  · have hm' : s.mask.Driven .read _ _ posm _ _ := hm
    rw [← show _ = XorBufPc.maskPc (.xor size nextIdx off second pc) from hmaskPc] at hm'
    exact hm'
  · have hout' := hout
    rw [← show _ = XorBufPc.maskPc (.xor size nextIdx off second pc) from hmaskPc] at hout'
    exact hout'
  · cases pc with
    | copy n ni k =>
      obtain ⟨hlt, e⟩ := h.next_key hs (hinner (fun _ => 0)).2.1
      have hb : stepBytes .recode s.data.buf (s.mask.buf.maskAt off) (.copy n ni k) =
        [s.mask.buf.dataPtr (off + k)] := rfl
      rw [hb, e]
      exact prefix_snoc h.key hlt
    | load | storeIdx | fetchAdd | fetchSub =>
      have hb : M ++ [] = M := List.append_nil M
      exact hb.symm ▸ h.key
  · have hp := hd.streams.piped
    have key := hp.take_passing (.call (s.mask.buf.maskAt off) pc) (Function.update_self ..)
      (Function.update_self ..) (xorStream_mono (List.prefix_refl _) (List.prefix_append M
        (stepBytes .recode s.data.buf (s.mask.buf.maskAt off) pc)) hd.streams.le)
    rw [← h.recoded] at key
    exact key
  · have hret' := hret
    rw [← show _ = XorBufPc.maskPc (.xor size nextIdx off second pc) from hmaskPc] at hret'
    exact hret'

/-! ### Runs -/

/-- A step of the filling thread. -/
theorem fillerStep (h : s.Inv pos posm M) (hs : s.fillerStep = some s') :
    ∃ posm', s'.Inv pos posm' M := by
  unfold XorSys.fillerStep at hs
  obtain ⟨mask, hmask, rfl⟩ := Option.map_eq_some_iff.mp hs
  have hfree := h.mask.free
  cases hw : s.mask.calls .write with
  | some op =>
    have hst : s.fillerStage = .write := by simp [XorSys.fillerStage, hw]
    have hc : s.mask.calls .recode = none := by
      rcases h.alone with h0 | h0
      · rw [hw] at h0
        exact absurd h0 (by simp)
      · exact h0
    rw [hst, Sys.step, hw] at hmask
    cases op with
    | recodeNone pc => exact absurd (h.mask.recoder _ _ hw) (by simp)
    | call arg pc =>
      obtain rfl := Option.some.inj hmask
      refine ⟨_, h.fillStep hw ?_⟩
      intro u hu hur
      cases u with
      | write => exact absurd rfl hu
      | recode => exact hc
      | read => exact hfree
  | none =>
    have hst : s.fillerStage = .recode := by simp [XorSys.fillerStage, hw]
    rw [hst, Sys.step] at hmask
    cases hc : s.mask.calls .recode with
    | none =>
      rw [hc] at hmask
      exact absurd hmask (by simp)
    | some op =>
      rw [hc] at hmask
      cases op with
      | recodeNone pc =>
        obtain rfl := Option.some.inj hmask
        exact ⟨_, h.fillNone hc hw⟩
      | call arg pc =>
        obtain rfl := Option.some.inj hmask
        refine ⟨_, h.fillStep hc ?_⟩
        intro u hu hur
        cases u with
        | write => exact hw
        | recode => exact absurd rfl hu
        | read => exact hfree

/-- A step of the recoder. -/
theorem recoderStep (h : s.Inv pos posm M) {pc : XorBufPc} (hpc : s.recoder = some pc) :
    ∃ pos' posm' M', (s.recoderStep pc).Inv pos' posm' M' := by
  cases pc with
  | loadRecode => exact ⟨_, _, _, h.loadRecode hpc⟩
  | loadMask a => exact ⟨_, _, _, h.loadMask hpc⟩
  | xor size nextIdx off second pc => exact ⟨_, _, _, h.xor hpc⟩
  | storeIdx size nextIdx => exact ⟨_, _, _, h.advanceMask hpc (Or.inl ⟨_, _, rfl⟩)⟩
  | fetchAdd size => exact ⟨_, _, _, h.advanceMask hpc (Or.inr (Or.inl ⟨_, rfl⟩))⟩
  | fetchSub size => exact ⟨_, _, _, h.advanceMask hpc (Or.inr (Or.inr ⟨_, rfl⟩))⟩

/-- A step of the writer or of the reader. -/
theorem dataEvent (h : s.Inv pos posm M) {t : Stage} (htr : t ≠ .recode) {data : Sys}
    (hs : s.data.step (.step t) = some data) :
    ∃ pos', ({ s with data } : XorSys).Inv pos' posm M := by
  have hx := h.xorOnly.step (show Event.UsesXor (.step t) from trivial) hs
  rw [Sys.step] at hs
  split at hs
  · exact absurd hs (by simp)
  · next arg pc ht =>
    obtain rfl := Option.some.inj hs
    exact ⟨_, h.dataStep htr ht hx⟩
  · next pc ht => exact absurd ht (h.xorOnly t pc)

/-- **Step lemma.** -/
theorem step (h : s.Inv pos posm M) {e : XorEvent} (hs : s.step e = some s') :
    ∃ pos' posm' M', s'.Inv pos' posm' M' := by
  cases e with
  | write src max =>
    obtain ⟨data, hd, rfl⟩ := Option.map_eq_some_iff.mp hs
    exact ⟨_, _, _, h.dataInvoke (by simp)
      (h.xorOnly.step (show Event.UsesXor (.write src max) from trivial) hd) hd⟩
  | read dest max =>
    obtain ⟨data, hd, rfl⟩ := Option.map_eq_some_iff.mp hs
    exact ⟨_, _, _, h.dataInvoke (by simp)
      (h.xorOnly.step (show Event.UsesXor (.read dest max) from trivial) hd) hd⟩
  | fill c =>
    simp only [XorSys.step] at hs
    split_ifs at hs with hidle
    obtain ⟨mask, hm, rfl⟩ := Option.map_eq_some_iff.mp hs
    cases c with
    | write src max | recodeXor src max =>
      refine ⟨_, _, _, h.fillInvoke hidle (by simp) rfl rfl ?_ ?_ ?_ hm⟩
      · cases src <;> rfl
      · rintro _ _ ⟨⟩
        exact trivial
      · rintro _ ⟨⟩
    | recodeNone =>
      refine ⟨_, _, _, h.fillInvoke hidle (by simp) rfl rfl rfl ?_ ?_ hm⟩
      · rintro _ _ ⟨⟩
      · rintro _ ⟨⟩
        exact ⟨rfl, rfl⟩
  | recodeXorBuf =>
    simp only [XorSys.step] at hs
    split_ifs at hs with hnone
    obtain rfl := Option.some.inj hs
    have hpc : s.pc = .loadRecode := by
      rw [XorSys.pc, Option.isNone_iff_eq_none.mp hnone]
      rfl
    have hd := h.data
    have hm := h.mask
    have hplace := h.place
    have hret := h.returned
    rw [hpc] at hd hm hplace hret
    exact ⟨_, _, _, hd, h.xorOnly, trivial, hm, trivial, h.alone, h.calm, h.key, hplace, h.recoded,
      h.keyed, h.drained, hret⟩
  | writerStep =>
    obtain ⟨data, hd, rfl⟩ := Option.map_eq_some_iff.mp hs
    obtain ⟨pos', h'⟩ := h.dataEvent (by simp) hd
    exact ⟨_, _, _, h'⟩
  | readerStep =>
    obtain ⟨data, hd, rfl⟩ := Option.map_eq_some_iff.mp hs
    obtain ⟨pos', h'⟩ := h.dataEvent (by simp) hd
    exact ⟨_, _, _, h'⟩
  | fillerStep =>
    obtain ⟨posm', h'⟩ := h.fillerStep hs
    exact ⟨_, _, _, h'⟩
  | recoderStep =>
    obtain ⟨pc, hpc, rfl⟩ := Option.map_eq_some_iff.mp hs
    exact h.recoderStep hpc

theorem start {buf maskBuf : CyclicBuffer} (hb : (Sys.start buf).Inv (fun _ => 0) fun _ => 0)
    (hm : (Sys.start maskBuf).Inv (fun _ => 0) fun _ => 0) :
    (XorSys.start buf maskBuf).Inv (fun _ => 0) (fun _ => 0) [] := by
  have hph : ∀ b t, Function.update (Sys.start b).phase t .idle = (Sys.start b).phase :=
    fun b t => Function.update_eq_self t (Sys.start b).phase
  have hdn : ∀ b t, Function.update (Sys.start b).done t 0 = (Sys.start b).done :=
    fun b t => Function.update_eq_self t (Sys.start b).done
  refine ⟨⟨hb.toWellFormed, ?_, rfl⟩, fun t pc => by simp [XorSys.start, Sys.start], trivial,
    ⟨hm.toWellFormed, ?_, rfl⟩, trivial, Or.inl rfl, rfl, List.prefix_refl _, rfl, rfl, rfl, rfl, rfl⟩
  · have hst := hb.streams
    rw [← hph buf .recode, ← hdn buf .recode] at hst
    exact hst
  · have hst := hm.streams
    rw [← hph maskBuf .read, ← hdn maskBuf .read] at hst
    exact hst

end XorSys.Inv

/-- **The cipher stream stays aligned**: between two calls of the recoder as many bytes of `buf` are
recoded as bytes of `mask_buf` are drained, and byte `i` that became readable in `buf` is byte `i`
written to it XOR byte `i` that became readable in `mask_buf`. -/
theorem recodeXorBuf_aligned (malloc mallocMask : ℕ → Option Region) (chunks maskChunks : ℤ)
    (buf maskBuf : CyclicBuffer) (h1 : 1 ≤ chunks) (h2 : chunks ≤ 0x40000) (h3 : 1 ≤ maskChunks)
    (h4 : maskChunks ≤ 0x40000) (hinit : cyclicBufferInit malloc chunks = .ok buf)
    (hinitMask : cyclicBufferInit mallocMask maskChunks = .ok maskBuf) (es : List XorEvent) (s : XorSys)
    (hrun : Run.run XorSys.step (XorSys.start buf maskBuf) es = some s) (hidle : s.recoder = none) :
    s.history.recoded.length = s.history.drained ∧
    s.history.drained = s.history.returned ∧
    ∀ i (h : i < s.history.recoded.length),
      ∃ (hw : i < s.data.history.written.length) (hk : i < s.history.keyed.length),
        s.history.recoded[i] = s.data.history.written[i] ^^^ s.history.keyed[i] := by
  obtain ⟨pos, posm, M, hi⟩ : ∃ pos posm M, s.Inv pos posm M := by
    refine Run.run_invariant (fun _ => True) (fun s => ∃ pos posm M, s.Inv pos posm M) ?_ ?_
      (fun _ _ => trivial) hrun
    · exact ⟨_, _, _, XorSys.Inv.start (start_inv h1 h2 hinit) (start_inv h3 h4 hinitMask)⟩
    · rintro s e s' - ⟨pos, posm, M, hi⟩ hs
      exact hi.step hs
  have hpc : s.pc = .loadRecode := by rw [XorSys.pc, hidle]; rfl
  have hb := hi.data.streams.piped
  have hm := hi.mask.streams.piped
  have hplace := hi.place
  have hlenM := hi.data.streams.length_masked
  have hret := hi.returned
  have hheld := hm.balanced.held_read
  rw [hpc] at hplace hlenM hret hheld
  rw [Function.update_self] at hlenM hheld
  have hp : pos .recode = posm .read := hplace
  have hM : M.length = pos .recode + 0 := hlenM
  have hr : s.history.returned + 0 = posm .read := hret
  have hX : (xorStream (s.data.stream .write) M).length = M.length :=
    length_xorStream hi.data.streams.le
  have hrec : s.history.recoded = xorStream (s.data.stream .write) M := by
    rw [hi.recoded, List.take_of_length_le (by omega)]
  have hdr := hi.drained
  refine ⟨by rw [hrec, hX]; omega, by omega, ?_⟩
  intro i h
  have hiM : i < M.length := by rw [hrec, hX] at h; exact h
  have hwritten : i < s.data.history.written.length := by
    have hw := hb.written
    have hle := hb.balanced.held_recode
    have hpend := s.data.length_pending_le .write
    rw [Function.update_of_ne (by simp), Sys.stream, List.length_append] at hw
    simp only [History.stream] at hw
    omega
  have hkeyed : i < s.history.keyed.length := by
    have hrl := hm.recoded
    have hh : posm .read + 0 ≤ posm .recode := hheld
    rw [hi.keyed, List.length_take]
    omega
  have hW : s.data.history.written <+: s.data.stream .write := List.prefix_append _ _
  have hK : s.history.keyed <+: xorStream (s.mask.stream .write) (s.mask.stream .recode) :=
    hi.keyed ▸ List.take_prefix _ _
  refine ⟨hwritten, hkeyed, ?_⟩
  simp only [hrec, xorStream, List.getElem_zipWith]
  rw [hW.getElem hwritten, hK.getElem hkeyed, hi.key.getElem hiM]

/-- Two bytes and two mask bytes; the recoder starts before the filling thread's last store. -/
def twoKeyBytes : List XorEvent :=
  .write (some fun _ => 7) 2 :: List.replicate 5 .writerStep ++
  .fill (.write (some fun _ => 3) 2) :: List.replicate 6 .fillerStep ++
  .fill .recodeNone :: List.replicate 3 .fillerStep ++
  .recodeXorBuf :: List.replicate 11 .recoderStep ++ [.fillerStep, .writerStep]

theorem recodeXorBuf_aligned_twoKeyBytes : ∃ s,
    Run.run XorSys.step (XorSys.start oneChunk oneChunk) twoKeyBytes = some s ∧
    s.history.recoded = [4, 4] ∧ s.history.recoded.length = s.history.drained := by
  have h : (Run.run XorSys.step (XorSys.start oneChunk oneChunk) twoKeyBytes).map
      (fun s => (s.recoder, s.history.recoded)) = some (none, [4, 4]) := by decide +kernel
  obtain ⟨s, hs, he⟩ := Option.map_eq_some_iff.mp h
  obtain ⟨hidle, hrec⟩ := Prod.mk.inj he
  exact ⟨s, hs, hrec, (recodeXorBuf_aligned (fun _ => some fun _ => 0) (fun _ => some fun _ => 0)
    1 1 oneChunk oneChunk (by decide) (by decide) (by decide) (by decide) oneChunk_init oneChunk_init
    twoKeyBytes s hs hidle).1⟩

end Cryptochan
